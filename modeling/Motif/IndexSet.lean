/-!
# Sets of indices

A finite set of indices, kept as the strictly ascending list of its members. Two sets with the same
members are equal.
-/

namespace Motif

/-- A finite set of indices in ascending order. -/
structure IndexSet where
  toList : List Nat := []
  ascending : toList.Pairwise (· < ·) := by simp
deriving DecidableEq

namespace IndexSet

instance : EmptyCollection IndexSet :=
  ⟨{}⟩

instance : Inhabited IndexSet :=
  ⟨∅⟩

instance : Membership Nat IndexSet where
  mem set index := index ∈ set.toList

instance (index : Nat) (set : IndexSet) : Decidable (index ∈ set) :=
  inferInstanceAs (Decidable (index ∈ set.toList))

/-- Put an index into an ascending list at its place, unless it is there. -/
def insertAscending (index : Nat) : List Nat → List Nat
  | [] => [index]
  | head :: rest =>
      if index < head then index :: head :: rest
      else if index = head then head :: rest
      else head :: insertAscending index rest

theorem mem_insertAscending {index other : Nat} {members : List Nat} :
    other ∈ insertAscending index members ↔ other = index ∨ other ∈ members := by
  induction members with
  | nil => simp [insertAscending]
  | cons head rest ih =>
      rw [insertAscending]
      split
      · simp
      · split
        · subst index
          simp
        · simp only [List.mem_cons, ih, or_left_comm]

theorem pairwise_insertAscending {index : Nat} {members : List Nat}
    (h : members.Pairwise (· < ·)) : (insertAscending index members).Pairwise (· < ·) := by
  induction members with
  | nil => simp [insertAscending]
  | cons head rest ih =>
      have hparts := List.pairwise_cons.1 h
      rw [insertAscending]
      split
      · rename_i hlt
        refine List.pairwise_cons.2 ⟨?_, h⟩
        intro other hother
        cases List.mem_cons.1 hother with
        | inl heq => omega
        | inr hmem => exact Nat.lt_trans hlt (hparts.1 other hmem)
      · split
        · exact h
        · refine List.pairwise_cons.2 ⟨?_, ih hparts.2⟩
          intro other hother
          cases mem_insertAscending.1 hother with
          | inl heq => omega
          | inr hmem => exact hparts.1 other hmem

def insert (set : IndexSet) (index : Nat) : IndexSet where
  toList := insertAscending index set.toList
  ascending := pairwise_insertAscending set.ascending

/-- The set of the members of a list, in whatever order they come. -/
def ofList (members : List Nat) : IndexSet :=
  members.foldr (fun index set => set.insert index) ∅

def isEmpty (set : IndexSet) : Bool :=
  set.toList.isEmpty

@[simp] theorem not_mem_empty (index : Nat) : ¬ index ∈ (∅ : IndexSet) :=
  List.not_mem_nil

@[simp] theorem mem_toList {set : IndexSet} {index : Nat} : index ∈ set.toList ↔ index ∈ set :=
  Iff.rfl

@[simp] theorem mem_insert {set : IndexSet} {index other : Nat} :
    other ∈ set.insert index ↔ other = index ∨ other ∈ set :=
  mem_insertAscending

@[simp] theorem mem_ofList {members : List Nat} {index : Nat} :
    index ∈ ofList members ↔ index ∈ members := by
  induction members with
  | nil => simp [ofList]
  | cons head rest ih =>
      rw [ofList, List.foldr_cons, mem_insert, List.mem_cons]
      exact or_congr Iff.rfl ih

theorem isEmpty_iff {set : IndexSet} : set.isEmpty = true ↔ ∀ index, ¬ index ∈ set := by
  rw [isEmpty, List.isEmpty_iff, List.eq_nil_iff_forall_not_mem]
  exact Iff.rfl

theorem eq_of_ascending {members : List Nat} :
    ∀ {others : List Nat}, members.Pairwise (· < ·) → others.Pairwise (· < ·) →
      (∀ index, index ∈ members ↔ index ∈ others) → members = others := by
  induction members with
  | nil =>
      intro others _ _ h
      exact (List.eq_nil_iff_forall_not_mem.2 fun index hmem =>
        List.not_mem_nil ((h index).2 hmem)).symm
  | cons head rest ih =>
      intro others hmembers hothers h
      cases others with
      | nil => exact absurd ((h head).1 List.mem_cons_self) List.not_mem_nil
      | cons other others =>
          have hparts := List.pairwise_cons.1 hmembers
          have hotherParts := List.pairwise_cons.1 hothers
          have hhead : head = other := by
            have hleft := List.mem_cons.1 ((h head).1 List.mem_cons_self)
            have hright := List.mem_cons.1 ((h other).2 List.mem_cons_self)
            rcases hleft with heq | hmem
            · exact heq
            · rcases hright with heq | hmem2
              · exact heq.symm
              · have hlt := hotherParts.1 head hmem
                have hlt2 := hparts.1 other hmem2
                omega
          subst hhead
          congr 1
          refine ih hparts.2 hotherParts.2 fun index => ?_
          have hiff := h index
          rw [List.mem_cons, List.mem_cons] at hiff
          constructor
          · intro hmem
            have hlt := hparts.1 index hmem
            exact (hiff.1 (Or.inr hmem)).resolve_left (by omega)
          · intro hmem
            have hlt := hotherParts.1 index hmem
            exact (hiff.2 (Or.inr hmem)).resolve_left (by omega)

@[ext] theorem ext {set other : IndexSet} (h : ∀ index, index ∈ set ↔ index ∈ other) :
    set = other := by
  cases set with
  | mk members hmembers =>
      cases other with
      | mk others hothers =>
          have heq : members = others := eq_of_ascending hmembers hothers h
          subst heq
          rfl

theorem eq_empty_iff {set : IndexSet} : set = ∅ ↔ ∀ index, ¬ index ∈ set := by
  constructor
  · intro h index
    rw [h]
    exact not_mem_empty index
  · intro h
    exact ext fun index => iff_of_false (h index) (not_mem_empty index)

end IndexSet

end Motif
