import Motif.Proofs.Search

/-!
# How long a search takes

A search ends on every machine: cycles that see nothing and states that do not exist do not keep it
going. It looks at each configuration at most once, and there are no more of them than one for each
index from where it began and each arc, and as many for the start. This does not depend on which of
the pending configurations comes next, and neither does what is found.
-/

namespace Motif

variable {α : Type} [DecidableEq α] [Token α]
variable {table : MacroTable α} {input : Array α}

namespace Search

/--
From one search to another by looking at some configurations, the last of which comes first. Any of
those that are pending may be the next one.
-/
inductive Looks (machine : Machine α) (table : MacroTable α) (input : Array α) (first : Search) :
    List Configuration → Search → Prop
  | nothing : Looks machine table input first [] first
  | next {looked rest : List Configuration} {current : Configuration} {search last : Search} :
      Looks machine table input first looked search →
        (current :: rest).Perm search.pending →
          step machine table input { search with pending := current :: rest } = some last →
            Looks machine table input first (current :: looked) last

/-- The order of what is pending has no part in how a search stands. -/
theorem Progress.reorder {machine : Machine α} {origin : Configuration}
    {looked pending : List Configuration} {search : Search}
    (h : Progress machine table input origin looked search)
    (hpending : pending.Perm search.pending) :
    Progress machine table input origin looked { search with pending := pending } where
  tidy := {
    nodup := (hpending.append_right looked).nodup_iff.2 h.tidy.nodup
    mem_met_iff configuration :=
      (h.tidy.mem_met_iff configuration).trans (hpending.append_right looked).mem_iff.symm }
  origin_met := h.origin_met
  reached := h.reached
  met_of_step := h.met_of_step
  mem_ends_iff := h.mem_ends_iff

/-- Whatever is looked at next, a search stands as it should after every step. -/
theorem Looks.progress {machine : Machine α} {origin : Configuration}
    {looked : List Configuration} {search : Search}
    (h : Looks machine table input (opening origin) looked search) :
    Progress machine table input origin looked search := by
  induction h with
  | nothing => exact Progress.opening machine origin
  | next _ hpending hstep ih => exact (ih.reorder hpending).step rfl hstep

theorem Looks.exists_next {machine : Machine α} {first search : Search}
    {looked : List Configuration} {current : Configuration}
    (h : Looks machine table input first looked search) (hcurrent : current ∈ search.pending) :
    ∃ last, Looks machine table input first (current :: looked) last :=
  ⟨_, h.next (List.perm_cons_erase hcurrent).symm rfl⟩

theorem Looks.run {machine : Machine α} {first : Search} (fuel : Nat) :
    ∀ {looked : List Configuration} {search : Search},
      Looks machine table input first looked search →
        ∃ looked', Looks machine table input first looked'
          (Search.run machine table input fuel search) := by
  induction fuel with
  | zero =>
      intro looked search h
      exact ⟨looked, h⟩
  | succ fuel ih =>
      intro looked search h
      rw [Search.run]
      cases hstep : step machine table input search with
      | none => exact ⟨looked, h⟩
      | some next =>
          cases hpending : search.pending with
          | nil => rw [step_eq_none_iff.2 hpending] at hstep; cases hstep
          | cons current rest =>
              refine ih (h.next (List.Perm.of_eq hpending.symm) ?_)
              rwa [← hpending]

/-- With nothing pending a search has found what the machine finds, in whatever order it looked. -/
theorem Progress.ends_eq {machine : Machine α} {index : Nat} {looked : List Configuration}
    {search : Search} (hindex : index ≤ input.size)
    (h : Progress machine table input ⟨machine.start, index⟩ looked search)
    (hpending : search.pending = []) : search.ends = machine.ends table input index := by
  apply IndexSet.ext
  intro stop
  rw [h.mem_ends_iff, h.mem_looked_iff hpending, Machine.mem_ends_iff, Machine.Runs,
    and_iff_right hindex]

end Search

/--
Whatever the machine, a search from an index inside the input looks at no configuration twice, and
what it has looked at and what is pending are never more than its bound. So with each pending
configuration it can go on, but not beyond the bound, and when nothing is pending any more it has
found what the machine finds. The search that the machine makes comes to this end.
-/
theorem Machine.search_exhausts (machine : Machine α) (table : MacroTable α) {input : Array α}
    {index : Nat} (hindex : index ≤ input.size) :
    let opening := Search.opening ⟨machine.start, index⟩
    let bound := (machine.graph.arcTotal + 1) * (input.size - index + 1)
    (∀ looked search, Search.Looks machine table input opening looked search →
      looked.Nodup ∧ looked.length + search.pending.length ≤ bound ∧
      (∀ current ∈ search.pending, ∃ next,
        Search.Looks machine table input opening (current :: looked) next) ∧
      (search.pending = [] → search.ends = machine.ends table input index)) ∧
    ∃ looked,
      Search.Looks machine table input opening looked
        (Search.run machine table input bound opening) ∧
      (Search.run machine table input bound opening).pending = [] := by
  intro opening bound
  constructor
  · intro looked search h
    have hprogress : Search.Progress machine table input ⟨machine.start, index⟩ looked search :=
      h.progress
    refine ⟨(List.nodup_append.1 hprogress.tidy.nodup).2.1, hprogress.length_le hindex, ?_,
      hprogress.ends_eq hindex⟩
    intro current hcurrent
    exact h.exists_next hcurrent
  · have hopening : Search.Looks machine table input opening [] opening := .nothing
    obtain ⟨looked, hlooked⟩ := hopening.run bound
    obtain ⟨-, -, hpending⟩ := Search.exists_progress_of_searchBound table machine hindex
    exact ⟨looked, hlooked, hpending⟩

/-- A cycle that sees nothing, an accepting state that is no state, and two ways to one end. -/
theorem Machine.search_exhausts_cycle :
    let machine : Machine Char :=
      ⟨⟨#[[⟨.epsilon, 1⟩, ⟨.take .wildcard, 7⟩], [⟨.epsilon, 0⟩, ⟨.exclude [.literal ['a']], 7⟩]]⟩,
        0, 7⟩
    let opening := Search.opening ⟨0, 0⟩
    (∀ looked search, Search.Looks machine ∅ #['b', 'a'] opening looked search →
      looked.Nodup ∧ looked.length + search.pending.length ≤ 15 ∧
      (∀ current ∈ search.pending, ∃ next,
        Search.Looks machine ∅ #['b', 'a'] opening (current :: looked) next) ∧
      (search.pending = [] → search.ends = machine.ends ∅ #['b', 'a'] 0)) ∧
    ∃ looked,
      Search.Looks machine ∅ #['b', 'a'] opening looked
        (Search.run machine ∅ #['b', 'a'] 15 opening) ∧
      (Search.run machine ∅ #['b', 'a'] 15 opening).pending = [] := by
  intro machine opening
  have hindex : 0 ≤ #['b', 'a'].size := by decide
  exact search_exhausts machine ∅ hindex

end Motif
