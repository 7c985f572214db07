import Motif.Proofs.Failure

/-!
# Negation as a complement

A choice of literals is built from arcs for each of them, and its negation from a single arc that
excludes them all. The two fail for the same cause, and the negated choice takes the one token at
which the choice itself finds nothing, unless that is a boundary marker.
-/

namespace Motif

namespace Tree

theorem hasBoundary_of_choices {tree : Tree} {texts : List (List Char)}
    (h : tree.choices = some texts) : tree.hasBoundary = false := by
  refine choices_induction (motive := fun tree _ => tree.hasBoundary = false) ?_ ?_ ?_ h
  · intro text mark
    rfl
  · intro child texts mark _ hchild
    rw [hasBoundary, anyHasBoundary, hchild, anyHasBoundary, Bool.or_false]
  · intro children parts mark hparts
    rw [hasBoundary]
    induction hparts with
    | nil => rfl
    | cons hchild _ ih => rw [anyHasBoundary, hchild.2, ih, Bool.or_false]

theorem guarded_of_choices {tree : Tree} {texts : List (List Char)}
    (h : tree.choices = some texts) : tree.All Guarded := by
  have hplain : ∀ {child : Tree}, child.mark = .plain →
      (∀ grandchild ∈ child.children, grandchild.All Guarded) →
        child.All Guarded := by
    intro child hmark hbelow
    refine all_iff.2 ⟨fun hnegated => ?_, hbelow⟩
    rw [hmark] at hnegated
    cases hnegated
  refine all_iff.2 ⟨fun _ => by simp [h], ?_⟩
  refine choices_induction (motive := fun tree _ =>
    ∀ child ∈ tree.children, child.All Guarded) ?_ ?_ ?_ h
  · intro text mark child hmem
    exact absurd hmem List.not_mem_nil
  · intro child texts mark hmark hchild
    exact List.forall_mem_singleton.2 (hplain hmark hchild)
  · intro children parts mark hparts
    rw [Tree.children]
    induction hparts with
    | nil => simp
    | cons hchild _ ih => exact List.forall_mem_cons.2 ⟨hplain hchild.1 hchild.2, ih⟩

section Choices

variable {α : Type} [Token α] {table : MacroTable α} {direction : Direction}

/-- A choice can be assembled unless one of its literals is an unresolved macro. -/
theorem exists_assemble_iff_of_choices {tree : Tree} {texts : List (List Char)}
    (h : tree.choices = some texts) :
    (∃ assembly, tree.assemble table direction = .ok assembly) ↔
      ∀ text ∈ texts, table.isUnresolved text = false := by
  have hfails : FailsAt (tree.texts.find? table.isUnresolved) (tree.assemble table direction) :=
    failsAt_assemble (guarded_of_choices h) (hasBoundary_of_choices h)
  rw [hfails.exists_eq_ok_iff, texts_of_choices h, List.find?_eq_none]
  simp only [Bool.not_eq_true]

variable [DecidableEq α] {input : Array α}

/-- A choice matches as one of its literals, however it is grouped. -/
theorem matches_of_choices {tree : Tree} {texts : List (List Char)}
    (h : tree.choices = some texts) {index stop : Nat} :
    (tree.withMark .plain).Matches table direction input index stop ↔
      ∃ text ∈ texts, LiteralMatches table direction input text index stop := by
  refine choices_induction (motive := fun tree texts =>
    (tree.withMark .plain).Matches table direction input index stop ↔
      ∃ text ∈ texts, LiteralMatches table direction input text index stop)
    ?_ ?_ ?_ h
  · intro text mark
    rw [withMark, Matches, if_neg (by simp [Mark.plain]), Leaf.matches_literal]
    simp [Mark.plain, Quantifier.close]
  · intro child texts mark hmark hchild
    rw [← hmark, withMark_mark] at hchild
    rw [← hchild, withMark, Matches, if_neg (by simp [Mark.plain])]
    simp [Mark.plain, Quantifier.close, MatchesInTurn]
  · intro children parts mark hparts
    rw [withMark, Matches, if_neg (by simp [Mark.plain])]
    show MatchesAny table direction input children index stop ↔ _
    induction hparts with
    | nil => simp [MatchesAny]
    | cons hchild _ ih =>
        obtain ⟨hmark, hmatches⟩ := hchild
        rw [← hmark, withMark_mark] at hmatches
        simp only [MatchesAny, List.flatten_cons, List.mem_append, or_and_right, exists_or,
          hmatches, ih]

theorem matches_negated_of_choices {tree : Tree} {texts : List (List Char)}
    (h : tree.choices = some texts) {index stop : Nat} :
    (tree.withMark ⟨true, .once⟩).Matches table direction input index stop ↔
      stop = index + 1 ∧ index < input.size ∧ Token.hasBoundaryAt input index = false ∧
        ∀ next, ¬ (tree.withMark .plain).Matches table direction input index next := by
  have hunseen : (∀ next, ¬ (tree.withMark .plain).Matches table direction input index next) ↔
      ∀ text ∈ texts, ∀ next,
        ¬ LiteralMatches table direction input text index next := by
    simp only [matches_of_choices h, not_exists, not_and]
    exact ⟨fun hnone text htext next => hnone next text htext,
      fun hnone next text htext => hnone text htext next⟩
  rw [matches_of_negated (by rw [mark_withMark]), mark_withMark, choices_withMark, h, hunseen]
  simp [Quantifier.close, Excludes]

end Choices

end Tree

namespace Automaton

variable {α : Type} [DecidableEq α] [Token α]

/--
A choice of literals and its negation either fail with the same fault, or the negation finds the
next index from exactly those tokens at which the choice finds nothing and which are no boundary
markers, and nothing from anywhere else.
-/
theorem endsFrom_negated_eq {tree : Tree} {texts : List (List Char)}
    (h : tree.choices = some texts) (table : MacroTable α) (direction : Direction) :
    (∃ fault, ofTree (tree.withMark .plain) table direction = .error fault ∧
      ofTree (tree.withMark ⟨true, .once⟩) table direction = .error fault) ∨
    ∃ positive negative, ofTree (tree.withMark .plain) table direction = .ok positive ∧
      ofTree (tree.withMark ⟨true, .once⟩) table direction = .ok negative ∧
      ∀ input start, negative.endsFrom input start =
        if start < input.size ∧ Token.hasBoundaryAt input start = false ∧
            positive.endsFrom input start = ∅ then
          IndexSet.ofList [start + 1]
        else
          ∅ := by
  have hfails : ∀ mark, FailsAt (texts.find? table.isUnresolved)
      (ofTree (tree.withMark mark) table direction) := by
    intro mark
    have hchoices : (tree.withMark mark).choices = some texts := by
      rw [Tree.choices_withMark, h]
    rw [← Tree.texts_of_choices hchoices]
    exact failsAt_ofTree_of_guarded (Tree.guarded_of_choices hchoices)
      (Tree.hasBoundary_of_choices hchoices)
  refine (hfails .plain).alike (hfails ⟨true, .once⟩) |>.imp_right fun hbuilt => ?_
  obtain ⟨positive, negative, hpositive, hnegative⟩ := hbuilt
  refine ⟨positive, negative, hpositive, hnegative, fun input start => ?_⟩
  have hnegated : ∀ stop, stop ∈ negative.endsFrom input start ↔
      stop = start + 1 ∧ start < input.size ∧ Token.hasBoundaryAt input start = false ∧
        positive.endsFrom input start = ∅ := by
    intro stop
    rw [mem_endsFrom_iff hnegative, Tree.matches_negated_of_choices h, IndexSet.eq_empty_iff]
    simp only [mem_endsFrom_iff hpositive, not_and]
    constructor
    · intro hmatch
      obtain ⟨-, hstop, hstart, hplain, hnone⟩ := hmatch
      exact ⟨hstop, hstart, hplain, fun next _ => hnone next⟩
    · intro hfound
      obtain ⟨hstop, hstart, hplain, hnone⟩ := hfound
      have hle := Nat.le_of_lt hstart
      exact ⟨hle, hstop, hstart, hplain, fun next => hnone next hle⟩
  apply IndexSet.ext
  intro stop
  rw [hnegated]
  split
  · rename_i hfound
    rw [IndexSet.mem_ofList, List.mem_singleton]
    exact and_iff_left hfound
  · rename_i hfound
    exact iff_of_false (fun hstop => hfound hstop.2) (IndexSet.not_mem_empty stop)

/-- A choice over a macro in a group and a choice that holds an empty one, read backward. -/
theorem endsFrom_negated_of_nested_choice :
    let tree := Tree.alternation
      [.sequence [.leaf (.literal ['m']) .plain] .plain,
        .alternation [.leaf (.literal ['d', 'e']) .plain, .sequence [.alternation [] .plain] .plain]
          .plain] ⟨false, .zeroOrMore⟩
    let table := (∅ : MacroTable Char).insert ['m'] [['a', 'b'], ['c']]
    tree.choices = some [['m'], ['d', 'e']] ∧
    ∃ positive negative, ofTree (tree.withMark .plain) table .backward = .ok positive ∧
      ofTree (tree.withMark ⟨true, .once⟩) table .backward = .ok negative ∧
      ∀ input start, negative.endsFrom input start =
        if start < input.size ∧ Token.hasBoundaryAt input start = false ∧
            positive.endsFrom input start = ∅ then
          IndexSet.ofList [start + 1]
        else
          ∅ := by
  intro tree table
  have hchoices : tree.choices = some [['m'], ['d', 'e']] := rfl
  refine ⟨hchoices, ?_⟩
  rcases endsFrom_negated_eq hchoices table .backward with ⟨fault, hfault, -⟩ | hbuilt
  · cases hfault
  · exact hbuilt

end Automaton

end Motif
