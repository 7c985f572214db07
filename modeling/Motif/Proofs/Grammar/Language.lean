import Mathlib.Data.List.Permutation
import Motif.Proofs.Grammar.Soundness

/-!
# The language of patterns

A text is a pattern exactly when the grammar derives items from its pieces and every boundary among
them stands first or last; the tree of the pattern is put together from those items.
-/

namespace Motif

namespace Tree

variable {vocabulary : Vocabulary} {direction : Direction} {text : List Char}

/-- A whole text is read as the items that the grammar derives from its pieces. -/
theorem parseLevel_eq_ok_iff (hvocabulary : vocabulary.Plain) {items : List Tree} :
    parseLevel vocabulary .start text = .ok items ↔
      Derives (.items true) (pieces vocabulary text) items := by
  constructor
  · intro hread
    exact (sound hvocabulary text true .start items (Or.inl rfl) hread).eq_derives
  · intro h
    exact h.accepted hvocabulary text rfl []

theorem derives_unique (hvocabulary : vocabulary.Plain) {items others : List Tree}
    (h : Derives (.items true) (pieces vocabulary text) items)
    (hother : Derives (.items true) (pieces vocabulary text) others) : items = others := by
  rw [← parseLevel_eq_ok_iff hvocabulary] at h hother
  rw [h] at hother
  exact Except.ok.inj hother

/-- A text is read in two steps: the items of its grammar, and the tree for them. -/
theorem parse_eq_ok_iff (hvocabulary : vocabulary.Plain) {tree : Tree} :
    parse vocabulary direction text = .ok tree ↔
      ∃ items, Derives (.items true) (pieces vocabulary text) items ∧
        settle direction items = .ok tree := by
  simp only [← parseLevel_eq_ok_iff hvocabulary]
  unfold parse
  cases hfault : adjacencyFault text with
  | none => exact bind_eq_ok_iff
  | some fault =>
      refine iff_of_false (by simp) ?_
      intro h
      rcases h with ⟨items, hitems, -⟩
      have hchain := ((parseLevel_eq_ok_iff hvocabulary).1 hitems).joinable.chain
      rw [adjacencyFault_of_isChain hvocabulary hchain] at hfault
      cases hfault

/--
A text is a pattern exactly when its pieces derive some items all of whose boundaries stand first or
last. The tree is the sequence of the items, with its boundaries resolved, as it is matched in the
direction.
-/
theorem parse_iff_grammar (hvocabulary : vocabulary.Plain) (direction : Direction)
    (text : List Char) (tree : Tree) :
    parse vocabulary direction text = .ok tree ↔
      ∃ items, Derives (.items true) (pieces vocabulary text) items ∧
        (ofItems items).AtEdges true true ∧
          tree = ((ofItems items).resolve true true).orient direction := by
  simp only [parse_eq_ok_iff hvocabulary, settle_eq_ok_iff]

/-- Of two declared symbols the longer one is taken, and blanks may stand around a quantifier. -/
theorem grammar_of_overlapping_symbols :
    let vocabulary := Vocabulary.ofList [['a', 'b'], ['a', 'b', 'c']]
    vocabulary.Plain ∧
      ∃ items,
        Derives (.items true)
          (pieces vocabulary ['#', '(', '!', '{', 'a', 'b', ' ', 'a', 'b', 'c', '}', ')', ' ', '+',
            ' ', 'a', 'b', 'd']) items ∧
          (ofItems items).AtEdges true true ∧
            Tree.sequence [.leaf (.literal ['d']) .plain, .leaf (.literal ['a', 'b']) .plain,
              .sequence [.alternation [.leaf (.literal ['a', 'b']) .plain,
                .leaf (.literal ['a', 'b', 'c']) .plain] ⟨true, .once⟩] ⟨false, .oneOrMore⟩,
              .leaf .inputEnd .plain] .plain =
                ((ofItems items).resolve true true).orient .backward := by
  have hplain : (Vocabulary.ofList [['a', 'b'], ['a', 'b', 'c']]).Plain := by decide
  have hvocabulary : Vocabulary.ofList [['a', 'b'], ['a', 'b', 'c']] =
      ⟨[['a', 'b', 'c'], ['a', 'b']], by decide, by decide, by decide⟩ := rfl
  have hparse : parse (Vocabulary.ofList [['a', 'b'], ['a', 'b', 'c']]) .backward
      ['#', '(', '!', '{', 'a', 'b', ' ', 'a', 'b', 'c', '}', ')', ' ', '+', ' ', 'a', 'b', 'd'] =
        .ok (Tree.sequence [.leaf (.literal ['d']) .plain, .leaf (.literal ['a', 'b']) .plain,
          .sequence [.alternation [.leaf (.literal ['a', 'b']) .plain,
            .leaf (.literal ['a', 'b', 'c']) .plain] ⟨true, .once⟩] ⟨false, .oneOrMore⟩,
          .leaf .inputEnd .plain] .plain) := by
    rw [hvocabulary]
    cbv
  exact ⟨hplain, (parse_iff_grammar hplain .backward _ _).1 hparse⟩

end Tree

end Motif
