import Mathlib.Data.List.Permutation
import Motif.Proofs.Items
import Motif.Proofs.Mirror

/-!
# Both directions of a pattern

The forward and the backward automaton of a pattern find the same matches, as long as two rules of
matching do not tell the directions apart. Of the expansions of a macro the first that fits counts,
and of two overlapping expansions another one may fit at the other end; a negated item takes one
token, and an excluded literal of several tokens begins with another token than it ends with.
-/

namespace Motif

namespace Tree

theorem settle_backward (items : List Tree) :
    settle .backward items = (settle .forward items).map reverse := by
  unfold settle
  cases hresolved : ((ofItems items).resolve true true).hasBoundary <;>
    simp [hresolved, orient, Except.map]

theorem parse_backward (vocabulary : Vocabulary) (text : List Char) :
    parse vocabulary .backward text = (parse vocabulary .forward text).map reverse := by
  unfold parse
  cases adjacencyFault text with
  | some fault => rfl
  | none =>
      cases parseLevel vocabulary .start text with
      | error fault => rfl
      | ok items => exact settle_backward items

end Tree

namespace Automaton

variable {α : Type} [Token α] {pattern : List Char} {symbols : List (List Char)}
  {table : MacroTable α} {forward backward : Automaton α}

theorem ofTree_of_ofPattern (hforward : ofPattern pattern .forward symbols table = .ok forward)
    (hbackward : ofPattern pattern .backward symbols table = .ok backward) :
    ofTree forward.tree table .forward = .ok forward ∧
      ofTree forward.tree.flip table .backward = .ok backward := by
  obtain ⟨tree, htree, hforward⟩ := ofPattern_eq_ok_iff.1 hforward
  obtain ⟨turned, hturned, hbackward⟩ := ofPattern_eq_ok_iff.1 hbackward
  rw [Tree.parse_backward, htree] at hturned
  have hreverse : tree.reverse = turned := Except.ok.inj hturned
  rw [tree_of_ofTree hforward, ← Tree.reverse_of_resolved (Tree.resolved_of_parse htree), hreverse]
  exact ⟨hforward, hbackward⟩

variable [DecidableEq α]

/--
The two automata of a pattern find the same starts of the matches that end at an index, and the same
whole matches, if the expansions of every macro outside the negated items read alike and the choices
of every negated item exclude alike.
-/
theorem startsTo_eq_of_alike
    (hforward : ofPattern pattern .forward symbols table = .ok forward)
    (hbackward : ofPattern pattern .backward symbols table = .ok backward)
    (hreadings : ∀ text expansions, (false, text) ∈ forward.tree.literals false →
      table.get? text = some expansions → ReadsAlike expansions)
    (hexclusions : ∀ texts ∈ forward.tree.exclusions,
      ExcludesAlike (texts.flatMap (table.readings .forward))) (input : Array α) :
    (∀ stop, forward.startsTo input stop = backward.startsTo input stop) ∧
      forward.matchesWhole input = backward.matchesWhole input.reverse := by
  obtain ⟨hforward, hbackward⟩ := ofTree_of_ofPattern hforward hbackward
  have hmatches : Mirrors input.size (forward.tree.Matches table .forward input)
      (forward.tree.flip.Matches table.reverse .backward input.reverse) := by
    refine Tree.mirrors_flip_of_alike (fun text htext => ?_) hexclusions
    unfold MacroTable.readings
    cases hexpansions : table.get? text with
    | none => exact readsAlike_of_apart (by simp)
    | some expansions => exact hreadings text expansions htext hexpansions
  have hends := (mirrors_iff_endsFrom hforward hbackward).1 hmatches
  exact ⟨(forall_startsTo_eq_iff (direction_of_ofTree hforward)
    (direction_of_ofTree hbackward)).2 hends, matchesWhole_eq_of_mirrors hends⟩

/-- A macro with overlapping expansions and a negated symbol of two tokens that do no harm. -/
theorem startsTo_eq_of_harmless_overlap :
    let table := (∅ : MacroTable Char).insert ['V'] [['a'], ['a', 'b', 'a']]
    let pattern := ['V', '+', '!', '{', 'c', 'h', ' ', 'h', ' ', 'c', '}', '#']
    ∃ forward backward,
      ofPattern pattern .forward [['c', 'h']] table = .ok forward ∧
        ofPattern pattern .backward [['c', 'h']] table = .ok backward ∧
          ∀ input : Array Char,
            (∀ stop, forward.startsTo input stop = backward.startsTo input stop) ∧
              forward.matchesWhole input = backward.matchesWhole input.reverse := by
  intro table pattern
  have hvocabulary : Vocabulary.ofList ([['c', 'h']] ++ table.keys) =
      ⟨[['c', 'h'], ['V']], by decide, by decide, by decide⟩ := rfl
  have hforwardTree : Tree.parse (Vocabulary.ofList ([['c', 'h']] ++ table.keys)) .forward pattern =
      .ok (.sequence [.leaf (.literal ['V']) ⟨false, .oneOrMore⟩,
        .alternation [.leaf (.literal ['c', 'h']) .plain, .leaf (.literal ['h']) .plain,
          .leaf (.literal ['c']) .plain] ⟨true, .once⟩, .leaf .inputEnd .plain] .plain) := by
    rw [hvocabulary]
    cbv
  have hbackwardTree := Tree.parse_backward (Vocabulary.ofList ([['c', 'h']] ++ table.keys)) pattern
  rw [hforwardTree] at hbackwardTree
  have hforward : ∃ forward, ofPattern pattern .forward [['c', 'h']] table = .ok forward :=
    ⟨_, ofPattern_eq_ok_iff.2 ⟨_, hforwardTree, rfl⟩⟩
  have hbackward : ∃ backward,
      ofPattern pattern .backward [['c', 'h']] table = .ok backward :=
    ⟨_, ofPattern_eq_ok_iff.2 ⟨_, hbackwardTree, rfl⟩⟩
  obtain ⟨forward, hforward⟩ := hforward
  obtain ⟨backward, hbackward⟩ := hbackward
  obtain ⟨tree, hparse, htree⟩ := ofPattern_eq_ok_iff.1 hforward
  rw [hforwardTree] at hparse
  cases hparse
  have hown := tree_of_ofTree htree
  refine ⟨forward, backward, hforward, hbackward,
    startsTo_eq_of_alike hforward hbackward ?_ ?_⟩
  · rw [hown]
    intro text expansions hmem hexpansions
    have htext : text = ['V'] := by
      simpa [Tree.literals, Tree.literalsEach, Mark.plain] using hmem
    subst htext
    have heq : expansions = [['a'], ['a', 'b', 'a']] := (Option.some.inj hexpansions).symm
    subst heq
    decide
  · rw [hown]
    decide

/--
Of two overlapping expansions the one that comes first hides the other one from one end only, and a
negated symbol of two tokens excludes the token that begins it from one end and the token that ends
it from the other.
-/
theorem directions_differ :
    let table := (∅ : MacroTable Char).insert ['V'] [['a'], ['a', 'b']]
    (∃ forward backward,
      ofPattern ['V'] .forward [] table = .ok forward ∧
        ofPattern ['V'] .backward [] table = .ok backward ∧
          forward.startsTo #['a', 'b'] 2 ≠ backward.startsTo #['a', 'b'] 2 ∧
            forward.matchesWhole #['a', 'b'] ≠ backward.matchesWhole #['b', 'a']) ∧
    ∃ forward backward,
      ofPattern ['!', 'c', 'h', '.'] .forward [['c', 'h']] (∅ : MacroTable Char) = .ok forward ∧
        ofPattern ['!', 'c', 'h', '.'] .backward [['c', 'h']] (∅ : MacroTable Char) =
          .ok backward ∧
          forward.startsTo #['c', 'h'] 2 ≠ backward.startsTo #['c', 'h'] 2 ∧
            forward.matchesWhole #['c', 'h'] ≠ backward.matchesWhole #['h', 'c'] := by
  intro table
  -- Each automaton is evaluated once, for the starts and the whole match together.
  have differ : ∀ {forward backward : Except BuildFault (Automaton Char)}
      {input mirrored : Array Char},
      (forward.map fun automaton => (automaton.startsTo input 2, automaton.matchesWhole input)) =
        .ok (∅, false) →
      (backward.map fun automaton =>
          (automaton.startsTo input 2, automaton.matchesWhole mirrored)) =
        .ok (IndexSet.ofList [0], true) →
      ∃ own other, forward = .ok own ∧ backward = .ok other ∧
        own.startsTo input 2 ≠ other.startsTo input 2 ∧
          own.matchesWhole input ≠ other.matchesWhole mirrored := by
    intro forward backward input mirrored hforward hbackward
    obtain ⟨own, hown, hvalues⟩ := map_eq_ok_iff.1 hforward
    obtain ⟨other, hother, hvalues'⟩ := map_eq_ok_iff.1 hbackward
    rw [Prod.mk.injEq] at hvalues hvalues'
    refine ⟨own, other, hown, hother, ?_, ?_⟩
    · rw [hvalues.1, hvalues'.1]
      decide
    · rw [hvalues.2, hvalues'.2]
      decide
  have hkey : ∀ direction, Tree.parse (Vocabulary.ofList ([] ++ table.keys)) direction ['V'] =
      .ok (.leaf (.literal ['V']) .plain) := by
    intro direction
    cases direction <;> cbv
  have hchain : Tree.parse (Vocabulary.ofList ([['c', 'h']] ++ (∅ : MacroTable Char).keys)) .forward
      ['!', 'c', 'h', '.'] =
        .ok (.sequence [.leaf (.literal ['c', 'h']) ⟨true, .once⟩, .leaf .wildcard .plain]
          .plain) := by
    cbv
  have hturned := Tree.parse_backward
    (Vocabulary.ofList ([['c', 'h']] ++ (∅ : MacroTable Char).keys)) ['!', 'c', 'h', '.']
  rw [hchain] at hturned
  constructor
  · refine differ ?_ ?_
    · rw [ofPattern, hkey]
      decide +kernel
    · rw [ofPattern, hkey]
      decide +kernel
  · refine differ ?_ ?_
    · rw [ofPattern, hchain]
      decide +kernel
    · rw [ofPattern, hturned]
      decide +kernel

/-! ## A single item -/

/-- A pattern has the same matches in both directions exactly if its tree is always mirrored. -/
theorem forall_startsTo_eq_iff_mirrors
    (hforward : ofPattern pattern .forward symbols table = .ok forward)
    (hbackward : ofPattern pattern .backward symbols table = .ok backward) :
    (∀ (input : Array α) stop, forward.startsTo input stop = backward.startsTo input stop) ↔
      ∀ input : Array α, Mirrors input.size (forward.tree.Matches table .forward input)
        (forward.tree.flip.Matches table.reverse .backward input.reverse) := by
  obtain ⟨hforward, hbackward⟩ := ofTree_of_ofPattern hforward hbackward
  refine forall_congr' fun input => ?_
  rw [forall_startsTo_eq_iff (direction_of_ofTree hforward) (direction_of_ofTree hbackward),
    mirrors_iff_endsFrom hforward hbackward]

/--
A pattern of one literal or macro has the same matches in both directions, in every input, exactly
if its readings read alike.
-/
theorem forall_startsTo_eq_iff_readsAlike
    (hforward : ofPattern pattern .forward symbols table = .ok forward)
    (hbackward : ofPattern pattern .backward symbols table = .ok backward) {text : List Char}
    (htree : forward.tree = .leaf (.literal text) .plain) :
    (∀ (input : Array α) stop, forward.startsTo input stop = backward.startsTo input stop) ↔
      ReadsAlike (table.readings .forward text) := by
  rw [forall_startsTo_eq_iff_mirrors hforward hbackward, htree, ← forall_mirrors_firstSeen_iff]
  refine forall_congr' fun input => ?_
  rw [← MacroTable.readings_reverse, ← literalMatches_eq_firstSeen, ← literalMatches_eq_firstSeen,
    ← Leaf.matches_literal, ← Leaf.matches_literal]
  rfl

/--
A pattern of one negated item has the same matches in both directions, in every input, exactly if
its choices exclude alike.
-/
theorem forall_startsTo_eq_iff_excludesAlike
    (hforward : ofPattern pattern .forward symbols table = .ok forward)
    (hbackward : ofPattern pattern .backward symbols table = .ok backward)
    {texts : List (List Char)} (hmark : forward.tree.mark = ⟨true, .once⟩)
    (hchoices : forward.tree.choices = some texts) :
    (∀ (input : Array α) stop, forward.startsTo input stop = backward.startsTo input stop) ↔
      ExcludesAlike (texts.flatMap (table.readings .forward)) := by
  rw [forall_startsTo_eq_iff_mirrors hforward hbackward, ← forall_mirrors_noneSeen_iff]
  refine forall_congr' fun input => ?_
  have hnegated : forward.tree.mark.negated = true := by rw [hmark]
  rw [Tree.matches_of_negated hnegated, Tree.matches_of_negated (by rwa [Tree.mark_flip]),
    Tree.mark_flip, Tree.choices_flip, hmark, hchoices, ← MacroTable.flatMap_readings_reverse,
    ← excludes_eq_noneSeen, ← excludes_eq_noneSeen]
  rfl

end Automaton

end Motif
