import Motif.Proofs.Complement
import Motif.Proofs.Declarations

/-!
# Macros spelled out

A macro may be written out as the alternation of its expansions. The automaton then still finds all
that it found with the macro, and it may find more: the alternation tries every expansion where the
macro takes the first one that is seen. Negated items are not affected, since they exclude all the
expansions in either form, nor are macros of which no expansion begins another one.
-/

namespace Motif

/-! ## Trees that are spelled out -/

/-- The words that are written for a literal: those of a macro, or else the literal itself. -/
def wordsFor (spelling : List Char → Option (List (List Char))) (text : List Char) :
    List (List Char) :=
  (spelling text).getD [text]

namespace Tree

def ofWords (words : List (List Char)) (mark : Mark) : Tree :=
  .alternation (words.map fun word => .leaf (.literal word) .plain) mark

mutual

/-- The tree with a choice between its words in place of every macro, under the same mark. -/
def spellOut (spelling : List Char → Option (List (List Char))) : Tree → Tree
  | .leaf (.literal text) mark =>
      match spelling text with
      | some words => ofWords words mark
      | none => .leaf (.literal text) mark
  | .leaf content mark => .leaf content mark
  | .sequence children mark => .sequence (spellOutEach spelling children) mark
  | .alternation children mark => .alternation (spellOutEach spelling children) mark

def spellOutEach (spelling : List Char → Option (List (List Char))) : List Tree → List Tree
  | [] => []
  | child :: rest => spellOut spelling child :: spellOutEach spelling rest

end

variable {spelling : List Char → Option (List (List Char))}

theorem spellOutEach_eq_map (trees : List Tree) :
    spellOutEach spelling trees = trees.map (spellOut spelling) := by
  induction trees with
  | nil => simp [spellOutEach]
  | cons child rest ih => simp [spellOutEach, ih]

theorem choices_ofWords (words : List (List Char)) (mark : Mark) :
    (ofWords words mark).choices = some words := by
  rw [ofWords, choices]
  induction words with
  | nil => rfl
  | cons word rest ih => simp [choicesAll, choices, Tree.mark, ih]

@[simp] theorem mark_spellOut (tree : Tree) : (tree.spellOut spelling).mark = tree.mark := by
  cases tree with
  | leaf content mark =>
      cases content with
      | literal text =>
          rw [spellOut]
          split <;> rfl
      | wildcard | boundary | inputStart | inputEnd | epsilon => rfl
  | sequence children mark => rfl
  | alternation children mark => rfl

@[simp] theorem choices_spellOut (tree : Tree) :
    (tree.spellOut spelling).choices = tree.choices.map (List.flatMap (wordsFor spelling)) := by
  induction tree with
  | leaf content mark =>
      cases content with
      | literal text =>
          rw [spellOut, choices, Option.map_some, List.flatMap_singleton, wordsFor]
          split
          · rename_i words hwords
            rw [choices_ofWords, hwords, Option.getD_some]
          · rename_i hnone
            rw [choices, hnone, Option.getD_none]
      | wildcard | boundary | inputStart | inputEnd | epsilon => rfl
  | sequence children mark ih =>
      rcases children with _ | ⟨child, _ | ⟨next, rest⟩⟩
      · rfl
      · have hchild := ih child List.mem_cons_self
        rw [spellOut, spellOutEach, spellOutEach, choices, choices, mark_spellOut, hchild]
        split <;> rfl
      · rfl
  | alternation children mark ih =>
      rw [spellOut, choices, choices]
      clear mark
      induction children with
      | nil => rfl
      | cons child rest ihrest =>
          rw [spellOutEach, choicesAll, choicesAll, mark_spellOut, ih child List.mem_cons_self,
            ihrest fun other hmem => ih other (List.mem_cons_of_mem _ hmem)]
          cases child.choices <;> cases choicesAll rest <;> split <;> simp

end Tree

/-! ## Macros and their words -/

variable {α : Type} [Token α]

def expansionTexts (declared : List (List Char × List (List Char))) (key : List Char) :
    Option (List (List Char)) :=
  declared.reverse.lookup key

namespace MacroTable

/--
Every key of the table, and no other text, is spelled as some words, and those are its expansions.
The table is oriented already.
-/
def Spells (table : MacroTable α) (direction : Direction)
    (spelling : List Char → Option (List (List Char))) : Prop :=
  ∀ key, table.get? key =
    (spelling key).map (List.map fun word => direction.orientTokens (Token.ofLiteral word))

theorem get?_ofDeclarations (declared : List (List Char × List (List Char))) (key : List Char) :
    (ofDeclarations declared : MacroTable α).get? key =
      (expansionTexts declared key).map (List.map Token.ofLiteral) := by
  unfold expansionTexts ofDeclarations
  induction declared using List.reverseRecOn with
  | nil => rfl
  | append_singleton earlier last ih =>
      rw [List.foldl_append, List.reverse_append, List.reverse_singleton, List.singleton_append,
        lookup_cons_eq]
      show (declare _ last.1 last.2).get? key = _
      rw [declare, get?_insert, ih]
      split <;> rfl

theorem expansionTexts_eq_none_of_notMem {declared : List (List Char × List (List Char))}
    {key : List Char} (h : ¬ key ∈ (ofDeclarations declared : MacroTable α).keys) :
    expansionTexts declared key = none := by
  have hnone : (ofDeclarations declared : MacroTable α).get? key = none := by
    rw [get?, id?, List.idxOf?_eq_none_iff.2 h, Option.map_none]
  rwa [get?_ofDeclarations, Option.map_eq_none_iff] at hnone

theorem spells_orient_ofDeclarations (declared : List (List Char × List (List Char)))
    (direction : Direction) :
    ((ofDeclarations declared : MacroTable α).orient direction).Spells direction
      (expansionTexts declared) := by
  intro key
  cases direction with
  | forward => exact get?_ofDeclarations declared key
  | backward =>
      show (ofDeclarations declared).reverse.get? key = _
      rw [get?_reverse, get?_ofDeclarations, Option.map_map]
      simp [Function.comp_def, Direction.orientTokens]

variable {table : MacroTable α} {direction : Direction}
  {spelling : List Char → Option (List (List Char))}

/-- The words for a literal have the readings of the literal, in their order. -/
def Faithful (table : MacroTable α) (direction : Direction)
    (spelling : List Char → Option (List (List Char))) (text : List Char) : Prop :=
  (wordsFor spelling text).flatMap (table.readings direction) = table.readings direction text

/-- The words for a literal have its readings, if none of them is a key itself. -/
theorem Spells.faithful (h : table.Spells direction spelling) {text : List Char}
    (hkeys : ∀ words, spelling text = some words → ∀ word ∈ words,
      spelling word = none) :
    table.Faithful direction spelling text := by
  unfold Faithful readings wordsFor
  cases hwords : spelling text with
  | none => simp [h text, hwords]
  | some words =>
      rw [h text, hwords, Option.getD_some, Option.map_some, Option.getD_some,
        List.map_eq_flatMap]
      apply List.flatMap_congr
      intro word hword
      rw [h word, hkeys words hwords word hword]
      rfl

theorem Spells.isUnresolved_word (h : table.Spells direction spelling) {text word : List Char}
    (hkeys : ∀ words, spelling text = some words → ∀ word ∈ words,
      spelling word = none)
    (hresolved : table.isUnresolved text = false) (hword : word ∈ wordsFor spelling text) :
    table.isUnresolved word = false := by
  unfold wordsFor at hword
  cases hwords : spelling text with
  | none =>
      rw [hwords, Option.getD_none, List.mem_singleton] at hword
      rwa [hword]
  | some words =>
      rw [hwords, Option.getD_some] at hword
      rw [isUnresolved, h word, hkeys words hwords word hword]
      rfl

end MacroTable

namespace Tree

section Assembling

variable {table : MacroTable α} {direction : Direction}
  {spelling : List Char → Option (List (List Char))}

theorem exists_assemble_spellOut_of_choices {tree : Tree} {texts : List (List Char)}
    (hchoices : tree.choices = some texts)
    (hwords : ∀ text ∈ tree.texts, table.isUnresolved text = false →
      ∀ word ∈ wordsFor spelling text, table.isUnresolved word = false)
    (h : ∃ assembly, tree.assemble table direction = .ok assembly) :
    ∃ spelled, (tree.spellOut spelling).assemble table direction = .ok spelled := by
  have hspelled : (tree.spellOut spelling).choices =
      some (texts.flatMap (wordsFor spelling)) := by
    rw [choices_spellOut, hchoices, Option.map_some]
  rw [texts_of_choices hchoices] at hwords
  rw [exists_assemble_iff_of_choices hchoices] at h
  rw [exists_assemble_iff_of_choices hspelled]
  intro word hword
  obtain ⟨text, htext, hword⟩ := List.mem_flatMap.1 hword
  exact hwords text htext (h text htext) word hword

theorem exists_assemble_spellOut {tree : Tree} :
    (∀ text ∈ tree.texts, table.isUnresolved text = false →
      ∀ word ∈ wordsFor spelling text, table.isUnresolved word = false) →
    (∃ assembly, tree.assemble table direction = .ok assembly) →
      ∃ spelled, (tree.spellOut spelling).assemble table direction = .ok spelled := by
  induction tree with
  | leaf content mark =>
      intro hwords h
      cases content with
      | literal text => exact exists_assemble_spellOut_of_choices rfl hwords h
      | wildcard | boundary | inputStart | inputEnd | epsilon => exact h
  | sequence children mark ih =>
      intro hwords h
      cases hmark : mark.negated with
      | true =>
          have hnegated : (Tree.sequence children mark).mark.negated = true := hmark
          obtain ⟨texts, hchoices, -⟩ := (exists_assemble_iff_of_negated hnegated).1 h
          exact exists_assemble_spellOut_of_choices hchoices hwords h
      | false =>
          rw [exists_assemble_sequence_iff hmark] at h
          rw [texts_sequence] at hwords
          rw [spellOut, exists_assemble_sequence_iff hmark, spellOutEach_eq_map,
            List.forall_mem_map]
          intro child hmem
          apply ih child hmem ?_ (h child hmem)
          intro text htext
          exact hwords text (List.mem_flatMap.2 ⟨child, hmem, htext⟩)
  | alternation children mark ih =>
      intro hwords h
      cases hmark : mark.negated with
      | true =>
          have hnegated : (Tree.alternation children mark).mark.negated = true := hmark
          obtain ⟨texts, hchoices, -⟩ := (exists_assemble_iff_of_negated hnegated).1 h
          exact exists_assemble_spellOut_of_choices hchoices hwords h
      | false =>
          rw [exists_assemble_alternation_iff hmark] at h
          rw [texts_alternation] at hwords
          rw [spellOut, exists_assemble_alternation_iff hmark, spellOutEach_eq_map,
            List.forall_mem_map]
          intro child hmem
          apply ih child hmem ?_ (h child hmem)
          intro text htext
          exact hwords text (List.mem_flatMap.2 ⟨child, hmem, htext⟩)

end Assembling

end Tree

/-! ## Comparing relations part by part -/

/--
A way to compare relations between indices that passes from the parts of an item to the item,
however the parts are put together.
-/
structure Compositional (below : (Nat → Nat → Prop) → (Nat → Nat → Prop) → Prop) : Prop where
  refl : ∀ relation, below relation relation
  either : ∀ {first second other otherSecond}, below first other →
    below second otherSecond →
      below (fun index stop => first index stop ∨ second index stop)
        fun index stop => other index stop ∨ otherSecond index stop
  comp : ∀ {first second other otherSecond}, below first other →
    below second otherSecond →
      below (fun index stop => ∃ middle, first index middle ∧ second middle stop)
        fun index stop => ∃ middle, other index middle ∧ otherSecond middle stop
  close : ∀ {relation other}, below relation other → ∀ quantifier : Quantifier,
    below (quantifier.close relation) (quantifier.close other)

theorem compositional_eq : Compositional Eq where
  refl _ := rfl
  either hfirst hsecond := by rw [hfirst, hsecond]
  comp hfirst hsecond := by rw [hfirst, hsecond]
  close h quantifier := by rw [h]

theorem compositional_le : Compositional (· ≤ ·) where
  refl _ := le_refl _
  either hfirst hsecond := fun index stop => Or.imp (hfirst index stop) (hsecond index stop)
  comp hfirst hsecond := by
    intro index stop h
    obtain ⟨middle, hbefore, hafter⟩ := h
    exact ⟨middle, hfirst index middle hbefore, hsecond middle stop hafter⟩
  close := by
    intro relation other h quantifier index stop
    cases quantifier with
    | once => exact h index stop
    | optional => exact Or.imp_left (h index stop)
    | zeroOrMore => exact Relation.ReflTransGen.mono h index stop
    | oneOrMore => exact Relation.TransGen.mono h index stop

/-! ## Matching with macros spelled out -/

section Matching

variable [DecidableEq α] {table : MacroTable α} {direction : Direction} {input : Array α}
  {spelling : List Char → Option (List (List Char))}

theorem excludes_flatMap_wordsFor {texts : List (List Char)}
    (hfaithful : ∀ text ∈ texts, table.Faithful direction spelling text) :
    Excludes table direction input (some (texts.flatMap (wordsFor spelling))) =
      Excludes table direction input (some texts) := by
  rw [excludes_eq_noneSeen, excludes_eq_noneSeen, List.flatMap_assoc, List.flatMap_congr hfaithful]

/-- The first reading that is seen is the first that is seen of the readings of one word. -/
theorem exists_word_of_literalMatches {text : List Char} {index stop : Nat}
    (hfaithful : table.Faithful direction spelling text)
    (h : LiteralMatches table direction input text index stop) :
    ∃ word ∈ wordsFor spelling text,
      LiteralMatches table direction input word index stop := by
  obtain ⟨tokens, hfind, hstop⟩ := literalMatches_iff.1 h
  rw [← hfaithful, List.find?_flatMap] at hfind
  obtain ⟨word, hword, hfirst⟩ := List.exists_of_findSome?_eq_some hfind
  exact ⟨word, hword, literalMatches_iff.2 ⟨tokens, hfirst, hstop⟩⟩

/-- If no reading begins another one, every reading that is seen is the first one. -/
theorem literalMatches_of_word {text word : List Char} {index stop : Nat}
    (hfaithful : table.Faithful direction spelling text)
    (hfree : PrefixFree (table.readings direction text)) (hword : word ∈ wordsFor spelling text)
    (h : LiteralMatches table direction input word index stop) :
    LiteralMatches table direction input text index stop := by
  obtain ⟨tokens, hfind, hstop⟩ := literalMatches_iff.1 h
  refine literalMatches_iff.2 ⟨tokens, hfree.find?_occursAt_iff.2 ⟨?_, ?_⟩, hstop⟩
  · rw [← hfaithful]
    exact List.mem_flatMap.2 ⟨word, hword, List.mem_of_find?_eq_some hfind⟩
  · exact List.find?_some hfind

namespace Tree

theorem matches_of_plain_choices {tree : Tree} {texts : List (List Char)}
    (hmark : tree.mark.negated = false) (hchoices : tree.choices = some texts) :
    tree.Matches table direction input = tree.mark.quantifier.close fun index stop =>
      ∃ text ∈ texts, LiteralMatches table direction input text index stop := by
  have hplain : (tree.withMark .plain).Matches table direction input = fun index stop =>
      ∃ text ∈ texts, LiteralMatches table direction input text index stop := by
    funext index stop
    exact propext (matches_of_choices hchoices)
  rw [← hplain]
  cases tree with
  | leaf content mark =>
      have hmark : mark.negated = false := hmark
      simp [Matches, withMark, Tree.mark, Mark.plain, Quantifier.close, hmark]
  | sequence children mark =>
      have hmark : mark.negated = false := hmark
      simp [Matches, withMark, Tree.mark, Mark.plain, Quantifier.close, hmark]
  | alternation children mark =>
      have hmark : mark.negated = false := hmark
      simp [Matches, withMark, Tree.mark, Mark.plain, Quantifier.close, hmark]

section Comparing

variable {below : (Nat → Nat → Prop) → (Nat → Nat → Prop) → Prop}

theorem inTurn_spellOutEach (hbelow : Compositional below) {children : List Tree}
    (h : ∀ child ∈ children, below (child.Matches table direction input)
      ((child.spellOut spelling).Matches table direction input)) :
    below (MatchesInTurn table direction input children)
      (MatchesInTurn table direction input (spellOutEach spelling children)) := by
  induction children with
  | nil => exact hbelow.refl _
  | cons child rest ih =>
      exact hbelow.comp (h child List.mem_cons_self)
        (ih fun other hmem => h other (List.mem_cons_of_mem _ hmem))

theorem any_spellOutEach (hbelow : Compositional below) {children : List Tree}
    (h : ∀ child ∈ children, below (child.Matches table direction input)
      ((child.spellOut spelling).Matches table direction input)) :
    below (MatchesAny table direction input children)
      (MatchesAny table direction input (spellOutEach spelling children)) := by
  induction children with
  | nil => exact hbelow.refl _
  | cons child rest ih =>
      exact hbelow.either (h child List.mem_cons_self)
        (ih fun other hmem => h other (List.mem_cons_of_mem _ hmem))

theorem literal_spellOut (hbelow : Compositional below) {text : List Char} {mark : Mark}
    (hmark : mark.negated = false)
    (h : below (LiteralMatches table direction input text) fun index stop =>
      ∃ word ∈ wordsFor spelling text,
        LiteralMatches table direction input word index stop) :
    below ((Tree.leaf (.literal text) mark).Matches table direction input)
      (((Tree.leaf (.literal text) mark).spellOut spelling).Matches table direction input) := by
  have hplain : ((Tree.leaf (.literal text) mark).spellOut spelling).mark.negated = false := by
    rwa [mark_spellOut]
  have hchoices : ((Tree.leaf (.literal text) mark).spellOut spelling).choices =
      some (wordsFor spelling text) := by
    rw [choices_spellOut, choices, Option.map_some, List.flatMap_singleton]
  rw [matches_of_plain_choices hplain hchoices, mark_spellOut, Matches, if_neg (by simp [hmark]),
    Leaf.matches_literal]
  exact hbelow.close h mark.quantifier

/-- Negated items match the same when their macros are spelled out. -/
theorem matches_spellOut_of_negated {tree : Tree} (hmark : tree.mark.negated = true)
    (hfaithful : ∀ text ∈ tree.texts, table.Faithful direction spelling text) :
    (tree.spellOut spelling).Matches table direction input =
      tree.Matches table direction input := by
  rw [matches_of_negated hmark, matches_of_negated (by rw [mark_spellOut, hmark]),
    mark_spellOut, choices_spellOut]
  cases hchoices : tree.choices with
  | none => rfl
  | some texts =>
      rw [texts_of_choices hchoices] at hfaithful
      rw [Option.map_some, excludes_flatMap_wordsFor hfaithful]

/--
However what a literal matches compares to what its words match, so does what a tree matches compare
to what it matches with its macros spelled out. Literals inside negated items need not compare.
-/
theorem matches_spellOut (hbelow : Compositional below) {tree : Tree} :
    (∀ text ∈ tree.texts, table.Faithful direction spelling text) →
    (∀ text, (false, text) ∈ tree.literals false →
      below (LiteralMatches table direction input text) fun index stop =>
        ∃ word ∈ wordsFor spelling text,
          LiteralMatches table direction input word index stop) →
    below (tree.Matches table direction input)
      ((tree.spellOut spelling).Matches table direction input) := by
  have hnegated : ∀ {tree : Tree}, tree.mark.negated = true →
      (∀ text ∈ tree.texts, table.Faithful direction spelling text) →
      below (tree.Matches table direction input)
        ((tree.spellOut spelling).Matches table direction input) := by
    intro tree hmark hfaithful
    rw [matches_spellOut_of_negated hmark hfaithful]
    exact hbelow.refl _
  induction tree with
  | leaf content mark =>
      intro hfaithful hliterals
      cases hmark : mark.negated with
      | true => exact hnegated hmark hfaithful
      | false =>
          cases content with
          | literal text =>
              exact literal_spellOut hbelow hmark (hliterals text (by simp [literals, hmark]))
          | wildcard | boundary | inputStart | inputEnd | epsilon => exact hbelow.refl _
  | sequence children mark ih =>
      intro hfaithful hliterals
      cases hmark : mark.negated with
      | true => exact hnegated hmark hfaithful
      | false =>
          rw [texts_sequence] at hfaithful
          rw [literals, hmark, literalsEach_eq_flatMap, Bool.or_false] at hliterals
          rw [spellOut, Matches, Matches, if_neg (by simp [hmark]), if_neg (by simp [hmark])]
          refine hbelow.close (inTurn_spellOutEach hbelow fun child hmem => ?_) _
          exact ih child hmem
            (fun text htext => hfaithful text (List.mem_flatMap.2 ⟨child, hmem, htext⟩))
            (fun text htext => hliterals text (List.mem_flatMap.2 ⟨child, hmem, htext⟩))
  | alternation children mark ih =>
      intro hfaithful hliterals
      cases hmark : mark.negated with
      | true => exact hnegated hmark hfaithful
      | false =>
          rw [texts_alternation] at hfaithful
          rw [literals, hmark, literalsEach_eq_flatMap, Bool.or_false] at hliterals
          rw [spellOut, Matches, Matches, if_neg (by simp [hmark]), if_neg (by simp [hmark])]
          refine hbelow.close (any_spellOutEach hbelow fun child hmem => ?_) _
          exact ih child hmem
            (fun text htext => hfaithful text (List.mem_flatMap.2 ⟨child, hmem, htext⟩))
            (fun text htext => hliterals text (List.mem_flatMap.2 ⟨child, hmem, htext⟩))

end Comparing

theorem matches_le_spellOut {tree : Tree}
    (hfaithful : ∀ text ∈ tree.texts, table.Faithful direction spelling text) :
    tree.Matches table direction input ≤
      (tree.spellOut spelling).Matches table direction input := by
  refine matches_spellOut compositional_le hfaithful fun text hliteral index stop h => ?_
  exact exists_word_of_literalMatches (hfaithful text (mem_texts hliteral)) h

/-- Where no reading of a literal begins another one, spelling out macros changes no match. -/
theorem matches_eq_spellOut {tree : Tree}
    (hfaithful : ∀ text ∈ tree.texts, table.Faithful direction spelling text)
    (hfree : ∀ text, (false, text) ∈ tree.literals false →
      PrefixFree (table.readings direction text)) :
    tree.Matches table direction input =
      (tree.spellOut spelling).Matches table direction input := by
  refine matches_spellOut compositional_eq hfaithful fun text hliteral => ?_
  have htext := hfaithful text (mem_texts hliteral)
  funext index stop
  refine propext ⟨exists_word_of_literalMatches htext, fun h => ?_⟩
  obtain ⟨word, hword, hmatch⟩ := h
  exact literalMatches_of_word htext (hfree text hliteral) hword hmatch

end Tree

end Matching

/-! ## Automata for trees that are spelled out -/

/-- Read in the direction, the others begin with the tokens. -/
def Direction.Begins (direction : Direction) (tokens others : List α) : Prop :=
  match direction with
  | .forward => tokens <+: others
  | .backward => tokens <:+ others

omit [Token α] in
theorem Direction.orientTokens_prefix_iff {direction : Direction} {tokens others : List α} :
    direction.orientTokens tokens <+: direction.orientTokens others ↔
      direction.Begins tokens others := by
  cases direction with
  | forward => exact Iff.rfl
  | backward => exact List.reverse_prefix

omit [Token α] in
theorem Direction.orientTokens_inj {direction : Direction} {tokens others : List α} :
    direction.orientTokens tokens = direction.orientTokens others ↔ tokens = others := by
  cases direction with
  | forward => exact Iff.rfl
  | backward => exact List.reverse_inj

/-- No reading begins another one, if no word begins another one in the direction of reading. -/
theorem MacroTable.Spells.prefixFree_readings {table : MacroTable α} {direction : Direction}
    {spelling : List Char → Option (List (List Char))} (h : table.Spells direction spelling)
    {text : List Char}
    (hfree : ∀ words, spelling text = some words → ∀ word ∈ words,
      ∀ other ∈ words,
        direction.Begins (Token.ofLiteral word : List α) (Token.ofLiteral other) →
          (Token.ofLiteral word : List α) = Token.ofLiteral other) :
    PrefixFree (table.readings direction text) := by
  unfold readings
  rw [h text]
  cases hwords : spelling text with
  | none => simp [PrefixFree]
  | some words =>
      simp only [PrefixFree, Option.map_some, Option.getD_some, List.forall_mem_map,
        Direction.orientTokens_prefix_iff, Direction.orientTokens_inj]
      exact hfree words hwords

namespace Automaton

variable [DecidableEq α]

/--
A tree that has an automaton, and so no macro without expansions, has one with its macros spelled
out too, if no expansion is the key of a macro itself. That one finds all that the other one does;
the two find the same if no expansion of a macro outside the negated items begins another one of the
same macro, in the direction of reading.
-/
theorem endsFrom_spellOut {declared : List (List Char × List (List Char))} {tree : Tree}
    {direction : Direction} {automaton : Automaton α}
    (h : ofTree tree (MacroTable.ofDeclarations declared) direction = .ok automaton)
    (hkeys : ∀ key words, key ∈ tree.texts → expansionTexts declared key = some words →
      ∀ word ∈ words,
        ¬ word ∈ (MacroTable.ofDeclarations declared : MacroTable α).keys) :
    ∃ spelled,
      ofTree (tree.spellOut (expansionTexts declared)) (MacroTable.ofDeclarations declared)
        direction = .ok spelled ∧
      (∀ input start stop, stop ∈ automaton.endsFrom input start →
        stop ∈ spelled.endsFrom input start) ∧
      ((∀ key words, (false, key) ∈ tree.literals false →
          expansionTexts declared key = some words → ∀ word ∈ words,
            ∀ other ∈ words,
              direction.Begins (Token.ofLiteral word : List α) (Token.ofLiteral other) →
                (Token.ofLiteral word : List α) = Token.ofLiteral other) →
        ∀ input start, automaton.endsFrom input start = spelled.endsFrom input start) := by
  have hspells : ((MacroTable.ofDeclarations declared : MacroTable α).orient direction).Spells
      direction (expansionTexts declared) :=
    MacroTable.spells_orient_ofDeclarations declared direction
  have hwords : ∀ text ∈ tree.texts, ∀ words,
      expansionTexts declared text = some words → ∀ word ∈ words,
        expansionTexts declared word = none := by
    intro text htext words hsome word hword
    exact MacroTable.expansionTexts_eq_none_of_notMem (hkeys text words htext hsome word hword)
  have hfaithful := fun text htext => hspells.faithful (hwords text htext)
  obtain ⟨assembly, hassembly, -⟩ := ofTree_eq_ok_iff.1 h
  obtain ⟨spelled, hspelled⟩ := Tree.exists_assemble_spellOut
    (fun text htext hresolved _ => hspells.isUnresolved_word (hwords text htext) hresolved)
    ⟨assembly, hassembly⟩
  have hbuilt := ofTree_eq_ok_iff.2 ⟨spelled, hspelled, rfl⟩
  refine ⟨_, hbuilt, fun input start stop hend => ?_, fun hfree input start => ?_⟩
  · rw [mem_endsFrom_iff h] at hend
    rw [mem_endsFrom_iff hbuilt]
    exact hend.imp_right (Tree.matches_le_spellOut hfaithful start stop)
  · apply IndexSet.ext
    intro stop
    rw [mem_endsFrom_iff h, mem_endsFrom_iff hbuilt, Tree.matches_eq_spellOut hfaithful
      fun text hliteral => hspells.prefixFree_readings fun words => hfree text words hliteral]

/--
A loop over a macro that is declared twice, after a negated macro with overlapping expansions, read
backward.
-/
theorem endsFrom_spellOut_of_macro_loop :
    let declared := [(['m'], [['x']]), (['n'], [['b'], ['a', 'b']]), (['m'], [['a', 'b'], ['a']])]
    let tree := Tree.sequence
      [.leaf (.literal ['n']) ⟨true, .optional⟩,
        .sequence [.leaf (.literal ['m']) .plain] ⟨false, .oneOrMore⟩] .plain
    let written := Tree.sequence
      [.alternation [.leaf (.literal ['b']) .plain, .leaf (.literal ['a', 'b']) .plain]
          ⟨true, .optional⟩,
        .sequence [.alternation [.leaf (.literal ['a', 'b']) .plain, .leaf (.literal ['a']) .plain]
          .plain] ⟨false, .oneOrMore⟩] .plain
    let table := (MacroTable.ofDeclarations declared : MacroTable Char)
    ∃ automaton spelled, ofTree tree table .backward = .ok automaton ∧
      ofTree written table .backward = .ok spelled ∧
        ∀ input start, automaton.endsFrom input start = spelled.endsFrom input start := by
  intro declared tree written table
  have hbuilt : ∃ automaton, ofTree tree table .backward = .ok automaton := ⟨_, rfl⟩
  obtain ⟨automaton, h⟩ := hbuilt
  have hkeys : ∀ key words, key ∈ tree.texts → expansionTexts declared key = some words →
      ∀ word ∈ words, ¬ word ∈ table.keys := by
    intro key words hmem hwords
    have hkey : key ∈ [['n'], ['m']] := hmem
    rcases List.mem_pair.1 hkey with rfl | rfl
    · cases hwords
      decide
    · cases hwords
      decide
  have hfree : ∀ key words, (false, key) ∈ tree.literals false →
      expansionTexts declared key = some words → ∀ word ∈ words,
        ∀ other ∈ words,
          Direction.backward.Begins (Token.ofLiteral word : List Char) (Token.ofLiteral other) →
            (Token.ofLiteral word : List Char) = Token.ofLiteral other := by
    intro key words hmem hwords
    have hkey : key = ['m'] := by
      simpa [tree, Tree.literals, Tree.literalsEach, Mark.plain] using hmem
    subst hkey
    cases hwords
    show ∀ word, word ∈ [['a', 'b'], ['a']] → ∀ other, other ∈ [['a', 'b'], ['a']] →
      word <:+ other → word = other
    decide
  obtain ⟨spelled, hspelled, -, hsame⟩ := endsFrom_spellOut h hkeys
  exact ⟨automaton, spelled, h, hspelled, hsame hfree⟩

end Automaton

end Motif
