import Motif.Proofs.Meaning

/-!
# What a literal stands for

The readings of a literal are the token sequences for which it stands: the expansions of the macro
of which it is the key, or else its own tokens alone. Which of them is seen at an index does not
depend on their order if none of them begins another one. A choice is seen through the literals
between which it chooses, whatever groups and alternations they are written in.
-/

namespace Motif

variable {α : Type} [Token α]

/-- The token sequences for which a literal stands. The table is oriented already. -/
def MacroTable.readings (table : MacroTable α) (direction : Direction) (text : List Char) :
    List (List α) :=
  (table.get? text).getD [direction.orientTokens (Token.ofLiteral text)]

namespace Tree

mutual

/--
The literals of a tree from left to right, each with whether it stands inside a negated item;
`inside` says so of the tree as a whole.
-/
def literals (inside : Bool) : Tree → List (Bool × List Char)
  | .leaf (.literal text) mark => [(inside || mark.negated, text)]
  | .leaf _ _ => []
  | .sequence children mark => literalsEach (inside || mark.negated) children
  | .alternation children mark => literalsEach (inside || mark.negated) children

def literalsEach (inside : Bool) : List Tree → List (Bool × List Char)
  | [] => []
  | child :: rest => literals inside child ++ literalsEach inside rest

end

theorem literalsEach_eq_flatMap (inside : Bool) (trees : List Tree) :
    literalsEach inside trees = trees.flatMap (literals inside) := by
  induction trees with
  | nil => simp [literalsEach]
  | cons child rest ih => simp [literalsEach, ih]

/--
What passes from a literal to every choice holds of all of them: a choice is a literal, a group of
one plain choice, or an alternation of plain choices, of which each brings its own literals.
-/
theorem choices_induction {motive : Tree → List (List Char) → Prop}
    (literal : ∀ text mark, motive (.leaf (.literal text) mark) [text])
    (group : ∀ child texts mark, child.mark = .plain → motive child texts →
      motive (.sequence [child] mark) texts)
    (alternation : ∀ children parts mark,
      List.Forall₂ (fun child texts => child.mark = .plain ∧ motive child texts) children parts →
        motive (.alternation children mark) parts.flatten)
    {tree : Tree} :
    ∀ {texts : List (List Char)}, tree.choices = some texts → motive tree texts := by
  induction tree with
  | leaf content mark =>
      intro texts h
      cases content with
      | literal text =>
          cases h
          exact literal text mark
      | wildcard | boundary | inputStart | inputEnd | epsilon => cases h
  | sequence children mark ih =>
      intro texts h
      rcases children with _ | ⟨child, _ | ⟨next, rest⟩⟩
      · cases h
      · rw [choices] at h
        split at h
        · rename_i hmark
          exact group child texts mark hmark (ih child List.mem_cons_self h)
        · cases h
      · cases h
  | alternation children mark ih =>
      have heach : ∀ {texts : List (List Char)}, choicesAll children = some texts →
          ∃ parts, texts = parts.flatten ∧ List.Forall₂
            (fun child texts => child.mark = .plain ∧ motive child texts) children parts := by
        induction children with
        | nil =>
            intro texts h
            cases h
            exact ⟨[], rfl, List.Forall₂.nil⟩
        | cons child rest ihrest =>
            intro texts h
            rw [choicesAll] at h
            split at h
            · rename_i hmark
              split at h
              · rename_i own others hown hothers
                cases h
                have hchild := ih child List.mem_cons_self hown
                obtain ⟨parts, rfl, hparts⟩ := ihrest
                  (fun other hmem => ih other (List.mem_cons_of_mem _ hmem)) hothers
                exact ⟨own :: parts, rfl, List.Forall₂.cons ⟨hmark, hchild⟩ hparts⟩
              · cases h
            · cases h
      intro texts h
      obtain ⟨parts, rfl, hparts⟩ := heach h
      exact alternation children parts mark hparts

theorem literals_of_choices {tree : Tree} {texts : List (List Char)}
    (h : tree.choices = some texts) :
    tree.literals true = texts.map fun text => (true, text) := by
  refine choices_induction (motive := fun tree texts =>
    tree.literals true = texts.map fun text => (true, text)) ?_ ?_ ?_ h
  · intro text mark
    rfl
  · intro child texts mark _ hchild
    simp only [literals, literalsEach, Bool.true_or, hchild, List.append_nil]
  · intro children parts mark hparts
    rw [literals, Bool.true_or]
    induction hparts with
    | nil => rfl
    | cons hchild _ ih => rw [literalsEach, hchild.2, ih, List.flatten_cons, List.map_append]

end Tree

/-! ## Sequences of which none begins another one -/

/-- No sequence begins another one. -/
def PrefixFree (words : List (List α)) : Prop :=
  ∀ word ∈ words, ∀ other ∈ words, word <+: other → word = other

instance [DecidableEq α] (words : List (List α)) : Decidable (PrefixFree words) :=
  inferInstanceAs (Decidable (∀ word ∈ words, _))

omit [Token α] in
/-- If no sequence begins another one, the one that is seen does not depend on their order. -/
theorem PrefixFree.find?_occursAt_iff [DecidableEq α] {words : List (List α)}
    (h : PrefixFree words) {input : Array α} {index : Nat} {word : List α} :
    words.find? (Token.occursAt input index) = some word ↔
      word ∈ words ∧ Token.occursAt input index word = true := by
  constructor
  · intro hfind
    exact ⟨List.mem_of_find?_eq_some hfind, List.find?_some hfind⟩
  · intro hfound
    rcases hfound with ⟨hmem, hseen⟩
    have hsome := List.find?_isSome.2 ⟨word, hmem, hseen⟩
    obtain ⟨first, hfirst⟩ := Option.isSome_iff_exists.1 hsome
    have hfirstMem := List.mem_of_find?_eq_some hfirst
    have hbegins := (Token.occursAt_iff.1 hseen).2
    have hfirstBegins := (Token.occursAt_iff.1 (List.find?_some hfirst)).2
    -- Of two sequences that the input has at one index the shorter one begins the longer one.
    have heq : first = word := by
      rcases List.prefix_or_prefix_of_prefix hbegins hfirstBegins with hle | hle
      · exact (h word hmem first hfirstMem hle).symm
      · exact h first hfirstMem word hmem hle
    rwa [heq] at hfirst

omit [Token α] in
/-- No weaker condition makes every sequence that is seen the first one, in every input. -/
theorem forall_find?_occursAt_iff_prefixFree [DecidableEq α] {words : List (List α)} :
    (∀ (input : Array α) (index : Nat) (word : List α),
      words.find? (Token.occursAt input index) = some word ↔
        word ∈ words ∧ Token.occursAt input index word = true) ↔ PrefixFree words := by
  refine ⟨fun h word hword other hother hbegins => ?_, fun h _ _ _ => h.find?_occursAt_iff⟩
  -- In the longer sequence itself both are seen, and only one of them is the first.
  have hseen : ∀ {tokens : List α}, tokens <+: other →
      Token.occursAt other.toArray 0 tokens = true := by
    intro tokens hle
    exact Token.occursAt_iff.2 ⟨Nat.zero_le _, hle⟩
  have hfirst := (h other.toArray 0 word).2 ⟨hword, hseen hbegins⟩
  have hlonger := (h other.toArray 0 other).2 ⟨hother, hseen (List.prefix_refl other)⟩
  exact Option.some.inj (hfirst.symm.trans hlonger)

/-! ## Readings that are seen -/

section Readings

variable {table : MacroTable α} {direction : Direction} {text : List Char}

theorem literalAtom_eq_ok_iff {atom : Atom α} :
    literalAtom table direction text = .ok atom ↔
      (∃ id, table.id? text = some id ∧ table.expansions id ≠ [] ∧ atom = .macroRef id) ∨
        table.id? text = none ∧
          atom = .literal (direction.orientTokens (Token.ofLiteral text)) := by
  unfold literalAtom
  cases hid : table.id? text with
  | none => simp [@eq_comm _ atom]
  | some id => cases hexpansions : table.expansions id <;> simp [hexpansions, @eq_comm _ atom]

variable [DecidableEq α] {input : Array α} {index stop : Nat}

theorem Atom.pass?_macroRef_iff {id : Nat} :
    (Atom.macroRef id).pass? table input index = some stop ↔
      ∃ tokens, (table.expansions id).find? (Token.occursAt input index) = some tokens ∧
        stop = index + tokens.length := by
  rw [Atom.pass?]
  split
  · rename_i tokens hfind
    simp [hfind, @eq_comm _ stop]
  · rename_i hfind
    simp [hfind]

/-- A literal is seen as the first of its readings that the input has at the index. -/
theorem literalMatches_iff :
    LiteralMatches table direction input text index stop ↔
      ∃ tokens,
        (table.readings direction text).find? (Token.occursAt input index) = some tokens ∧
          stop = index + tokens.length := by
  unfold LiteralMatches MacroTable.readings MacroTable.get?
  simp only [literalAtom_eq_ok_iff]
  cases hid : table.id? text with
  | none =>
      simp only [reduceCtorEq, false_and, exists_false, false_or, true_and, exists_eq_left,
        Atom.pass?, Option.map_none, Option.getD_none, List.find?_singleton,
        Option.ite_none_right_eq_some, Option.some.injEq]
      constructor
      · intro h
        rcases h with ⟨hseen, rfl⟩
        exact ⟨_, ⟨hseen, rfl⟩, rfl⟩
      · intro h
        rcases h with ⟨tokens, ⟨hseen, rfl⟩, rfl⟩
        exact ⟨hseen, rfl⟩
  | some id =>
      simp only [Option.some.injEq, exists_eq_left', reduceCtorEq, false_and, or_false,
        Option.map_some, Option.getD_some]
      constructor
      · intro h
        rcases h with ⟨atom, ⟨-, rfl⟩, hpass⟩
        exact Atom.pass?_macroRef_iff.1 hpass
      · intro h
        rcases h with ⟨tokens, hfind, rfl⟩
        refine ⟨.macroRef id, ⟨?_, rfl⟩, Atom.pass?_macroRef_iff.2 ⟨tokens, hfind, rfl⟩⟩
        intro hnil
        rw [hnil] at hfind
        cases hfind

theorem Leaf.matches_literal :
    (Leaf.literal text).Matches table direction input =
      LiteralMatches table direction input text := by
  funext index stop
  refine propext ?_
  unfold Leaf.Matches Leaf.label LiteralMatches
  simp only [bind_eq_ok_iff]
  constructor
  · intro h
    rcases h with ⟨label, ⟨atom, hatom, hlabel⟩, hpass⟩
    cases hlabel
    exact ⟨atom, hatom, hpass⟩
  · intro h
    rcases h with ⟨atom, hatom, hpass⟩
    exact ⟨.take atom, ⟨atom, hatom, rfl⟩, hpass⟩

theorem Leaf.matches_of_label {content : Leaf} (label : Label α)
    (h : content.label table direction = .ok label) :
    content.Matches table direction input =
      fun index stop => label.pass? table input index = some stop := by
  funext index stop
  simp [Leaf.Matches, h]

/-- A literal is seen at an index exactly when the input has one of its readings there. -/
theorem exists_literalMatches_iff :
    (∃ stop, LiteralMatches table direction input text index stop) ↔
      ∃ tokens ∈ table.readings direction text,
        Token.occursAt input index tokens = true := by
  simp only [literalMatches_iff]
  constructor
  · intro h
    rcases h with ⟨stop, tokens, hfind, -⟩
    exact ⟨tokens, List.mem_of_find?_eq_some hfind, List.find?_some hfind⟩
  · intro h
    rcases h with ⟨tokens, hmem, hseen⟩
    have hsome := List.find?_isSome.2 ⟨tokens, hmem, hseen⟩
    obtain ⟨first, hfirst⟩ := Option.isSome_iff_exists.1 hsome
    exact ⟨index + first.length, first, hfirst, rfl⟩

end Readings

end Motif
