import Mathlib.Data.List.Permutation
import Motif.Proofs.Items
import Motif.Proofs.Reading

/-!
# When building fails

A pattern that is read has an automaton unless one of its literals is the key of a macro without
expansions; the first such literal is the one that is reported. The other causes for which a tree
may have no machine do not occur in a tree that is read.
-/

namespace Motif

variable {α : Type}

/-- Whether a text is the key of a macro without expansions. -/
def MacroTable.isUnresolved (table : MacroTable α) (text : List Char) : Bool :=
  (table.get? text).any List.isEmpty

@[simp] theorem MacroTable.isUnresolved_orient (table : MacroTable α) (direction : Direction) :
    (table.orient direction).isUnresolved = table.isUnresolved := by
  funext text
  cases direction with
  | forward => rfl
  | backward =>
      unfold isUnresolved get? MacroTable.orient
      cases hid : table.id? text <;> simp [hid]

/-! ## The first fault -/

/--
A computation fails at the key, if there is one, as at an unresolved macro, and has a value
otherwise.
-/
def FailsAt {β : Type} (first : Option (List Char)) (outcome : Except AssemblyFault β) : Prop :=
  match first with
  | some key => outcome = .error (.unresolvedMacro key)
  | none => ∃ value, outcome = .ok value

namespace FailsAt

variable {β γ : Type} {first second : Option (List Char)} {outcome : Except AssemblyFault β}

theorem bind {next : β → Except AssemblyFault γ} (h : FailsAt first outcome)
    (hnext : ∀ value, outcome = .ok value → FailsAt second (next value)) :
    FailsAt (first.or second) (outcome >>= next) := by
  cases first with
  | some key =>
      have herror : outcome = .error (.unresolvedMacro key) := h
      rw [herror]
      rfl
  | none =>
      obtain ⟨value, hvalue⟩ := h
      have hown := hnext value hvalue
      rw [hvalue]
      exact hown

theorem bind_ok (h : FailsAt first outcome) (make : β → γ) :
    FailsAt first (outcome >>= fun value => .ok (make value)) := by
  have hboth : FailsAt (first.or none) (outcome >>= fun value => .ok (make value)) :=
    h.bind fun value _ => ⟨make value, rfl⟩
  rwa [Option.or_none] at hboth

theorem exists_eq_ok_iff (h : FailsAt first outcome) :
    (∃ value, outcome = .ok value) ↔ first = none := by
  cases first with
  | some key =>
      have herror : outcome = .error (.unresolvedMacro key) := h
      simp [herror]
  | none => exact iff_of_true h rfl

theorem alike {outcome' : Except AssemblyFault γ} (h : FailsAt first outcome)
    (h' : FailsAt first outcome') :
    (∃ fault, outcome = .error fault ∧ outcome' = .error fault) ∨
      ∃ value value', outcome = .ok value ∧ outcome' = .ok value' := by
  cases first with
  | some key => exact Or.inl ⟨_, h, h'⟩
  | none =>
      obtain ⟨value, hvalue⟩ := h
      obtain ⟨value', hvalue'⟩ := h'
      exact Or.inr ⟨value, value', hvalue, hvalue'⟩

end FailsAt

namespace Tree

/-- The literals of a tree from left to right, inside negated items or not. -/
def texts (tree : Tree) : List (List Char) :=
  (tree.literals false).map Prod.snd

theorem mem_texts {tree : Tree} {inside : Bool} {text : List Char}
    (h : (inside, text) ∈ tree.literals false) : text ∈ tree.texts :=
  List.mem_map.2 ⟨_, h, rfl⟩

theorem map_snd_literals {tree : Tree} :
    ∀ {inside : Bool}, (tree.literals inside).map Prod.snd = tree.texts := by
  have heach : ∀ {children : List Tree} {inside inside' : Bool},
      (∀ child ∈ children, ∀ {inside : Bool},
        (child.literals inside).map Prod.snd = child.texts) →
      (literalsEach inside children).map Prod.snd =
        (literalsEach inside' children).map Prod.snd := by
    intro children inside inside' ih
    rw [literalsEach_eq_flatMap, literalsEach_eq_flatMap, List.map_flatMap, List.map_flatMap]
    exact List.flatMap_congr fun child hmem => (ih child hmem).trans (ih child hmem).symm
  induction tree with
  | leaf content mark =>
      intro inside
      cases content <;> rfl
  | sequence children mark ih => exact heach ih
  | alternation children mark ih => exact heach ih

theorem texts_sequence (children : List Tree) (mark : Mark) :
    (Tree.sequence children mark).texts = children.flatMap texts := by
  rw [texts, literals, literalsEach_eq_flatMap, List.map_flatMap]
  exact List.flatMap_congr fun _ _ => map_snd_literals

theorem texts_alternation (children : List Tree) (mark : Mark) :
    (Tree.alternation children mark).texts = children.flatMap texts := by
  rw [texts, literals, literalsEach_eq_flatMap, List.map_flatMap]
  exact List.flatMap_congr fun _ _ => map_snd_literals

theorem texts_of_choices {tree : Tree} {texts : List (List Char)} (h : tree.choices = some texts) :
    tree.texts = texts := by
  rw [← map_snd_literals, literals_of_choices h, List.map_map]
  exact List.map_id texts

/-- What is negated is a choice of literals. -/
def Guarded (item : Tree) : Prop :=
  item.mark.negated = true → item.choices ≠ none

theorem kept_guarded : Kept Guarded where
  leaf content _ hnegated := by cases hnegated
  group item hmark _ hnegated := by
    rw [hmark] at hnegated
    cases hnegated
  negate item hchoices _ _ := by rwa [negate, choices_withMark]
  quantify item quantifier _ hitem := by
    unfold Guarded
    rwa [quantify, mark_withMark, choices_withMark]

/-- In a tree that is read, all that is negated is a choice of literals. -/
theorem guarded_of_parse {vocabulary : Vocabulary} {direction : Direction} {text : List Char}
    {tree : Tree} (h : parse vocabulary direction text = .ok tree) : tree.All Guarded :=
  kept_guarded.of_parse (fun item => by simp [Guarded]) (fun item => by simp [Guarded]) h

end Tree

/-! ## Assembling a tree that is read -/

section Assembling

variable [Token α] {table : MacroTable α} {direction : Direction}

theorem failsAt_literalAtom (text : List Char) :
    FailsAt ([text].find? table.isUnresolved) (literalAtom table direction text) := by
  unfold literalAtom
  cases hid : table.id? text with
  | none => simp [MacroTable.isUnresolved, MacroTable.get?, hid, FailsAt]
  | some id =>
      cases hexpansions : table.expansions id <;>
        simp [MacroTable.isUnresolved, MacroTable.get?, hid, hexpansions, FailsAt]

theorem failsAt_literalAtoms (texts : List (List Char)) :
    FailsAt (texts.find? table.isUnresolved) (literalAtoms table direction texts) := by
  induction texts with
  | nil => exact ⟨[], rfl⟩
  | cons text rest ih =>
      rw [← List.singleton_append, List.find?_append, List.singleton_append, literalAtoms]
      exact (failsAt_literalAtom text).bind fun atom _ => ih.bind_ok (atom :: ·)

theorem failsAt_exclusionLabel {choices : Option (List (List Char))} {texts : List (List Char)}
    (h : choices = some texts) :
    FailsAt (texts.find? table.isUnresolved) (exclusionLabel table direction choices) := by
  rw [h]
  exact (failsAt_literalAtoms texts).bind_ok Label.exclude

theorem Leaf.failsAt_label {content : Leaf} (mark : Mark) (h : content ≠ .boundary) :
    FailsAt ((Tree.leaf content mark).texts.find? table.isUnresolved)
      (content.label table direction) := by
  cases content with
  | literal text => exact (failsAt_literalAtom text).bind_ok Label.take
  | boundary => exact absurd rfl h
  | wildcard | inputStart | inputEnd | epsilon => exact ⟨_, rfl⟩

namespace Tree

theorem failsAt_assembleEach {children : List Tree}
    (h : ∀ child ∈ children,
      FailsAt (child.texts.find? table.isUnresolved) (child.assemble table direction)) :
    FailsAt ((children.flatMap texts).find? table.isUnresolved)
      (assembleEach table direction children) := by
  induction children with
  | nil => exact ⟨[], rfl⟩
  | cons child rest ih =>
      rw [List.forall_mem_cons] at h
      rw [List.flatMap_cons, List.find?_append, assembleEach]
      exact h.1.bind fun part _ => (ih h.2).bind_ok (part.record child.isLeaf :: ·)

/-- A tree that may be read is assembled unless one of its literals is an unresolved macro. -/
theorem failsAt_assemble {tree : Tree} :
    tree.All Guarded → tree.hasBoundary = false →
      FailsAt (tree.texts.find? table.isUnresolved) (tree.assemble table direction) := by
  -- A negated item is left to its choices, which are its literals in the order of the tree.
  have hnegated : ∀ {tree : Tree}, tree.All Guarded → tree.mark.negated = true →
      FailsAt (tree.texts.find? table.isUnresolved)
        (exclusionLabel table direction tree.choices) := by
    intro tree hguarded hmark
    obtain ⟨texts, hchoices⟩ := Option.ne_none_iff_exists'.1 ((all_iff.1 hguarded).1 hmark)
    rw [texts_of_choices hchoices]
    exact failsAt_exclusionLabel hchoices
  have heach : ∀ {children : List Tree},
      (∀ child ∈ children, child.All Guarded → child.hasBoundary = false →
        FailsAt (child.texts.find? table.isUnresolved) (child.assemble table direction)) →
      (∀ child ∈ children, child.All Guarded) → anyHasBoundary children = false →
        FailsAt ((children.flatMap texts).find? table.isUnresolved)
          (assembleEach table direction children) := by
    intro children ih hguarded hresolved
    rw [anyHasBoundary_eq_any, List.any_eq_false] at hresolved
    apply failsAt_assembleEach
    intro child hmem
    exact ih child hmem (hguarded child hmem) (Bool.eq_false_iff.2 (hresolved child hmem))
  induction tree with
  | leaf content mark =>
      intro hguarded hresolved
      rw [assemble]
      by_cases hmark : mark.negated = true
      · rw [if_pos hmark]
        exact (hnegated hguarded hmark).bind_ok _
      · rw [if_neg hmark]
        have hcontent : content ≠ .boundary := by simpa [hasBoundary] using hresolved
        exact (Leaf.failsAt_label mark hcontent).bind_ok _
  | sequence children mark ih =>
      intro hguarded hresolved
      rw [assemble]
      by_cases hmark : mark.negated = true
      · rw [if_pos hmark]
        exact (hnegated hguarded hmark).bind_ok _
      · rw [if_neg hmark, texts_sequence]
        exact (heach ih (all_iff.1 hguarded).2 hresolved).bind_ok _
  | alternation children mark ih =>
      intro hguarded hresolved
      rw [assemble]
      by_cases hmark : mark.negated = true
      · rw [if_pos hmark]
        exact (hnegated hguarded hmark).bind_ok _
      · rw [if_neg hmark, texts_alternation]
        exact (heach ih (all_iff.1 hguarded).2 hresolved).bind_ok _

end Tree

namespace Automaton

theorem failsAt_ofTree_of_guarded {tree : Tree} (hguarded : tree.All Tree.Guarded)
    (hresolved : tree.hasBoundary = false) :
    FailsAt (tree.texts.find? table.isUnresolved) (ofTree tree table direction) := by
  have hassemble : FailsAt (tree.texts.find? (table.orient direction).isUnresolved)
      (tree.assemble (table.orient direction) direction) :=
    Tree.failsAt_assemble hguarded hresolved
  rw [MacroTable.isUnresolved_orient] at hassemble
  exact hassemble.bind_ok _

/-- A tree that is read has an automaton unless one of its literals is an unresolved macro. -/
theorem failsAt_ofTree {vocabulary : Vocabulary} {text : List Char} {tree : Tree}
    (h : Tree.parse vocabulary direction text = .ok tree) :
    FailsAt (tree.texts.find? table.isUnresolved) (ofTree tree table direction) :=
  failsAt_ofTree_of_guarded (Tree.guarded_of_parse h) (Tree.resolved_of_parse h)

/--
Building fails on a pattern exactly when reading it does, or else when one of the literals of its
tree is the key of a macro without expansions, and then at the first of them from left to right. A
pattern has an automaton in all other cases: neither a boundary nor a negated item keeps a tree that
is read from being assembled.
-/
theorem ofPattern_faults (pattern : List Char) (direction : Direction)
    (symbols : List (List Char)) (table : MacroTable α) :
    (∀ fault, ofPattern pattern direction symbols table = .error (.pattern fault) ↔
      Tree.parse (Vocabulary.ofList (symbols ++ table.keys)) direction pattern = .error fault) ∧
    (∀ tree,
      Tree.parse (Vocabulary.ofList (symbols ++ table.keys)) direction pattern = .ok tree →
        (∀ key,
          ofPattern pattern direction symbols table = .error (.assembly (.unresolvedMacro key)) ↔
            tree.texts.find? table.isUnresolved = some key) ∧
        (tree.texts.find? table.isUnresolved = none →
          ∃ automaton, ofPattern pattern direction symbols table = .ok automaton)) ∧
    ofPattern pattern direction symbols table ≠ .error (.assembly .misplacedBoundary) ∧
    ofPattern pattern direction symbols table ≠ .error (.assembly .negatedCompound) := by
  unfold ofPattern
  cases hparse : Tree.parse (Vocabulary.ofList (symbols ++ table.keys)) direction pattern with
  | error fault => simp
  | ok tree =>
      have hfails : FailsAt (tree.texts.find? table.isUnresolved) (ofTree tree table direction) :=
        failsAt_ofTree hparse
      cases hfirst : tree.texts.find? table.isUnresolved with
      | some key =>
          rw [hfirst] at hfails
          have herror : ofTree tree table direction = .error (.unresolvedMacro key) := hfails
          simp only [herror]
          refine ⟨by simp, ?_, by simp, by simp⟩
          intro other heq
          cases heq
          rw [hfirst]
          exact ⟨fun other => by simp, fun hnone => by cases hnone⟩
      | none =>
          rw [hfirst] at hfails
          obtain ⟨automaton, hautomaton⟩ := hfails
          simp only [hautomaton]
          refine ⟨by simp, ?_, by simp, by simp⟩
          intro other heq
          cases heq
          rw [hfirst]
          exact ⟨fun other => by simp, fun _ => ⟨automaton, rfl⟩⟩

/--
Read backward, a pattern fails at the macro that stands last in its text, inside a negated group,
and has an automaton once its macros have expansions.
-/
theorem ofPattern_fails_at_last :
    let pattern := ['m', '!', '{', 'x', ' ', 'n', '}', '+']
    let unresolved := ((∅ : MacroTable Char).insert ['m'] []).insert ['n'] []
    let resolved := ((∅ : MacroTable Char).insert ['m'] [['a']]).insert ['n'] [['b'], ['c']]
    ofPattern pattern .backward [] unresolved = .error (.assembly (.unresolvedMacro ['n'])) ∧
      ∃ automaton, ofPattern pattern .backward [] resolved = .ok automaton := by
  intro pattern unresolved resolved
  have hvocabulary : Vocabulary.ofList ([] ++ unresolved.keys) =
      ⟨[['m'], ['n']], by decide, by decide, by decide⟩ := rfl
  have hparse : Tree.parse (Vocabulary.ofList ([] ++ unresolved.keys)) .backward pattern =
      .ok (.sequence [.alternation [.leaf (.literal ['x']) .plain,
        .leaf (.literal ['n']) .plain] ⟨true, .oneOrMore⟩, .leaf (.literal ['m']) .plain]
          .plain) := by
    rw [hvocabulary]
    cbv
  exact ⟨(((ofPattern_faults pattern .backward [] unresolved).2.1 _ hparse).1 ['n']).2 (by decide),
    ((ofPattern_faults pattern .backward [] resolved).2.1 _ hparse).2 (by decide)⟩

end Automaton

end Assembling

end Motif
