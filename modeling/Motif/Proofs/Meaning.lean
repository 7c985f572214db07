import Motif.Automaton
import Motif.Proofs.Construction
import Motif.Proofs.Search

/-!
# What a pattern matches

The meaning of a tree is a relation between indices of the input, defined on the tree alone. The
machine for the tree runs from one index to another exactly when the tree matches between them, and
a search from inside the input finds all those ends and no others.
-/

namespace Motif

variable {α : Type} [Token α]

section Definitions

variable [DecidableEq α] (table : MacroTable α) (direction : Direction) (input : Array α)

/-- A literal text or macro key is seen from one index up to another. -/
def LiteralMatches (text : List Char) (index stop : Nat) : Prop :=
  ∃ atom, literalAtom table direction text = .ok atom ∧
    atom.pass? table input index = some stop

/-- A leaf matches as its label is passed. -/
def Leaf.Matches (content : Leaf) (index stop : Nat) : Prop :=
  ∃ label, content.label table direction = .ok label ∧
    label.pass? table input index = some stop

/--
One token inside the input that is no boundary marker and at which none of the literals is seen.
-/
def Excludes (choices : Option (List (List Char))) (index stop : Nat) : Prop :=
  stop = index + 1 ∧ index < input.size ∧ Token.hasBoundaryAt input index = false ∧
    ∃ texts, choices = some texts ∧
      ∀ text ∈ texts, ∀ next,
        ¬ LiteralMatches table direction input text index next

namespace Tree

mutual

/--
A tree matches between two indices: what stands at it, or the exclusion of its choices if it is
negated, as often as its quantifier allows. The table is oriented already.
-/
def Matches : Tree → Nat → Nat → Prop
  | .leaf content mark =>
      mark.quantifier.close <|
        if mark.negated then
          Excludes table direction input (Tree.leaf content mark).choices
        else
          content.Matches table direction input
  | .sequence children mark =>
      mark.quantifier.close <|
        if mark.negated then
          Excludes table direction input (Tree.sequence children mark).choices
        else
          MatchesInTurn children
  | .alternation children mark =>
      mark.quantifier.close <|
        if mark.negated then
          Excludes table direction input (Tree.alternation children mark).choices
        else
          MatchesAny children

/-- The trees match one after another, from left to right. -/
def MatchesInTurn : List Tree → Nat → Nat → Prop
  | [] => fun index stop => stop = index
  | child :: rest => fun index stop =>
      ∃ middle, Matches child index middle ∧ MatchesInTurn rest middle stop

def MatchesAny : List Tree → Nat → Nat → Prop
  | [] => fun _ _ => False
  | child :: rest => fun index stop => Matches child index stop ∨ MatchesAny rest index stop

end

end Tree

end Definitions

/-! ## Assembling item by item -/

omit [Token α] in
@[simp] theorem Assembly.machine_record (isLeaf : Bool) (part : Assembly α) :
    (part.record isLeaf).machine = part.machine := by
  cases isLeaf <;> rfl

variable {table : MacroTable α} {direction : Direction}

namespace Tree

/-- The assemblies of the children are those of each child, recorded as a group if it is one. -/
theorem forall₂_of_assembleEach {children : List Tree} :
    ∀ {parts : List (Assembly α)}, assembleEach table direction children = .ok parts →
      List.Forall₂ (fun child part => ∃ own, assemble table direction child = .ok own ∧
        part = own.record child.isLeaf) children parts := by
  induction children with
  | nil =>
      intro parts h
      cases h
      exact List.Forall₂.nil
  | cons child rest ih =>
      intro parts h
      rw [assembleEach, bind_eq_ok_iff] at h
      obtain ⟨own, hown, hrest⟩ := h
      obtain ⟨others, hothers, heq⟩ := bind_eq_ok_iff.1 hrest
      cases heq
      exact List.Forall₂.cons ⟨own, hown, rfl⟩ (ih hothers)

/--
What holds of the assembly of every leaf and every negated item, and passes from the children of any
other item to the item, holds of all that is assembled.
-/
theorem assemble_induction {motive : Tree → Assembly α → Prop}
    (negated : ∀ tree label, tree.mark.negated = true →
      exclusionLabel table direction tree.choices = .ok label →
        motive tree (Assembly.ofLabel tree.mark.quantifier label))
    (leaf : ∀ content mark label, mark.negated = false →
      content.label table direction = .ok label →
        motive (.leaf content mark) (Assembly.ofLabel mark.quantifier label))
    (sequence : ∀ children mark parts, mark.negated = false →
      List.Forall₂ (fun child part => ∃ own, assemble table direction child = .ok own ∧
        motive child own ∧ part = own.record child.isLeaf) children parts →
        motive (.sequence children mark) (Assembly.inSequence mark.quantifier parts))
    (alternation : ∀ children mark parts, mark.negated = false →
      List.Forall₂ (fun child part => ∃ own, assemble table direction child = .ok own ∧
        motive child own ∧ part = own.record child.isLeaf) children parts →
        motive (.alternation children mark) (Assembly.oneOf mark.quantifier parts))
    {tree : Tree} :
    ∀ {assembly : Assembly α}, tree.assemble table direction = .ok assembly →
      motive tree assembly := by
  have hparts : ∀ {children : List Tree} {parts : List (Assembly α)},
      (∀ child ∈ children, ∀ {assembly : Assembly α},
        child.assemble table direction = .ok assembly → motive child assembly) →
      assembleEach table direction children = .ok parts →
        List.Forall₂ (fun child part => ∃ own, assemble table direction child = .ok own ∧
          motive child own ∧ part = own.record child.isLeaf) children parts := by
    intro children parts ih h
    have hboth := (List.forall₂_and_left _ _).2 ⟨ih, forall₂_of_assembleEach h⟩
    refine hboth.imp ?_
    intro child part hboth
    rcases hboth with ⟨hmotive, own, hown, heq⟩
    exact ⟨own, hown, hmotive hown, heq⟩
  induction tree with
  | leaf content mark =>
      intro assembly h
      rw [assemble] at h
      split at h
      · rename_i hmark
        obtain ⟨label, hlabel, heq⟩ := bind_eq_ok_iff.1 h
        cases heq
        exact negated (.leaf content mark) label hmark hlabel
      · rename_i hmark
        obtain ⟨label, hlabel, heq⟩ := bind_eq_ok_iff.1 h
        cases heq
        exact leaf content mark label (Bool.eq_false_iff.2 hmark) hlabel
  | sequence children mark ih =>
      intro assembly h
      rw [assemble] at h
      split at h
      · rename_i hmark
        obtain ⟨label, hlabel, heq⟩ := bind_eq_ok_iff.1 h
        cases heq
        exact negated (.sequence children mark) label hmark hlabel
      · rename_i hmark
        obtain ⟨parts, heach, heq⟩ := bind_eq_ok_iff.1 h
        cases heq
        exact sequence children mark parts (Bool.eq_false_iff.2 hmark) (hparts ih heach)
  | alternation children mark ih =>
      intro assembly h
      rw [assemble] at h
      split at h
      · rename_i hmark
        obtain ⟨label, hlabel, heq⟩ := bind_eq_ok_iff.1 h
        cases heq
        exact negated (.alternation children mark) label hmark hlabel
      · rename_i hmark
        obtain ⟨parts, heach, heq⟩ := bind_eq_ok_iff.1 h
        cases heq
        exact alternation children mark parts (Bool.eq_false_iff.2 hmark) (hparts ih heach)

theorem forall_machine_of_parts {motive : Tree → Assembly α → Prop}
    {property : Machine α → Prop} {children : List Tree} {parts : List (Assembly α)}
    (h : List.Forall₂ (fun child part => ∃ own, assemble table direction child = .ok own ∧
      motive child own ∧ part = own.record child.isLeaf) children parts)
    (hproperty : ∀ child ∈ children, ∀ own,
      assemble table direction child = .ok own → motive child own → property own.machine) :
    ∀ machine ∈ parts.map Assembly.machine, property machine := by
  induction h with
  | nil => simp
  | cons hchild _ ih =>
      obtain ⟨own, hown, hmotive, rfl⟩ := hchild
      rw [List.forall_mem_cons] at hproperty
      rw [List.map_cons, List.forall_mem_cons, Assembly.machine_record]
      exact ⟨hproperty.1 own hown hmotive, ih hproperty.2⟩

theorem framed_of_parts {children : List Tree} {parts : List (Assembly α)}
    (h : List.Forall₂ (fun child part => ∃ own, assemble table direction child = .ok own ∧
      own.machine.Framed ∧ part = own.record child.isLeaf) children parts) :
    ∀ machine ∈ parts.map Assembly.machine, machine.Framed :=
  forall_machine_of_parts h fun _ _ _ _ hframed => hframed

theorem framed_of_assemble {tree : Tree} {assembly : Assembly α}
    (h : tree.assemble table direction = .ok assembly) : assembly.machine.Framed := by
  have hlabel : ∀ (quantifier : Quantifier) (label : Label α),
      (Assembly.ofLabel quantifier label).machine.Framed := fun quantifier label =>
    Machine.framed_repeated (Machine.framed_single label) quantifier
  refine assemble_induction (motive := fun _ assembly => assembly.machine.Framed)
    (fun _ label _ _ => hlabel _ label) (fun _ _ label _ _ => hlabel _ label) ?_ ?_ h
  · intro children mark parts _ hparts
    exact Machine.framed_repeated (Machine.framed_inSequence (framed_of_parts hparts)) _
  · intro children mark parts _ hparts
    exact Machine.framed_repeated (Machine.framed_oneOf (framed_of_parts hparts)) _

theorem framed_of_children {motive : Tree → Assembly α → Prop} {children : List Tree}
    {parts : List (Assembly α)}
    (h : List.Forall₂ (fun child part => ∃ own, assemble table direction child = .ok own ∧
      motive child own ∧ part = own.record child.isLeaf) children parts) :
    ∀ machine ∈ parts.map Assembly.machine, machine.Framed :=
  forall_machine_of_parts h fun _ _ _ hown _ => framed_of_assemble hown

/-! ## Runs and matches -/

variable [DecidableEq α] {input : Array α}

omit [DecidableEq α] in
theorem literalAtoms_eq_ok_iff {texts : List (List Char)} :
    ∀ {atoms : List (Atom α)},
      literalAtoms table direction texts = .ok atoms ↔
        List.Forall₂ (fun text atom => literalAtom table direction text = .ok atom)
          texts atoms := by
  induction texts with
  | nil =>
      intro atoms
      cases atoms <;> simp [literalAtoms]
  | cons text rest ih =>
      intro atoms
      rw [literalAtoms, bind_eq_ok_iff]
      constructor
      · intro h
        rcases h with ⟨atom, hatom, hrest⟩
        obtain ⟨others, hothers, heq⟩ := bind_eq_ok_iff.1 hrest
        cases heq
        exact List.Forall₂.cons hatom (ih.1 hothers)
      · intro hatoms
        cases hatoms with
        | cons hatom hothers => exact ⟨_, hatom, bind_eq_ok_iff.2 ⟨_, ih.2 hothers, rfl⟩⟩

theorem all_atoms_unseen_iff {texts : List (List Char)} {atoms : List (Atom α)} {index : Nat}
    (h : List.Forall₂ (fun text atom => literalAtom table direction text = .ok atom) texts atoms) :
    (atoms.all fun atom => (atom.pass? table input index).isNone) = true ↔
      ∀ text ∈ texts, ∀ next,
        ¬ LiteralMatches table direction input text index next := by
  induction h with
  | nil => simp
  | @cons text atom _ _ hatom _ ih =>
      have hhead : (atom.pass? table input index).isNone = true ↔
          ∀ next, ¬ LiteralMatches table direction input text index next := by
        rw [Option.isNone_iff_eq_none, Option.eq_none_iff_forall_ne_some]
        constructor
        · intro hnone next hfound
          rcases hfound with ⟨atom', hatom', hpass⟩
          rw [hatom] at hatom'
          cases hatom'
          exact hnone next hpass
        · intro hnone next hpass
          exact hnone next ⟨atom, hatom, hpass⟩
      rw [List.all_cons, Bool.and_eq_true, List.forall_mem_cons, hhead, ih]

/-- The exclusion label of some choices is passed by one token at which none of them is seen. -/
theorem pass?_exclusionLabel_iff {choices : Option (List (List Char))} {label : Label α}
    {index stop : Nat} (h : exclusionLabel table direction choices = .ok label) :
    label.pass? table input index = some stop ↔
      Excludes table direction input choices index stop := by
  cases choices with
  | none => cases h
  | some texts =>
      rw [exclusionLabel, bind_eq_ok_iff] at h
      obtain ⟨atoms, hatoms, heq⟩ := h
      cases heq
      have hunseen : (atoms.all fun atom => (atom.pass? table input index).isNone) = true ↔
          ∀ text ∈ texts, ∀ next,
            ¬ LiteralMatches table direction input text index next :=
        all_atoms_unseen_iff (literalAtoms_eq_ok_iff.1 hatoms)
      simp only [Label.pass?, Excludes, Option.some.injEq, exists_eq_left', ← hunseen,
        Token.isOrdinaryAt, Option.ite_none_right_eq_some, Bool.and_eq_true, decide_eq_true_eq,
        Bool.not_eq_true']
      constructor
      · intro hboth
        rcases hboth with ⟨⟨⟨hindex, hplain⟩, hall⟩, rfl⟩
        exact ⟨rfl, hindex, hplain, hall⟩
      · intro hboth
        rcases hboth with ⟨rfl, hindex, hplain, hall⟩
        exact ⟨⟨⟨hindex, hplain⟩, hall⟩, rfl⟩

theorem runs_ofLabel (quantifier : Quantifier) (label : Label α) {index stop : Nat} :
    (Assembly.ofLabel quantifier label).machine.Runs table input index stop ↔
      quantifier.close (fun index stop => label.pass? table input index = some stop)
        index stop := by
  have hsingle : (Machine.single label).Runs table input =
      fun index stop => label.pass? table input index = some stop := by
    funext index stop
    exact propext (Machine.runs_single label)
  rw [Assembly.ofLabel, Machine.runs_repeated quantifier (Machine.framed_single label), hsingle]

theorem matches_of_negated {tree : Tree} (h : tree.mark.negated = true) :
    tree.Matches table direction input =
      tree.mark.quantifier.close (Excludes table direction input tree.choices) := by
  cases tree with
  | leaf content mark => rw [Matches, if_pos (show mark.negated = true from h)]; rfl
  | sequence children mark => rw [Matches, if_pos (show mark.negated = true from h)]; rfl
  | alternation children mark => rw [Matches, if_pos (show mark.negated = true from h)]; rfl

/-- What the machines of the parts of an item run through, said of its children. -/
theorem runs_of_parts {children : List Tree} {parts : List (Assembly α)}
    (h : List.Forall₂ (fun child part => ∃ own, assemble table direction child = .ok own ∧
      (∀ index stop, own.machine.Runs table input index stop ↔
        child.Matches table direction input index stop) ∧
          part = own.record child.isLeaf) children parts) :
    (∀ machine ∈ parts.map Assembly.machine, machine.Framed) ∧
      (∀ index stop, Machine.RunsInTurn table input (parts.map Assembly.machine) index stop ↔
        MatchesInTurn table direction input children index stop) ∧
      ∀ index stop, (∃ machine ∈ parts.map Assembly.machine,
        machine.Runs table input index stop) ↔
          MatchesAny table direction input children index stop := by
  induction h with
  | nil => simp [Machine.RunsInTurn, MatchesInTurn, MatchesAny]
  | cons hchild _ ih =>
      obtain ⟨own, hown, hruns, rfl⟩ := hchild
      obtain ⟨hframed, hturn, hany⟩ := ih
      simp only [List.map_cons, Assembly.machine_record, List.forall_mem_cons,
        List.exists_mem_cons_iff, Machine.RunsInTurn, MatchesInTurn, MatchesAny, hruns, hturn, hany,
        implies_true, and_true]
      exact ⟨framed_of_assemble hown, hframed⟩

/-- The machine for a tree runs from one index to another exactly when the tree matches there. -/
theorem runs_iff_matches {tree : Tree} {assembly : Assembly α}
    (h : tree.assemble table direction = .ok assembly) (index stop : Nat) :
    assembly.machine.Runs table input index stop ↔
      tree.Matches table direction input index stop := by
  revert index stop
  refine assemble_induction (motive := fun tree assembly => ∀ index stop,
    assembly.machine.Runs table input index stop ↔
      tree.Matches table direction input index stop) ?_ ?_ ?_ ?_ h
  · intro tree label hmark hlabel index stop
    have hbase : (fun index stop => label.pass? table input index = some stop) =
        Excludes table direction input tree.choices := by
      funext index stop
      exact propext (pass?_exclusionLabel_iff hlabel)
    rw [runs_ofLabel, hbase, matches_of_negated hmark]
  · intro content mark label hmark hlabel index stop
    have hbase : (fun index stop => label.pass? table input index = some stop) =
        content.Matches table direction input := by
      funext index stop
      simp [Leaf.Matches, hlabel]
    rw [runs_ofLabel, hbase, Matches, if_neg (by simp [hmark])]
  · intro children mark parts hmark hparts index stop
    obtain ⟨hframed, hturn, -⟩ := runs_of_parts hparts
    have hbase : (Machine.inSequence (parts.map Assembly.machine)).Runs table input =
        MatchesInTurn table direction input children := by
      funext index stop
      exact propext ((Machine.runs_inSequence hframed).trans (hturn index stop))
    rw [Assembly.inSequence, Machine.runs_repeated _ (Machine.framed_inSequence hframed), hbase,
      Matches, if_neg (by simp [hmark])]
  · intro children mark parts hmark hparts index stop
    obtain ⟨hframed, -, hany⟩ := runs_of_parts hparts
    have hbase : (Machine.oneOf (parts.map Assembly.machine)).Runs table input =
        MatchesAny table direction input children := by
      funext index stop
      exact propext ((Machine.runs_oneOf hframed).trans (hany index stop))
    rw [Assembly.oneOf, Machine.runs_repeated _ (Machine.framed_oneOf hframed), hbase,
      Matches, if_neg (by simp [hmark])]

end Tree

namespace Automaton

variable [DecidableEq α]

omit [DecidableEq α] in
theorem ofTree_eq_ok_iff {tree : Tree} {automaton : Automaton α} :
    ofTree tree table direction = .ok automaton ↔
      ∃ assembly, tree.assemble (table.orient direction) direction = .ok assembly ∧
        automaton =
          ⟨tree, direction, assembly.machine, assembly.groups, table.orient direction⟩ := by
  unfold ofTree
  rw [bind_eq_ok_iff]
  simp only [Except.ok.injEq, eq_comm]

omit [DecidableEq α] in
theorem ofPattern_eq_ok_iff {pattern : List Char} {symbols : List (List Char)}
    {automaton : Automaton α} :
    ofPattern pattern direction symbols table = .ok automaton ↔
      ∃ tree,
        Tree.parse (Vocabulary.ofList (symbols ++ table.keys)) direction pattern = .ok tree ∧
          ofTree tree table direction = .ok automaton := by
  unfold ofPattern
  cases Tree.parse (Vocabulary.ofList (symbols ++ table.keys)) direction pattern with
  | error fault => simp
  | ok tree => cases hautomaton : ofTree tree table direction <;> simp [hautomaton]

theorem mem_endsFrom_iff {tree : Tree} {automaton : Automaton α}
    (h : ofTree tree table direction = .ok automaton) {input : Array α} {start stop : Nat} :
    stop ∈ automaton.endsFrom input start ↔
      start ≤ input.size ∧
        tree.Matches (table.orient direction) direction input start stop := by
  obtain ⟨assembly, hassembly, rfl⟩ := ofTree_eq_ok_iff.1 h
  unfold endsFrom
  rw [Machine.mem_ends_iff, Tree.runs_iff_matches hassembly]

theorem bounds_of_mem_endsFrom {automaton : Automaton α} {input : Array α} {start stop : Nat}
    (h : stop ∈ automaton.endsFrom input start) : start ≤ stop ∧ stop ≤ input.size :=
  Machine.bounds_of_mem_ends h

/--
From inside the input an automaton finds the ends of what its tree matches, all of them and no
others; from beyond the input it finds nothing.
-/
theorem endsFrom_eq_meaning {tree : Tree} {automaton : Automaton α}
    (h : ofTree tree table direction = .ok automaton) (input : Array α) (start : Nat) :
    (start ≤ input.size → ∀ stop, stop ∈ automaton.endsFrom input start ↔
      tree.Matches (table.orient direction) direction input start stop) ∧
        (input.size < start → automaton.endsFrom input start = ∅) := by
  constructor
  · intro hstart stop
    rw [mem_endsFrom_iff h]
    constructor
    · exact And.right
    · exact And.intro hstart
  · intro hstart
    apply IndexSet.ext
    intro stop
    have hnone : ¬ stop ∈ automaton.endsFrom input start := by
      intro hmem
      have hle := ((mem_endsFrom_iff h).1 hmem).1
      omega
    exact iff_of_false hnone (IndexSet.not_mem_empty stop)

/-- A loop whose body is a loop that may see nothing, before a negated macro, read backwards. -/
theorem endsFrom_nested_loops :
    let tree := Tree.sequence
      [.leaf (.literal ['m']) ⟨true, .optional⟩,
        .sequence [.leaf (.literal ['a']) ⟨false, .zeroOrMore⟩, .sequence [] .plain]
          ⟨false, .oneOrMore⟩] .plain
    let table := (∅ : MacroTable Char).insert ['m'] [['x', 'y'], ['z']]
    ∃ automaton, ofTree tree table .backward = .ok automaton ∧
      (∀ stop, stop ∈ automaton.endsFrom #['b', 'a', 'a'] 2 ↔
        tree.Matches (table.orient .backward) .backward #['b', 'a', 'a'] 2 stop) ∧
          automaton.endsFrom #['b', 'a', 'a'] 4 = ∅ := by
  intro tree table
  have hbuilt : ∃ automaton, ofTree tree table .backward = .ok automaton := ⟨_, rfl⟩
  obtain ⟨automaton, h⟩ := hbuilt
  exact ⟨automaton, h, (endsFrom_eq_meaning h _ 2).1 (by decide),
    (endsFrom_eq_meaning h _ 4).2 (by decide)⟩

end Automaton

end Motif
