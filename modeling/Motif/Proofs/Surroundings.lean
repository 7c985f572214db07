import Mathlib.Data.List.Find
import Motif.Proofs.Reading

/-!
# What comes before and after a match

A search that begins behind a part of the input finds what it finds in the rest alone, moved along
by that part, unless a label asks for the start of the input. What follows an index does not decide
whether a match ends there, unless a label asks for the end of the input, excludes by more than one
token, or has to choose between an expansion of a macro and one that goes on from there.
-/

namespace Motif

variable {α : Type}

/-- The atoms of a label, whether they are to be seen or not to be seen. -/
def Label.atoms : Label α → List (Atom α)
  | .epsilon => []
  | .take atom => [atom]
  | .exclude atoms => atoms

def Graph.labels (graph : Graph α) : List (Label α) :=
  graph.states.toList.flatten.map Arc.label

theorem Graph.label_mem_labels {graph : Graph α} {state : Nat} {arc : Arc α}
    (h : arc ∈ graph.arcsFrom state) : arc.label ∈ graph.labels :=
  List.mem_map_of_mem (mem_flatten_of_mem_arcsFrom h)

/-! ## What comes before -/

/-- The same state, further on in the input. -/
def Configuration.delay (offset : Nat) (configuration : Configuration) : Configuration :=
  ⟨configuration.state, offset + configuration.index⟩

section Before

variable [DecidableEq α] {table : MacroTable α} (before : Array α) {input : Array α}

theorem Token.occursAt_append_left (index : Nat) (wanted : List α) :
    Token.occursAt (before ++ input) (before.size + index) wanted =
      Token.occursAt input index wanted := by
  induction wanted generalizing index with
  | nil => simp [Token.occursAt]
  | cons token rest ih =>
      rw [Token.occursAt, Token.occursAt, Nat.add_assoc, ih, Array.getElem?_append_right (by omega),
        Nat.add_sub_cancel_left]

variable [Token α]

omit [DecidableEq α] in
theorem Token.isOrdinaryAt_append_left (index : Nat) :
    Token.isOrdinaryAt (before ++ input) (before.size + index) =
      Token.isOrdinaryAt input index := by
  simp [Token.isOrdinaryAt, Token.hasBoundaryAt, Array.getElem?_append_right]

theorem Atom.pass?_append_left {atom : Atom α} (h : atom ≠ .inputStart) (index : Nat) :
    atom.pass? table (before ++ input) (before.size + index) =
      (atom.pass? table input index).map (before.size + ·) := by
  cases atom with
  | literal tokens =>
      simp only [Atom.pass?, Token.occursAt_append_left]
      split <;> simp [Nat.add_assoc]
  | macroRef id =>
      have hseen : Token.occursAt (before ++ input) (before.size + index) =
          Token.occursAt input index :=
        funext fun tokens => Token.occursAt_append_left before index tokens
      rw [Atom.pass?, Atom.pass?, hseen]
      split <;> simp [Nat.add_assoc]
  | wildcard =>
      simp only [Atom.pass?, Token.isOrdinaryAt_append_left]
      split <;> simp [Nat.add_assoc]
  | inputStart => exact absurd rfl h
  | inputEnd =>
      simp only [Atom.pass?, Array.size_append, Nat.add_left_cancel_iff]
      split <;> simp

theorem Label.pass?_append_left {label : Label α} (h : ¬ Atom.inputStart ∈ label.atoms)
    (index : Nat) :
    label.pass? table (before ++ input) (before.size + index) =
      (label.pass? table input index).map (before.size + ·) := by
  cases label with
  | epsilon => rfl
  | take atom => exact Atom.pass?_append_left before (fun heq => h (by simp [heq, atoms])) index
  | exclude atoms =>
      have hunseen : (atoms.all fun atom =>
          (atom.pass? table (before ++ input) (before.size + index)).isNone) =
            atoms.all fun atom => (atom.pass? table input index).isNone := by
        rw [Bool.eq_iff_iff, List.all_eq_true, List.all_eq_true]
        refine forall₂_congr fun atom hmem => ?_
        have hne : atom ≠ .inputStart := fun heq => h (heq ▸ hmem)
        rw [Atom.pass?_append_left before hne, Option.isNone_map]
      rw [Label.pass?, Label.pass?, hunseen, Token.isOrdinaryAt_append_left]
      split <;> simp [Nat.add_assoc]

theorem Graph.step_behind_iff {graph : Graph α}
    (h : ∀ label ∈ graph.labels, ¬ Atom.inputStart ∈ label.atoms)
    (current next : Configuration) :
    graph.Step table (before ++ input) (current.delay before.size) next ↔
      ∃ own, graph.Step table input current own ∧ next = own.delay before.size := by
  cases next with
  | mk state index =>
      simp only [Step, Configuration.delay, Configuration.mk.injEq]
      constructor
      · intro hstep
        rcases hstep with ⟨arc, harc, htarget, hpass⟩
        rw [Label.pass?_append_left before (h _ (label_mem_labels harc)),
          Option.map_eq_some_iff] at hpass
        obtain ⟨own, hown, rfl⟩ := hpass
        exact ⟨⟨state, own⟩, ⟨arc, harc, htarget, hown⟩, rfl, rfl⟩
      · intro hfound
        rcases hfound with ⟨own, ⟨arc, harc, htarget, hown⟩, rfl, rfl⟩
        refine ⟨arc, harc, htarget, ?_⟩
        rw [Label.pass?_append_left before (h _ (label_mem_labels harc)), hown]
        rfl

/--
If no label of a machine asks for the start of the input, what is found behind a part of the input
is what is found in the rest alone, moved along by that part.
-/
theorem Machine.ends_append_left {machine : Machine α}
    (h : ∀ label ∈ machine.graph.labels, ¬ Atom.inputStart ∈ label.atoms)
    (input : Array α) (index : Nat) :
    machine.ends table (before ++ input) (before.size + index) =
      IndexSet.ofList ((machine.ends table input index).toList.map (before.size + ·)) := by
  have hruns : ∀ stop, machine.Runs table (before ++ input) (before.size + index) stop ↔
      ∃ own, machine.Runs table input index own ∧ stop = before.size + own := by
    intro stop
    have hreach : machine.graph.Reaches table (before ++ input)
        (Configuration.delay before.size ⟨machine.start, index⟩) ⟨machine.accept, stop⟩ ↔
          ∃ own, machine.graph.Reaches table input ⟨machine.start, index⟩ own ∧
            ⟨machine.accept, stop⟩ = own.delay before.size :=
      Graph.reaches_move_iff (Graph.step_behind_iff before h)
    refine hreach.trans ⟨?_, ?_⟩
    · intro hfound
      obtain ⟨⟨state, own⟩, hown, heq⟩ := hfound
      cases heq
      exact ⟨own, hown, rfl⟩
    · intro hfound
      obtain ⟨own, hown, rfl⟩ := hfound
      exact ⟨⟨machine.accept, own⟩, hown, rfl⟩
  apply IndexSet.ext
  intro stop
  rw [mem_ends_iff, hruns, IndexSet.mem_ofList, List.mem_map]
  simp only [IndexSet.mem_toList, mem_ends_iff, Array.size_append, Nat.add_le_add_iff_left,
    and_assoc, exists_and_left, @eq_comm _ stop]

/-- A cycle over all kinds of labels but for the start of the input, from the second token on. -/
theorem Machine.ends_append_left_of_cycle :
    let machine : Machine Char :=
      ⟨⟨#[[⟨.exclude [.literal ['c'], .macroRef 0], 0⟩, ⟨.epsilon, 1⟩],
        [⟨.take (.macroRef 0), 0⟩, ⟨.take .wildcard, 1⟩, ⟨.take .inputEnd, 2⟩], []]⟩, 0, 2⟩
    let table := (∅ : MacroTable Char).insert ['m'] [['a'], ['a', 'b']]
    (∀ label ∈ machine.graph.labels, ¬ Atom.inputStart ∈ label.atoms) ∧
      machine.ends table #['d', 'a', 'b'] 1 = IndexSet.ofList [3] ∧
      machine.ends table (#['#', 'a'] ++ #['d', 'a', 'b']) (2 + 1) =
        IndexSet.ofList ((machine.ends table #['d', 'a', 'b'] 1).toList.map (2 + ·)) := by
  intro machine table
  exact ⟨by decide, by decide, ends_append_left #['#', 'a'] (by decide) #['d', 'a', 'b'] 1⟩

end Before

/-! ## What comes after -/

section After

variable [DecidableEq α] {table : MacroTable α} {input : Array α} (after : Array α)
  {index next : Nat}

theorem Token.occursAt_append_right {wanted : List α} (h : index + wanted.length ≤ input.size) :
    Token.occursAt (input ++ after) index wanted = Token.occursAt input index wanted := by
  induction wanted generalizing index with
  | nil =>
      rw [List.length_nil] at h
      simp only [Token.occursAt, Array.size_append, decide_eq_decide]
      omega
  | cons token rest ih =>
      rw [List.length_cons] at h
      rw [Token.occursAt, Token.occursAt, ih (by omega), Array.getElem?_append_left (by omega)]

variable [Token α]

omit [DecidableEq α] in
theorem Token.isOrdinaryAt_append_right (h : index < input.size) :
    Token.isOrdinaryAt (input ++ after) index = Token.isOrdinaryAt input index := by
  have hlonger : index < (input ++ after).size := by
    rw [Array.size_append]
    omega
  simp only [Token.isOrdinaryAt, Token.hasBoundaryAt, Array.getElem?_append_left h, h, hlonger]

/-- An atom that looks at no more than one token. -/
def Atom.Narrow (table : MacroTable α) : Atom α → Prop
  | .literal tokens => tokens.length ≤ 1
  | .macroRef id => ∀ tokens ∈ table.expansions id, tokens.length ≤ 1
  | .wildcard => True
  | .inputStart => True
  | .inputEnd => True

instance (table : MacroTable α) : (atom : Atom α) → Decidable (atom.Narrow table)
  | .literal tokens => inferInstanceAs (Decidable (tokens.length ≤ 1))
  | .macroRef id =>
      inferInstanceAs
        (Decidable (∀ tokens ∈ table.expansions id, tokens.length ≤ 1))
  | .wildcard => isTrue trivial
  | .inputStart => isTrue trivial
  | .inputEnd => isTrue trivial

/-- At a token of the input an atom that looks no further is seen whatever follows the input. -/
theorem Atom.pass?_append_right_of_narrow {atom : Atom α} (hnarrow : atom.Narrow table)
    (hend : atom ≠ .inputEnd) (hindex : index < input.size) :
    atom.pass? table (input ++ after) index = atom.pass? table input index := by
  cases atom with
  | literal tokens =>
      have hlength : tokens.length ≤ 1 := hnarrow
      rw [Atom.pass?, Atom.pass?, Token.occursAt_append_right after (by omega)]
  | macroRef id =>
      have hfind : (table.expansions id).find? (Token.occursAt (input ++ after) index) =
          (table.expansions id).find? (Token.occursAt input index) := by
        apply List.find?_congr
        intro tokens hmem
        have hlength : tokens.length ≤ 1 := hnarrow tokens hmem
        exact Token.occursAt_append_right after (by omega)
      rw [Atom.pass?, Atom.pass?, hfind]
  | wildcard => rw [Atom.pass?, Atom.pass?, Token.isOrdinaryAt_append_right after hindex]
  | inputStart => rfl
  | inputEnd => exact absurd rfl hend

/--
Up to an index inside the input an atom is seen whatever follows the input, but for the end of the
input and a macro with an expansion that begins another one.
-/
theorem Atom.pass?_append_right_iff {atom : Atom α} (hend : atom ≠ .inputEnd)
    (hfree : ∀ id, atom = .macroRef id → PrefixFree (table.expansions id))
    (hnext : next ≤ input.size) :
    atom.pass? table (input ++ after) index = some next ↔
      atom.pass? table input index = some next := by
  cases atom with
  | literal tokens =>
      simp only [Atom.pass?, Option.ite_none_right_eq_some, Option.some.injEq]
      refine and_congr_left fun hlength => ?_
      rw [Token.occursAt_append_right after (by omega)]
  | macroRef id =>
      -- In the longer input an earlier expansion could go on past the end of the shorter one.
      rw [Atom.pass?_macroRef_iff, Atom.pass?_macroRef_iff]
      refine exists_congr fun tokens => and_congr_left fun hlength => ?_
      rw [(hfree id rfl).find?_occursAt_iff, (hfree id rfl).find?_occursAt_iff,
        Token.occursAt_append_right after (by omega)]
  | wildcard =>
      simp only [Atom.pass?, Option.ite_none_right_eq_some, Option.some.injEq]
      refine and_congr_left fun hlength => ?_
      rw [Token.isOrdinaryAt_append_right after (by omega)]
  | inputStart => rfl
  | inputEnd => exact absurd rfl hend

theorem Label.pass?_append_right_iff {label : Label α} (hend : ¬ Atom.inputEnd ∈ label.atoms)
    (hexclude : ∀ atoms, label = .exclude atoms →
      ∀ atom ∈ atoms, atom.Narrow table)
    (hfree : ∀ id, label = .take (.macroRef id) → PrefixFree (table.expansions id))
    (hnext : next ≤ input.size) :
    label.pass? table (input ++ after) index = some next ↔
      label.pass? table input index = some next := by
  cases label with
  | epsilon => rfl
  | take atom =>
      refine Atom.pass?_append_right_iff after (fun heq => hend (by simp [heq, atoms])) ?_ hnext
      intro id heq
      exact hfree id (heq ▸ rfl)
  | exclude atoms =>
      have hunseen : index < input.size → ∀ atom ∈ atoms,
          atom.pass? table (input ++ after) index = atom.pass? table input index := by
        intro hindex atom hmem
        exact Atom.pass?_append_right_of_narrow after (hexclude atoms rfl atom hmem)
          (fun heq => hend (heq ▸ hmem)) hindex
      simp only [Label.pass?, Option.ite_none_right_eq_some, Option.some.injEq, Bool.and_eq_true,
        List.all_eq_true]
      refine and_congr_left fun hstop => and_congr ?_ (forall₂_congr fun atom hmem => ?_)
      · rw [Token.isOrdinaryAt_append_right after (by omega)]
      · rw [hunseen (by omega) atom hmem]

variable {graph : Graph α}

/-- Whatever follows the input, the steps to an index inside it are the same. -/
theorem Graph.step_followed_iff
    (hend : ∀ label ∈ graph.labels, ¬ Atom.inputEnd ∈ label.atoms)
    (hexclude : ∀ atoms, Label.exclude atoms ∈ graph.labels →
      ∀ atom ∈ atoms, atom.Narrow table)
    (hfree : ∀ id, Label.take (.macroRef id) ∈ graph.labels →
      PrefixFree (table.expansions id))
    {current reached : Configuration} (hreached : reached.index ≤ input.size) :
    graph.Step table (input ++ after) current reached ↔
      graph.Step table input current reached := by
  refine exists_congr fun arc => and_congr_right fun harc => and_congr_right fun _ => ?_
  have hlabel := label_mem_labels harc
  apply Label.pass?_append_right_iff after (hend arc.label hlabel) _ _ hreached
  · intro atoms heq
    exact hexclude atoms (heq ▸ hlabel)
  · intro id heq
    exact hfree id (heq ▸ hlabel)

theorem Graph.reaches_followed_iff
    (hstep : ∀ current reached, reached.index ≤ input.size →
      (graph.Step table (input ++ after) current reached ↔
        graph.Step table input current reached))
    {first last : Configuration} (hfirst : first.index ≤ input.size)
    (hlast : last.index ≤ input.size) :
    graph.Reaches table (input ++ after) first last ↔ graph.Reaches table input first last := by
  have hlonger : first.index ≤ (input ++ after).size := by
    rw [Array.size_append]
    omega
  constructor
  · intro hreach
    induction hreach with
    | refl => exact Relation.ReflTransGen.refl
    | @tail middle last hmiddle hnext ih =>
        -- No step goes back, so what comes before an index inside the input is inside it too.
        have hbounds := Reaches.bounds (Reaches.of_step hnext) (Reaches.bounds hmiddle hlonger).2
        exact (ih (Nat.le_trans hbounds.1 hlast)).tail ((hstep middle last hlast).1 hnext)
  · intro hreach
    clear hlast
    induction hreach with
    | refl => exact Relation.ReflTransGen.refl
    | @tail middle last hmiddle hnext ih =>
        have hbounds := Reaches.bounds (hmiddle.tail hnext) hfirst
        exact ih.tail ((hstep middle last hbounds.2).2 hnext)

/--
If no label of a machine asks for the end of the input, no excluded atom looks further than one
token, and no expansion of a macro to be seen begins another one, then what follows an input has no
say in whether a match ends at an index inside it.
-/
theorem Machine.mem_ends_append_right_iff {machine : Machine α}
    (hend : ∀ label ∈ machine.graph.labels, ¬ Atom.inputEnd ∈ label.atoms)
    (hexclude : ∀ atoms, Label.exclude atoms ∈ machine.graph.labels →
      ∀ atom ∈ atoms, atom.Narrow table)
    (hfree : ∀ id, Label.take (.macroRef id) ∈ machine.graph.labels →
      PrefixFree (table.expansions id))
    {start stop : Nat} (hstart : start ≤ input.size) (hstop : stop ≤ input.size) :
    stop ∈ machine.ends table (input ++ after) start ↔ stop ∈ machine.ends table input start := by
  have hlonger : start ≤ (input ++ after).size := by
    rw [Array.size_append]
    omega
  rw [mem_ends_iff, mem_ends_iff, and_iff_right hstart, and_iff_right hlonger]
  refine Graph.reaches_followed_iff after (fun current reached hreached => ?_) hstart hstop
  exact Graph.step_followed_iff after hend hexclude hfree hreached

/-- A cycle over all kinds of labels but for the end of the input, which could go on behind it. -/
theorem Machine.mem_ends_append_right_of_cycle :
    let machine : Machine Char :=
      ⟨⟨#[[⟨.take .inputStart, 1⟩],
        [⟨.exclude [.literal ['d'], .macroRef 1], 1⟩, ⟨.take (.macroRef 0), 1⟩, ⟨.epsilon, 2⟩],
        [⟨.take .wildcard, 1⟩, ⟨.take (.literal ['c', 'a']), 2⟩]]⟩, 0, 2⟩
    let table := ((∅ : MacroTable Char).insert ['m'] [['a', 'b'], ['c', 'a']]).insert ['n'] [['a']]
    3 ∈ machine.ends table #['a', 'b', 'c'] 0 ∧
      (3 ∈ machine.ends table (#['a', 'b', 'c'] ++ #['a', 'c']) 0 ↔
        3 ∈ machine.ends table #['a', 'b', 'c'] 0) := by
  intro machine table
  have hexclude : ∀ atoms, Label.exclude atoms ∈ machine.graph.labels →
      ∀ atom ∈ atoms, atom.Narrow table := by
    intro atoms hmem
    have heq : atoms = [.literal ['d'], .macroRef 1] := by
      simpa [machine, Graph.labels] using hmem
    subst heq
    decide
  have hfree : ∀ id, Label.take (.macroRef id) ∈ machine.graph.labels →
      PrefixFree (table.expansions id) := by
    intro id hmem
    have heq : id = 0 := by simpa [machine, Graph.labels] using hmem
    subst heq
    decide
  refine ⟨by decide, ?_⟩
  exact mem_ends_append_right_iff #['a', 'c'] (by decide) hexclude hfree (by decide) (by decide)

end After

end Motif
