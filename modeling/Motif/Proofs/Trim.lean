import Motif.Proofs.Groups
import Motif.Proofs.Items
import Motif.Proofs.Ways

/-!
# Machines without dead ends

A machine is trim if every state can be reached from its start and reaches its accepting state.
Machines that are put together from trim machines are trim. An alternation begins with no way
between its two states, and the first branch makes it trim; so the machine for a tree is trim unless
the tree has an alternation without branches.
-/

namespace Motif

namespace Machine

variable {α : Type}

/-- Every state can be reached from the start, and reaches the accepting state. -/
structure Trim (machine : Machine α) : Prop where
  reached : ∀ state, state < machine.graph.size →
    machine.graph.Connects machine.start state
  accepts : ∀ state, state < machine.graph.size →
    machine.graph.Connects state machine.accept

/-- The same up to a way from the start to the accepting state, which may still be missing. -/
structure NearlyTrim (machine : Machine α) : Prop where
  reached : ∀ state, state < machine.graph.size → state ≠ machine.accept →
    machine.graph.Connects machine.start state
  accepts : ∀ state, state < machine.graph.size → state ≠ machine.start →
    machine.graph.Connects state machine.accept

theorem Trim.nearlyTrim {machine : Machine α} (h : machine.Trim) : machine.NearlyTrim where
  reached state hstate _ := h.reached state hstate
  accepts state hstate _ := h.accepts state hstate

theorem trim_single (label : Label α) : (single label).Trim := by
  have hway : (single label).graph.Connects 0 1 :=
    Relation.ReflTransGen.single ⟨⟨label, 1⟩, mem_arcsFrom_single.2 ⟨rfl, rfl⟩, rfl⟩
  constructor
  · intro state hstate
    rcases state with _ | _ | state
    · exact Relation.ReflTransGen.refl
    · exact hway
    · change state + 2 < 2 at hstate
      omega
  · intro state hstate
    rcases state with _ | _ | state
    · exact hway
    · exact Relation.ReflTransGen.refl
    · change state + 2 < 2 at hstate
      omega

theorem nearlyTrim_disconnected : (disconnected : Machine α).NearlyTrim := by
  constructor
  · intro state hstate hne
    change state < 2 at hstate
    change state ≠ 1 at hne
    have hstart : state = 0 := by omega
    subst hstart
    exact Relation.ReflTransGen.refl
  · intro state hstate hne
    change state < 2 at hstate
    change state ≠ 0 at hne
    have haccept : state = 1 := by omega
    subst haccept
    exact Relation.ReflTransGen.refl

theorem trim_join {first second : Machine α} (hfirst : first.Trim) (hsecond : second.Trim)
    (hframed : first.Framed) (hframed2 : second.Framed) : (join first second).Trim := by
  have hlt := hframed.accept_lt
  have haccept : first.accept < (first.graph.append second.graph).size := by
    rw [Graph.size_append]
    omega
  have hsize : (join first second).graph.size = (first.graph.append second.graph).size :=
    Graph.size_connect _ _ _ _
  have hleft : ∀ {state next : Nat}, first.graph.Connects state next →
      (join first second).graph.Connects state next :=
    fun hway => (hway.append_left second.graph).connect _ _ _
  have hright : ∀ {state next : Nat}, second.graph.Connects state next →
      (join first second).graph.Connects (state + first.graph.size) (next + first.graph.size) :=
    fun hway => (hway.append_right first.graph).connect _ _ _
  have hacross : (join first second).graph.Connects first.accept
      (second.start + first.graph.size) :=
    Relation.ReflTransGen.single (Graph.leads_connect .epsilon _ haccept)
  constructor
  · intro state hstate
    have henter := (hleft (hfirst.reached first.accept hlt)).trans hacross
    rw [hsize] at hstate
    rcases Graph.state_append_cases hstate with hinside | ⟨inner, hinner, rfl⟩
    · exact hleft (hfirst.reached state hinside)
    · exact henter.trans (hright (hsecond.reached inner hinner))
  · intro state hstate
    have hleave := hacross.trans (hright (hsecond.accepts second.start hframed2.start_lt))
    rw [hsize] at hstate
    rcases Graph.state_append_cases hstate with hinside | ⟨inner, hinner, rfl⟩
    · exact (hleft (hfirst.accepts state hinside)).trans hleave
    · exact hright (hsecond.accepts inner hinner)

theorem trim_addBranch {machine branch : Machine α} (hmachine : machine.NearlyTrim)
    (hbranch : branch.Trim) (hframed : machine.Framed) (hframed2 : branch.Framed) :
    (addBranch machine branch).Trim := by
  have hstart := hframed.start_lt
  have hstart2 := hframed2.start_lt
  have haccept2 := hframed2.accept_lt
  have hsize : (addBranch machine branch).graph.size =
      (machine.graph.append branch.graph).size := by
    rw [addBranch, Graph.size_connect, Graph.size_connect]
  have hleft : ∀ {state next : Nat}, machine.graph.Connects state next →
      (addBranch machine branch).graph.Connects state next :=
    fun hway => ((hway.append_left branch.graph).connect _ _ _).connect _ _ _
  have hright : ∀ {state next : Nat}, branch.graph.Connects state next →
      (addBranch machine branch).graph.Connects (state + machine.graph.size)
        (next + machine.graph.size) :=
    fun hway => ((hway.append_right machine.graph).connect _ _ _).connect _ _ _
  have henter : (addBranch machine branch).graph.Connects machine.start
      (branch.start + machine.graph.size) := by
    apply Graph.Connects.connect
    apply Relation.ReflTransGen.single
    apply Graph.leads_connect
    rw [Graph.size_append]
    omega
  have hleave : (addBranch machine branch).graph.Connects (branch.accept + machine.graph.size)
      machine.accept := by
    apply Relation.ReflTransGen.single
    apply Graph.leads_connect
    rw [Graph.size_connect, Graph.size_append]
    omega
  have hthrough : (addBranch machine branch).graph.Connects machine.start machine.accept :=
    (henter.trans (hright (hbranch.reached branch.accept haccept2))).trans hleave
  constructor
  · intro state hstate
    rw [hsize] at hstate
    rcases Graph.state_append_cases hstate with hinside | ⟨inner, hinner, rfl⟩
    · by_cases haccept : state = machine.accept
      · rw [haccept]
        exact hthrough
      · exact hleft (hmachine.reached state hinside haccept)
    · exact henter.trans (hright (hbranch.reached inner hinner))
  · intro state hstate
    rw [hsize] at hstate
    rcases Graph.state_append_cases hstate with hinside | ⟨inner, hinner, rfl⟩
    · by_cases hfirst : state = machine.start
      · rw [hfirst]
        exact hthrough
      · exact hleft (hmachine.accepts state hinside hfirst)
    · exact (hright (hbranch.accepts inner hinner)).trans hleave

theorem trim_inSequence {machines : List (Machine α)}
    (h : ∀ machine ∈ machines, machine.Framed ∧ machine.Trim) :
    (inSequence machines).Trim := by
  cases machines with
  | nil => exact trim_single .epsilon
  | cons first rest =>
      have hrow : (rest.foldl join first).Framed ∧ (rest.foldl join first).Trim := by
        apply List.foldlRecOn (motive := fun machine => machine.Framed ∧ machine.Trim) rest join
          (h first List.mem_cons_self)
        intro machine hmachine second hmem
        obtain ⟨hframed, htrim⟩ := h second (List.mem_cons_of_mem _ hmem)
        exact ⟨framed_join hmachine.1 hframed, trim_join hmachine.2 htrim hmachine.1 hframed⟩
      exact hrow.2

theorem trim_oneOf {branches : List (Machine α)} (hne : branches ≠ [])
    (h : ∀ branch ∈ branches, branch.Framed ∧ branch.Trim) :
    (oneOf branches).Trim := by
  cases branches with
  | nil => exact absurd rfl hne
  | cons first rest =>
      obtain ⟨hframed, htrim⟩ := h first List.mem_cons_self
      have hfirst : (addBranch disconnected first).Framed ∧ (addBranch disconnected first).Trim :=
        ⟨framed_addBranch framed_disconnected hframed,
          trim_addBranch nearlyTrim_disconnected htrim framed_disconnected hframed⟩
      have hall : (oneOf (first :: rest)).Framed ∧ (oneOf (first :: rest)).Trim := by
        apply List.foldlRecOn (motive := fun machine => machine.Framed ∧ machine.Trim) rest
          addBranch hfirst
        intro machine hmachine branch hmem
        obtain ⟨hframed, htrim⟩ := h branch (List.mem_cons_of_mem _ hmem)
        exact ⟨framed_addBranch hmachine.1 hframed,
          trim_addBranch hmachine.2.nearlyTrim htrim hmachine.1 hframed⟩
      exact hall.2

theorem trim_repeated {machine : Machine α} (hmachine : machine.Trim) (hframed : machine.Framed)
    (quantifier : Quantifier) : (machine.repeated quantifier).Trim := by
  by_cases h : quantifier = .once
  · simpa [repeated, h] using hmachine
  have hstart := hframed.start_lt
  have haccept := hframed.accept_lt
  have hsize := graph_size_repeated h machine
  have hnewStart : (machine.repeated quantifier).start = machine.graph.size := by
    simp [repeated, h]
  have hnewAccept : (machine.repeated quantifier).accept = machine.graph.size + 1 := by
    simp [repeated, h]
  have hown : ∀ {state next : Nat}, machine.graph.Connects state next →
      (machine.repeated quantifier).graph.Connects state next := by
    intro state next hway
    apply hway.mono
    intro state next hleads
    obtain ⟨arc, harc, htarget⟩ := hleads
    exact ⟨arc, (mem_arcsFrom_repeated h haccept).2 (Or.inl harc), htarget⟩
  have henter : (machine.repeated quantifier).graph.Connects machine.graph.size machine.start :=
    Relation.ReflTransGen.single
      ⟨_, (mem_arcsFrom_repeated h haccept).2 (Or.inr (Or.inl ⟨rfl, rfl⟩)), rfl⟩
  have hleave : (machine.repeated quantifier).graph.Connects machine.accept
      (machine.graph.size + 1) :=
    Relation.ReflTransGen.single
      ⟨_, (mem_arcsFrom_repeated h haccept).2 (Or.inr (Or.inr (Or.inl ⟨rfl, rfl⟩))), rfl⟩
  constructor
  · intro state hstate
    rw [hnewStart]
    rcases Nat.lt_trichotomy state machine.graph.size with hinside | rfl | hbeyond
    · exact henter.trans (hown (hmachine.reached state hinside))
    · exact Relation.ReflTransGen.refl
    · have hlast : state = machine.graph.size + 1 := by omega
      rw [hlast]
      exact (henter.trans (hown (hmachine.reached machine.accept haccept))).trans hleave
  · intro state hstate
    rw [hnewAccept]
    rcases Nat.lt_trichotomy state machine.graph.size with hinside | rfl | hbeyond
    · exact (hown (hmachine.accepts state hinside)).trans hleave
    · exact (henter.trans (hown (hmachine.accepts machine.start hstart))).trans hleave
    · have hlast : state = machine.graph.size + 1 := by omega
      rw [hlast]
      exact Relation.ReflTransGen.refl

end Machine

namespace Tree

/-- An alternation without branches, unless it is negated: no way leads through its machine. -/
def isImpassable : Tree → Bool
  | .alternation [] mark => !mark.negated
  | _ => false

theorem all_of_mem_items {property : Tree → Prop} {tree : Tree} :
    ∀ {inside : Bool} {found : Bool × Tree}, found ∈ tree.items inside →
      tree.All property → found.2.All property := by
  induction tree using children_induction with
  | item tree ih =>
      intro inside found hfound hall
      rw [items_eq, itemsEach_eq_flatMap, List.mem_cons, List.mem_flatMap] at hfound
      rcases hfound with rfl | ⟨child, hchild, hfound⟩
      · exact hall
      · exact ih child hchild hfound ((all_iff.1 hall).2 child hchild)

theorem all_of_mem_groupItems {property : Tree → Prop} {tree item : Tree}
    (hitem : item ∈ tree.groupItems) (h : tree.All property) : item.All property := by
  obtain ⟨found, hfound, hgroup⟩ := List.mem_filterMap.1 hitem
  unfold asGroup? at hgroup
  split at hgroup
  · cases hgroup
  · cases hgroup
    exact all_of_mem_items (List.mem_of_mem_tail hfound) h

variable {α : Type} [Token α] {table : MacroTable α} {direction : Direction}

theorem trim_of_parts {children : List Tree} {parts : List (Assembly α)}
    (hchildren : ∀ child ∈ children,
      child.All fun item => item.isImpassable = false)
    (h : List.Forall₂ (fun child part => ∃ own, assemble table direction child = .ok own ∧
      ((child.All fun item => item.isImpassable = false) → own.machine.Trim) ∧
        part = own.record child.isLeaf) children parts) :
    ∀ machine ∈ parts.map Assembly.machine, machine.Framed ∧ machine.Trim :=
  forall_machine_of_parts h fun child hmem _ hown htrim =>
    ⟨framed_of_assemble hown, htrim (hchildren child hmem)⟩

theorem trim_of_assemble {tree : Tree} {assembly : Assembly α}
    (h : tree.assemble table direction = .ok assembly) :
    (tree.All fun item => item.isImpassable = false) → assembly.machine.Trim := by
  have hlabel : ∀ (quantifier : Quantifier) (label : Label α),
      (Assembly.ofLabel quantifier label).machine.Trim := fun quantifier label =>
    Machine.trim_repeated (Machine.trim_single label) (Machine.framed_single label) quantifier
  apply assemble_induction (motive := fun tree assembly =>
    (tree.All fun item => item.isImpassable = false) → assembly.machine.Trim) _ _ _ _ h
  · intro tree label _ _ _
    exact hlabel _ label
  · intro content mark label _ _ _
    exact hlabel _ label
  · intro children mark parts _ hparts hall
    have hmachines := trim_of_parts (all_iff.1 hall).2 hparts
    have hframed := fun machine hmem => (hmachines machine hmem).1
    exact Machine.trim_repeated (Machine.trim_inSequence hmachines)
      (Machine.framed_inSequence hframed) _
  · intro children mark parts hmark hparts hall
    have hmachines := trim_of_parts (all_iff.1 hall).2 hparts
    have hframed := fun machine hmem => (hmachines machine hmem).1
    have hne : parts.map Assembly.machine ≠ [] := by
      intro hnone
      rw [List.map_eq_nil_iff] at hnone
      subst hnone
      cases hparts
      have himpassable := (all_iff.1 hall).1
      rw [isImpassable, hmark] at himpassable
      cases himpassable
    exact Machine.trim_repeated (Machine.trim_oneOf hne hmachines)
      (Machine.framed_oneOf hframed) _

end Tree

namespace Automaton

variable {α : Type} [Token α] {table : MacroTable α} {direction : Direction}

/--
Every machine of an automaton, its own and those of its groups, has a frame: its start and its
accepting state are two states, its arcs lead to states, none of them to the start, and none of them
leaves the accepting state. And it is trim, unless some item of the tree is impassable.
-/
theorem machines_framed_and_trim {tree : Tree} {automaton : Automaton α}
    (h : ofTree tree table direction = .ok automaton) :
    ∀ machine ∈ automaton.machine :: automaton.groups,
      machine.Framed ∧ ((tree.All fun item => item.isImpassable = false) → machine.Trim) := by
  obtain ⟨assembly, hassembly, rfl⟩ := ofTree_eq_ok_iff.1 h
  intro machine hmachine
  rcases List.mem_cons.1 hmachine with rfl | hgroup
  · exact ⟨Tree.framed_of_assemble hassembly, Tree.trim_of_assemble hassembly⟩
  · obtain ⟨number, hnumber, rfl⟩ := List.mem_iff_getElem.1 hgroup
    obtain ⟨hlength, hgroups⟩ := List.forall₂_iff_get.1 (Tree.groups_of_assemble hassembly)
    have hitem : number < tree.groupItems.length := by
      rw [hlength]
      exact hnumber
    obtain ⟨own, hown, hmachine⟩ := hgroups number hitem hnumber
    have hmem : tree.groupItems[number] ∈ tree.groupItems := List.getElem_mem hitem
    have hframed := Tree.framed_of_assemble hown
    have htrim := Tree.trim_of_assemble hown
    rw [hmachine] at hframed htrim
    exact ⟨hframed, fun hall => htrim (Tree.all_of_mem_groupItems hmem hall)⟩

/-- A repeated choice with a branch that sees nothing, and a negated choice between no branches. -/
theorem trim_of_repeated_choice :
    let tree := Tree.sequence
      [.alternation [.leaf (.literal ['a']) .plain, .sequence [] ⟨false, .zeroOrMore⟩]
          ⟨false, .oneOrMore⟩,
        .alternation [] ⟨true, .optional⟩] .plain
    ∃ automaton : Automaton Char, ofTree tree ∅ .backward = .ok automaton ∧
      automaton.groups.length = 3 ∧
      ∀ machine ∈ automaton.machine :: automaton.groups,
        machine.Framed ∧ machine.Trim := by
  intro tree
  have hbuilt : ∃ automaton : Automaton Char, ofTree tree ∅ .backward = .ok automaton ∧
      automaton.groups.length = 3 := ⟨_, rfl, rfl⟩
  obtain ⟨automaton, h, hlength⟩ := hbuilt
  have hpassable : tree.All fun item => item.isImpassable = false := by
    simp only [tree, Tree.All, Tree.AllEach]
    decide
  refine ⟨automaton, h, hlength, ?_⟩
  intro machine hmachine
  obtain ⟨hframed, htrim⟩ := machines_framed_and_trim h machine hmachine
  exact ⟨hframed, htrim hpassable⟩

end Automaton

end Motif
