import Motif.Proofs.Meaning

/-!
# Building in one graph

A machine can also be built in place: every item adds its states and arcs to one graph that all
items share. A bracketed item below the top is either built in a graph of its own, which is then put
behind the shared one and kept as a group, or right in the shared graph. The machine is the same in
both cases, state by state and arc by arc, and so is the fault of a tree that has no machine.
-/

namespace Motif

variable {α : Type}

/-! ## Graphs behind graphs -/

namespace Graph

theorem ext {graph other : Graph α} (hsize : graph.size = other.size)
    (harcs : ∀ state, graph.arcsFrom state = other.arcsFrom state) : graph = other := by
  cases graph with
  | mk states =>
      cases other with
      | mk others =>
          congr 1
          refine Array.ext hsize fun state hleft hright => ?_
          have h := harcs state
          simpa [arcsFrom, hleft, hright] using h

@[simp] theorem empty_append (graph : Graph α) : (∅ : Graph α).append graph = graph := by
  refine ext (by simp) fun state => ?_
  have hshift : Arc.shift (α := α) 0 = id := rfl
  simp [arcsFrom_append, hshift]

@[simp] theorem append_empty (graph : Graph α) : graph.append ∅ = graph := by
  refine ext (by simp) fun state => ?_
  rw [arcsFrom_append]
  by_cases hstate : state < graph.size
  · rw [if_pos hstate]
  · rw [if_neg hstate, arcsFrom_of_size_le (Nat.le_of_not_lt hstate)]
    rfl

theorem append_assoc (first second third : Graph α) :
    (first.append second).append third = first.append (second.append third) := by
  refine ext (by simp only [size_append]; omega) fun state => ?_
  simp only [arcsFrom_append, size_append]
  by_cases hfirst : state < first.size
  · simp [hfirst, Nat.lt_add_right second.size hfirst]
  · by_cases hsecond : state < first.size + second.size
    · have hinner : state - first.size < second.size := by omega
      simp [hfirst, hsecond, hinner]
    · have hinner : ¬ state - first.size < second.size := by omega
      have hshift : Arc.shift (α := α) (first.size + second.size) =
          Arc.shift first.size ∘ Arc.shift second.size := by
        funext arc
        simp only [Arc.shift, Function.comp_apply, Nat.add_comm first.size, Nat.add_assoc]
      simp [hfirst, hsecond, hinner, hshift, Nat.sub_sub]

theorem append_newState (graph other : Graph α) :
    (graph.append other).newState = graph.append other.newState := by
  refine ext (by simp only [size_newState, size_append]; omega) fun state => ?_
  simp only [arcsFrom_newState, arcsFrom_append]

theorem append_connect (graph other : Graph α) (source : Nat) (label : Label α) (target : Nat) :
    (graph.append other).connect (source + graph.size) label (target + graph.size) =
      graph.append (other.connect source label target) := by
  refine ext (by simp) fun state => ?_
  simp only [arcsFrom_connect, arcsFrom_append, size_append]
  by_cases hstate : state < graph.size
  · have hne : ¬ state = source + graph.size := by omega
    simp [hstate, hne]
  · have heq : state = source + graph.size ↔ state - graph.size = source := by omega
    have hlt : source + graph.size < graph.size + other.size ↔ source < other.size := by omega
    simp only [hstate, heq, hlt]
    split
    · simp [Arc.shift]
    · rfl

theorem connect_append {graph : Graph α} (other : Graph α) {source : Nat} (label : Label α)
    (target : Nat) (h : source < graph.size) :
    (graph.connect source label target).append other =
      (graph.append other).connect source label target := by
  refine ext (by simp) fun state => ?_
  simp only [arcsFrom_connect, arcsFrom_append, size_append, size_connect]
  by_cases hstate : state < graph.size
  · simp [hstate, h, Nat.lt_add_right other.size h]
  · have hne : ¬ state = source := by omega
    simp [hstate, hne]

end Graph

/-! ## The construction in a shared graph -/

/-- Where a bracketed item below the top is built. -/
inductive Placement where
  /-- In a graph of its own, which is kept as a group and copied behind the shared graph. -/
  | apart
  /-- In the shared graph, like every other item. -/
  | inPlace
deriving DecidableEq

structure Fragment where
  start : Nat
  accept : Nat
deriving DecidableEq

/-- The machine in a graph that has another graph in front. -/
def Machine.after (graph : Graph α) (machine : Machine α) : Machine α :=
  ⟨graph.append machine.graph, machine.start + graph.size, machine.accept + graph.size⟩

namespace Graph

/-- The graph with two more states and an arc from the one to the other. -/
def addArc (graph : Graph α) (label : Label α) : Machine α :=
  ⟨graph.newState.newState.connect graph.size label (graph.size + 1), graph.size, graph.size + 1⟩

/-- The graph with arcs that see nothing, from `accept` on through the fragments in their order. -/
def chainFrom (graph : Graph α) (accept : Nat) : List Fragment → Graph α
  | [] => graph
  | fragment :: rest =>
      (graph.connect accept .epsilon fragment.start).chainFrom fragment.accept rest

/-- The fragments of a graph one after another; for none of them, an arc that sees nothing. -/
def inRow (graph : Graph α) : List Fragment → Machine α
  | [] => graph.addArc .epsilon
  | first :: rest =>
      ⟨graph.chainFrom first.accept rest, first.start, (rest.getLastD first).accept⟩

end Graph

/--
Add a child to the shared graph, where `build` adds it to a given one. Kept apart, it is built from
an empty graph and counts as a group, before its own groups, unless it is a leaf.
-/
def Placement.settle (placement : Placement) (isLeaf : Bool) (graph : Graph α)
    (build : Graph α → Except AssemblyFault (Assembly α)) :
    Except AssemblyFault (Assembly α) :=
  match placement, isLeaf with
  | .apart, false => do
      let part ← build ∅
      .ok ⟨part.machine.after graph, part.machine :: part.groups⟩
  | _, _ => build graph

namespace Tree

variable [Token α] (placement : Placement) (table : MacroTable α) (direction : Direction)

mutual

/--
Add a tree to a graph. The machine stands in the larger graph; the groups are those that were built
apart.
-/
def build (graph : Graph α) : Tree → Except AssemblyFault (Assembly α)
  | .leaf content mark => do
      let label ←
        if mark.negated then exclusionLabel table direction (Tree.leaf content mark).choices
        else content.label table direction
      .ok ⟨(graph.addArc label).repeated mark.quantifier, []⟩
  | .sequence children mark =>
      if mark.negated then do
        let label ← exclusionLabel table direction (Tree.sequence children mark).choices
        .ok ⟨(graph.addArc label).repeated mark.quantifier, []⟩
      else do
        let (graph, fragments, groups) ← buildEach graph children
        .ok ⟨(graph.inRow fragments).repeated mark.quantifier, groups⟩
  | .alternation children mark =>
      if mark.negated then do
        let label ← exclusionLabel table direction (Tree.alternation children mark).choices
        .ok ⟨(graph.addArc label).repeated mark.quantifier, []⟩
      else do
        let start := graph.size
        let accept := graph.size + 1
        let (graph, groups) ← buildBranches start accept graph.newState.newState children
        .ok ⟨Machine.repeated mark.quantifier ⟨graph, start, accept⟩, groups⟩

/-- Add the children of a sequence, with no arcs yet from each to the next one. -/
def buildEach (graph : Graph α) :
    List Tree → Except AssemblyFault (Graph α × List Fragment × List (Machine α))
  | [] => .ok (graph, [], [])
  | child :: rest => do
      let ⟨machine, own⟩ ← placement.settle child.isLeaf graph fun graph => build graph child
      let (graph, fragments, groups) ← buildEach machine.graph rest
      .ok (graph, ⟨machine.start, machine.accept⟩ :: fragments, own ++ groups)

/-- Add the children of an alternation, each with its arcs from `start` and to `accept`. -/
def buildBranches (start accept : Nat) (graph : Graph α) :
    List Tree → Except AssemblyFault (Graph α × List (Machine α))
  | [] => .ok (graph, [])
  | child :: rest => do
      let ⟨machine, own⟩ ← placement.settle child.isLeaf graph fun graph => build graph child
      let joined := (machine.graph.connect start .epsilon machine.start).connect
        machine.accept .epsilon accept
      let (graph, groups) ← buildBranches start accept joined rest
      .ok (graph, own ++ groups)

end

end Tree

/-! ## Machines behind a graph -/

namespace Machine

@[simp] theorem after_empty (machine : Machine α) : machine.after ∅ = machine := by
  simp [after]

theorem newState_newState (graph : Graph α) :
    graph.newState.newState = graph.append (disconnected : Machine α).graph := by
  have hempty : graph.newState.newState = (graph.append ∅).newState.newState := by
    rw [Graph.append_empty]
  rw [hempty, Graph.append_newState, Graph.append_newState]
  rfl

theorem addArc_eq (graph : Graph α) (label : Label α) :
    graph.addArc label = (single label).after graph := by
  have hconnect := Graph.append_connect graph (disconnected : Machine α).graph 0 label 1
  rw [Nat.zero_add, Nat.add_comm] at hconnect
  rw [Graph.addArc, newState_newState, hconnect, after, single, Nat.zero_add, Nat.add_comm]
  rfl

theorem addEpsilonIf_append (wanted : Bool) (source target : Nat) (graph other : Graph α) :
    addEpsilonIf wanted (source + graph.size) (target + graph.size) (graph.append other) =
      graph.append (addEpsilonIf wanted source target other) := by
  cases wanted with
  | false => rfl
  | true => exact Graph.append_connect graph other source .epsilon target

theorem repeated_after (quantifier : Quantifier) (graph : Graph α) (machine : Machine α) :
    (machine.after graph).repeated quantifier = (machine.repeated quantifier).after graph := by
  by_cases honce : quantifier = .once
  · rw [repeated, repeated, if_pos honce, if_pos honce]
  · have hsize : (graph.append machine.graph).size = machine.graph.size + graph.size := by
      rw [Graph.size_append, Nat.add_comm]
    have hnext : machine.graph.size + graph.size + 1 = machine.graph.size + 1 + graph.size := by
      omega
    simp only [repeated, if_neg honce, after, hsize, hnext, Graph.append_newState,
      Graph.append_connect, addEpsilonIf_append]

theorem addBranch_after (graph : Graph α) (machine branch : Machine α) :
    addBranch (machine.after graph) branch = (addBranch machine branch).after graph := by
  have hsize : (graph.append machine.graph).size = machine.graph.size + graph.size := by
    rw [Graph.size_append, Nat.add_comm]
  simp only [addBranch, after, hsize, Graph.append_assoc, ← Nat.add_assoc, Graph.append_connect]

theorem join_after (graph : Graph α) (first second : Machine α) :
    join (first.after graph) second = (join first second).after graph := by
  have hsize : (graph.append first.graph).size = first.graph.size + graph.size := by
    rw [Graph.size_append, Nat.add_comm]
  simp only [join, after, hsize, Graph.append_assoc, ← Nat.add_assoc, Graph.append_connect]

theorem start_foldl_addBranch {branches : List (Machine α)} :
    ∀ machine : Machine α, (branches.foldl addBranch machine).start = machine.start := by
  induction branches with
  | nil => exact fun _ => rfl
  | cons branch rest ih => exact fun machine => ih (addBranch machine branch)

theorem accept_foldl_addBranch {branches : List (Machine α)} :
    ∀ machine : Machine α, (branches.foldl addBranch machine).accept = machine.accept := by
  induction branches with
  | nil => exact fun _ => rfl
  | cons branch rest ih => exact fun machine => ih (addBranch machine branch)

theorem foldl_addBranch_after (graph : Graph α) {branches : List (Machine α)} :
    ∀ machine : Machine α,
      branches.foldl addBranch (machine.after graph) =
        (branches.foldl addBranch machine).after graph := by
  induction branches with
  | nil => exact fun _ => rfl
  | cons branch rest ih =>
      intro machine
      rw [List.foldl_cons, addBranch_after, ih, List.foldl_cons]

theorem oneOf_after (graph : Graph α) (branches : List (Machine α)) :
    (⟨(branches.foldl addBranch (disconnected.after graph)).graph, graph.size, graph.size + 1⟩ :
      Machine α) = (oneOf branches).after graph := by
  have hstart : (branches.foldl addBranch (disconnected.after graph)).start = graph.size :=
    (start_foldl_addBranch _).trans (Nat.zero_add _)
  have haccept : (branches.foldl addBranch (disconnected.after graph)).accept = graph.size + 1 :=
    (accept_foldl_addBranch _).trans (Nat.add_comm 1 _)
  rw [oneOf, ← foldl_addBranch_after, ← haccept, ← hstart]

theorem foldl_join_after (graph : Graph α) {machines : List (Machine α)} :
    ∀ first : Machine α,
      machines.foldl join (first.after graph) = (machines.foldl join first).after graph := by
  induction machines with
  | nil => exact fun _ => rfl
  | cons second rest ih =>
      intro first
      rw [List.foldl_cons, join_after, ih, List.foldl_cons]

def appendEach (graph : Graph α) (machines : List (Machine α)) : Graph α :=
  machines.foldl (fun graph machine => graph.append machine.graph) graph

/-- Where the machines run when their graphs are put one after another behind `offset` states. -/
def fragmentsFrom (offset : Nat) : List (Machine α) → List Fragment
  | [] => []
  | machine :: rest =>
      ⟨machine.start + offset, machine.accept + offset⟩ ::
        fragmentsFrom (offset + machine.graph.size) rest

theorem connect_appendEach {machines : List (Machine α)} {source : Nat} (label : Label α)
    (target : Nat) :
    ∀ {graph : Graph α}, source < graph.size →
      (appendEach graph machines).connect source label target =
        appendEach (graph.connect source label target) machines := by
  induction machines with
  | nil => exact fun _ => rfl
  | cons machine rest ih =>
      intro graph h
      have hlt : source < (graph.append machine.graph).size := by
        rw [Graph.size_append]
        omega
      have hrest := ih hlt
      rwa [← Graph.connect_append machine.graph label target h] at hrest

/-- Joining machines one by one is the same as putting all behind first and chaining them then. -/
theorem foldl_join_eq {machines : List (Machine α)}
    (h : ∀ machine ∈ machines, machine.Framed) :
    ∀ {first : Machine α} (start : Nat), first.accept < first.graph.size →
      machines.foldl join first =
        ⟨(appendEach first.graph machines).chainFrom first.accept
            (fragmentsFrom first.graph.size machines),
          first.start,
          ((fragmentsFrom first.graph.size machines).getLastD ⟨start, first.accept⟩).accept⟩ := by
  induction machines with
  | nil => exact fun _ _ => rfl
  | cons second rest ih =>
      intro first start hfirst
      rw [List.forall_mem_cons] at h
      have haccept := h.1.accept_lt
      have hsize : (join first second).graph.size = first.graph.size + second.graph.size := by
        simp [join]
      have hjoined : (join first second).accept < (join first second).graph.size := by
        rw [hsize]
        simp only [join]
        omega
      have hsource : first.accept < (first.graph.append second.graph).size := by
        rw [Graph.size_append]
        omega
      have hconnect : (appendEach (first.graph.append second.graph) rest).connect first.accept
          .epsilon (second.start + first.graph.size) =
            appendEach (join first second).graph rest :=
        connect_appendEach .epsilon (second.start + first.graph.size) hsource
      rw [List.foldl_cons, ih h.2 (second.start + first.graph.size) hjoined, hsize, fragmentsFrom,
        List.getLastD_cons, Graph.chainFrom, Machine.mk.injEq]
      exact ⟨congrArg (Graph.chainFrom · _ _) hconnect.symm, rfl, rfl⟩

theorem inRow_appendEach {machines : List (Machine α)}
    (h : ∀ machine ∈ machines, machine.Framed) (graph : Graph α) :
    (appendEach graph machines).inRow (fragmentsFrom graph.size machines) =
      (inSequence machines).after graph := by
  cases machines with
  | nil => exact addArc_eq graph .epsilon
  | cons first rest =>
      rw [List.forall_mem_cons] at h
      have haccept : (first.after graph).accept < (first.after graph).graph.size := by
        have hlt := h.1.accept_lt
        simp only [after, Graph.size_append]
        omega
      have hfold := foldl_join_eq h.2 (first.start + graph.size) haccept
      rw [foldl_join_after] at hfold
      rw [inSequence, hfold]
      simp only [after, Graph.size_append]
      rfl

end Machine

/-! ## What is built -/

/-- The groups that are kept: those of the items that were built apart. -/
def Placement.kept (placement : Placement) (groups : List (Machine α)) : List (Machine α) :=
  match placement with
  | .apart => groups
  | .inPlace => []

theorem Placement.kept_append (placement : Placement) (groups others : List (Machine α)) :
    placement.kept (groups ++ others) = placement.kept groups ++ placement.kept others := by
  cases placement <;> rfl

/-- An assembly as it stands behind a graph. -/
def Assembly.behind (placement : Placement) (graph : Graph α) (assembly : Assembly α) :
    Assembly α :=
  ⟨assembly.machine.after graph, placement.kept assembly.groups⟩

namespace Tree

variable [Token α] {placement : Placement} {table : MacroTable α} {direction : Direction}

/-- Wherever a child is built, it ends up behind the shared graph. -/
theorem settle_eq {child : Tree} {graph : Graph α}
    (h : ∀ graph, build placement table direction graph child =
      (assemble table direction child).map (Assembly.behind placement graph)) :
    placement.settle child.isLeaf graph (fun graph => build placement table direction graph child) =
      (assemble table direction child).map fun own =>
        (own.record child.isLeaf).behind placement graph := by
  cases placement with
  | inPlace =>
      rw [Placement.settle, h]
      · cases assemble table direction child <;> simp [Except.map, Assembly.behind, Placement.kept]
      · simp
  | apart =>
      cases hleaf : child.isLeaf with
      | true =>
          rw [Placement.settle, h]
          · rfl
          · simp
      | false =>
          rw [Placement.settle, h]
          cases assemble table direction child with
          | error fault => rfl
          | ok own =>
              simp [Except.map, bind, Except.bind, Assembly.behind, Assembly.record,
                Placement.kept]

theorem buildEach_eq {children : List Tree}
    (h : ∀ child ∈ children, ∀ graph,
      build placement table direction graph child =
        (assemble table direction child).map (Assembly.behind placement graph)) :
    ∀ graph, buildEach placement table direction graph children =
      (assembleEach table direction children).map fun parts =>
        (Machine.appendEach graph (parts.map Assembly.machine),
          Machine.fragmentsFrom graph.size (parts.map Assembly.machine),
          placement.kept (parts.flatMap Assembly.groups)) := by
  induction children with
  | nil =>
      intro graph
      cases placement <;> rfl
  | cons child rest ih =>
      intro graph
      rw [List.forall_mem_cons] at h
      rw [buildEach, assembleEach, settle_eq h.1]
      cases assemble table direction child with
      | error fault => rfl
      | ok own =>
          simp only [Except.map, bind, Except.bind, Assembly.behind, ih h.2]
          cases assembleEach table direction rest with
          | error fault => rfl
          | ok parts =>
              simp only [List.map_cons, List.flatMap_cons, placement.kept_append,
                Machine.fragmentsFrom, Assembly.machine_record, Machine.after, Graph.size_append]
              rfl

/-- The children of an alternation are added as branches of the machine in the shared graph. -/
theorem buildBranches_eq {children : List Tree}
    (h : ∀ child ∈ children, ∀ graph,
      build placement table direction graph child =
        (assemble table direction child).map (Assembly.behind placement graph)) :
    ∀ machine : Machine α,
      buildBranches placement table direction machine.start machine.accept machine.graph children =
        (assembleEach table direction children).map fun parts =>
          (((parts.map Assembly.machine).foldl Machine.addBranch machine).graph,
            placement.kept (parts.flatMap Assembly.groups)) := by
  induction children with
  | nil =>
      intro machine
      cases placement <;> rfl
  | cons child rest ih =>
      intro machine
      rw [List.forall_mem_cons] at h
      rw [buildBranches, assembleEach, settle_eq h.1]
      cases assemble table direction child with
      | error fault => rfl
      | ok own =>
          have hrest := ih h.2 (Machine.addBranch machine own.machine)
          simp only [Machine.addBranch] at hrest
          simp only [Except.map, bind, Except.bind, Assembly.behind, Machine.after,
            Assembly.machine_record, hrest]
          cases assembleEach table direction rest with
          | error fault => rfl
          | ok parts =>
              simp only [List.map_cons, List.flatMap_cons, placement.kept_append, List.foldl_cons,
                Assembly.machine_record]
              rfl

theorem framed_of_assembleEach {children : List Tree} {parts : List (Assembly α)}
    (h : assembleEach table direction children = .ok parts) :
    ∀ machine ∈ parts.map Assembly.machine, machine.Framed := by
  have hframed : List.Forall₂ (fun child part => ∃ own,
      assemble table direction child = .ok own ∧ own.machine.Framed ∧
        part = own.record child.isLeaf) children parts := by
    refine (forall₂_of_assembleEach h).imp ?_
    intro child part hpart
    obtain ⟨own, hown, heq⟩ := hpart
    exact ⟨own, hown, framed_of_assemble hown, heq⟩
  exact framed_of_parts hframed

omit [Token α] in
theorem behind_ofLabel (placement : Placement) (graph : Graph α) (quantifier : Quantifier)
    (label : Label α) :
    (Assembly.ofLabel quantifier label).behind placement graph =
      ⟨(graph.addArc label).repeated quantifier, []⟩ := by
  rw [Assembly.behind, Assembly.ofLabel, Machine.addArc_eq, Machine.repeated_after]
  cases placement <;> rfl

/-- Added to a graph, a tree stands behind it as it is assembled by itself. -/
theorem build_eq {tree : Tree} :
    ∀ graph, build placement table direction graph tree =
      (assemble table direction tree).map (Assembly.behind placement graph) := by
  have hlabel : ∀ {outcome : Except AssemblyFault (Label α)} {quantifier : Quantifier}
      {graph : Graph α},
      (outcome.map fun label => (⟨(graph.addArc label).repeated quantifier, []⟩ : Assembly α)) =
        (outcome >>= fun label => .ok (Assembly.ofLabel quantifier label)).map
          (Assembly.behind placement graph) := by
    intro outcome quantifier graph
    cases outcome with
    | error fault => rfl
    | ok label => exact congrArg Except.ok (behind_ofLabel placement graph quantifier label).symm
  induction tree with
  | leaf content mark =>
      intro graph
      rw [build, assemble]
      split <;> exact hlabel
  | sequence children mark ih =>
      intro graph
      rw [build, assemble]
      split
      · exact hlabel
      · rw [buildEach_eq ih]
        cases hparts : assembleEach table direction children with
        | error fault => rfl
        | ok parts =>
            have hrow := Machine.inRow_appendEach (framed_of_assembleEach hparts) graph
            simp only [Except.map, bind, Except.bind, hrow, Machine.repeated_after]
            rfl
  | alternation children mark ih =>
      intro graph
      rw [build, assemble]
      split
      · exact hlabel
      · have hbranches := buildBranches_eq ih (Machine.disconnected.after graph)
        have hstart : (Machine.disconnected.after graph).start = graph.size := Nat.zero_add _
        have haccept : (Machine.disconnected.after graph).accept = graph.size + 1 :=
          Nat.add_comm 1 _
        have hgraph : (Machine.disconnected.after graph).graph = graph.newState.newState :=
          (Machine.newState_newState graph).symm
        rw [hstart, haccept, hgraph] at hbranches
        dsimp only
        rw [hbranches]
        cases assembleEach table direction children with
        | error fault => rfl
        | ok parts =>
            have hone := Machine.oneOf_after graph (parts.map Assembly.machine)
            simp only [Except.map, bind, Except.bind, hone, Machine.repeated_after]
            rfl

end Tree

namespace Automaton

variable [Token α]

/--
Keeping groups does not change the machine: the automaton of a tree has the machine and the groups
that are built with every group apart, and its machine is the one that is built with every item in
place. A tree that has none fails in the same way however it is built.
-/
theorem machine_eq_inPlace (tree : Tree) (table : MacroTable α) (direction : Direction) :
    (ofTree tree table direction).map
        (fun automaton => (⟨automaton.machine, automaton.groups⟩ : Assembly α)) =
      tree.build .apart (table.orient direction) direction ∅ ∧
    (ofTree tree table direction).map Automaton.machine =
      (tree.build .inPlace (table.orient direction) direction ∅).map Assembly.machine := by
  rw [Tree.build_eq, Tree.build_eq, ofTree]
  cases tree.assemble (table.orient direction) direction with
  | error fault => exact ⟨rfl, rfl⟩
  | ok assembly =>
      simp [Except.map, bind, Except.bind, Assembly.behind, Placement.kept]

end Automaton

end Motif
