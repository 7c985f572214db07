import Std.Data.ExtTreeMap
import Motif.Proofs.Placement

/-!
# Groups

The groups of a tree are its bracketed items below the top that stand outside all negated items. An
automaton keeps for each of them the machine that the item has by itself. A construction that counts
them takes the number of a group before its content is built and keeps the machine under that number
once it is finished; the groups then bear the numbers from zero on in the order in which they begin.
-/

namespace Motif

variable {α : Type}

/-! ## The items that count as groups -/

namespace Tree

mutual

/--
The items of a tree in the order in which they begin, each with whether it stands inside a negated
item; `inside` says so of the tree as a whole.
-/
def items (inside : Bool) : Tree → List (Bool × Tree)
  | .leaf content mark => [(inside, .leaf content mark)]
  | .sequence children mark =>
      (inside, .sequence children mark) :: itemsEach (inside || mark.negated) children
  | .alternation children mark =>
      (inside, .alternation children mark) :: itemsEach (inside || mark.negated) children

def itemsEach (inside : Bool) : List Tree → List (Bool × Tree)
  | [] => []
  | child :: rest => items inside child ++ itemsEach inside rest

end

/-- An item, if it is bracketed and does not stand inside a negated one. -/
def asGroup? (found : Bool × Tree) : Option Tree :=
  if found.1 || found.2.isLeaf then none else some found.2

/--
The bracketed items below the top that stand outside all negated items, in the order in which they
begin.
-/
def groupItems (tree : Tree) : List Tree :=
  (tree.items false).tail.filterMap asGroup?

theorem items_eq (inside : Bool) (tree : Tree) :
    tree.items inside =
      (inside, tree) :: itemsEach (inside || tree.mark.negated) tree.children := by
  cases tree with
  | leaf content mark => simp [items, itemsEach, children]
  | sequence children mark => rfl
  | alternation children mark => rfl

theorem itemsEach_eq_flatMap (inside : Bool) (trees : List Tree) :
    itemsEach inside trees = trees.flatMap (items inside) := by
  induction trees with
  | nil => simp [itemsEach]
  | cons child rest ih => simp [itemsEach, ih]

theorem inside_of_mem_items {tree : Tree} {found : Bool × Tree} (h : found ∈ tree.items true) :
    found.1 = true := by
  induction tree using children_induction with
  | item tree ih =>
      rw [items_eq, Bool.true_or, itemsEach_eq_flatMap, List.mem_cons, List.mem_flatMap] at h
      rcases h with rfl | ⟨child, hchild, hfound⟩
      · rfl
      · exact ih child hchild hfound

theorem filterMap_items_of_inside (tree : Tree) : (tree.items true).filterMap asGroup? = [] := by
  refine List.filterMap_eq_nil_iff.2 fun found hfound => ?_
  rw [asGroup?, inside_of_mem_items hfound]
  rfl

theorem groupItems_of_negated {tree : Tree} (h : tree.mark.negated = true) :
    tree.groupItems = [] := by
  rw [groupItems, items_eq, List.tail_cons, h, Bool.or_true, itemsEach_eq_flatMap,
    List.filterMap_flatMap, List.flatMap_eq_nil_iff]
  intro child _
  exact filterMap_items_of_inside child

theorem groupItems_of_not_negated {tree : Tree} (h : tree.mark.negated = false) :
    tree.groupItems =
      tree.children.flatMap fun child => (asGroup? (false, child)).toList ++ child.groupItems := by
  rw [groupItems, items_eq, List.tail_cons, h, Bool.or_false, itemsEach_eq_flatMap,
    List.filterMap_flatMap]
  apply List.flatMap_congr
  intro child _
  rw [groupItems, items_eq, List.tail_cons, List.filterMap_cons]
  cases asGroup? (false, child) <;> rfl

/-! ## The machines that are kept -/

variable [Token α] {table : MacroTable α} {direction : Direction}

/-- The groups of children are kept for the children one after another. -/
theorem groups_of_parts {children : List Tree} {parts : List (Assembly α)}
    (h : List.Forall₂ (fun child part => ∃ own, assemble table direction child = .ok own ∧
      List.Forall₂ (fun item group => ∃ own, assemble table direction item = .ok own ∧
        own.machine = group) child.groupItems own.groups ∧
          part = own.record child.isLeaf) children parts) :
    List.Forall₂ (fun item group => ∃ own, assemble table direction item = .ok own ∧
      own.machine = group)
      (children.flatMap fun child => (asGroup? (false, child)).toList ++ child.groupItems)
      (parts.flatMap Assembly.groups) := by
  induction h with
  | nil => exact List.Forall₂.nil
  | @cons child part _ _ hchild _ ih =>
      obtain ⟨own, hown, hgroups, rfl⟩ := hchild
      rw [List.flatMap_cons, List.flatMap_cons]
      apply List.rel_append _ ih
      cases hleaf : child.isLeaf with
      | true =>
          simp only [asGroup?, hleaf, Bool.or_true, if_true, Option.toList_none, List.nil_append,
            Assembly.record]
          exact hgroups
      | false =>
          simp only [asGroup?, hleaf, Bool.or_false, Bool.false_eq_true, if_false,
            Option.toList_some, List.singleton_append, Assembly.record]
          exact List.Forall₂.cons ⟨own, hown, rfl⟩ hgroups

/-- What is kept for the groups of a tree are the machines that they have by themselves. -/
theorem groups_of_assemble {tree : Tree} {assembly : Assembly α}
    (h : tree.assemble table direction = .ok assembly) :
    List.Forall₂ (fun item group => ∃ own, assemble table direction item = .ok own ∧
      own.machine = group) tree.groupItems assembly.groups := by
  apply assemble_induction (motive := fun tree assembly =>
    List.Forall₂ (fun item group => ∃ own, assemble table direction item = .ok own ∧
      own.machine = group) tree.groupItems assembly.groups) _ _ _ _ h
  · intro tree label hmark _
    rw [groupItems_of_negated hmark]
    exact List.Forall₂.nil
  · intro content mark label _ _
    exact List.Forall₂.nil
  · intro children mark parts hmark hparts
    have hitems : (Tree.sequence children mark).groupItems = children.flatMap _ :=
      groupItems_of_not_negated hmark
    rw [hitems]
    exact groups_of_parts hparts
  · intro children mark parts hmark hparts
    have hitems : (Tree.alternation children mark).groupItems = children.flatMap _ :=
      groupItems_of_not_negated hmark
    rw [hitems]
    exact groups_of_parts hparts

end Tree

/-! ## Groups under their numbers -/

/-- A table of machines with further ones under the numbers from `next` on. -/
def keepFrom (next : Nat) (kept : Std.ExtTreeMap Nat (Machine α)) :
    List (Machine α) → Std.ExtTreeMap Nat (Machine α)
  | [] => kept
  | group :: rest => keepFrom (next + 1) (kept.insert next group) rest

theorem keepFrom_append {groups : List (Machine α)} (others : List (Machine α)) :
    ∀ {next : Nat} {kept : Std.ExtTreeMap Nat (Machine α)},
      keepFrom next kept (groups ++ others) =
        keepFrom (next + groups.length) (keepFrom next kept groups) others := by
  induction groups with
  | nil => exact rfl
  | cons group rest ih =>
      intro next kept
      rw [List.cons_append, keepFrom, keepFrom, ih, List.length_cons]
      congr 1
      omega

theorem insert_keepFrom {groups : List (Machine α)} {number : Nat} (machine : Machine α) :
    ∀ {next : Nat} {kept : Std.ExtTreeMap Nat (Machine α)}, number < next →
      (keepFrom next kept groups).insert number machine =
        keepFrom next (kept.insert number machine) groups := by
  induction groups with
  | nil => exact fun _ => rfl
  | cons group rest ih =>
      intro next kept h
      have hswap : (kept.insert next group).insert number machine =
          (kept.insert number machine).insert next group := by
        apply Std.ExtTreeMap.ext_getElem?
        intro other
        simp only [Std.ExtTreeMap.getElem?_insert, Nat.compare_eq_eq]
        by_cases hnumber : number = other
        · have hne : ¬ next = other := by omega
          simp [hnumber, hne]
        · simp [hnumber]
      rw [keepFrom, keepFrom, ih (by omega), hswap]

theorem getElem?_keepFrom {groups : List (Machine α)} :
    ∀ {next : Nat} {kept : Std.ExtTreeMap Nat (Machine α)} {number : Nat},
      (keepFrom next kept groups)[number]? =
        if number < next then kept[number]?
        else groups[number - next]?.or kept[number]? := by
  induction groups with
  | nil =>
      intro next kept number
      simp [keepFrom]
  | cons group rest ih =>
      intro next kept number
      rw [keepFrom, ih, Std.ExtTreeMap.getElem?_insert]
      simp only [Nat.compare_eq_eq]
      rcases Nat.lt_trichotomy number next with hlt | rfl | hlt
      · have hne : ¬ next = number := by omega
        have hnext : number < next + 1 := by omega
        simp [hlt, hne, hnext]
      · simp
      · have hne : ¬ next = number := by omega
        have hnext : ¬ number < next + 1 := by omega
        have hlater : ¬ number < next := by omega
        have hsub : number - next = number - (next + 1) + 1 := by omega
        simp [hne, hnext, hlater, hsub]

/--
A machine under construction: the graph so far, the number that the next group takes, and the groups
that are kept so far under their numbers.
-/
structure Draft (α : Type) where
  graph : Graph α
  next : Nat
  kept : Std.ExtTreeMap Nat (Machine α)

namespace Draft

instance : EmptyCollection (Draft α) :=
  ⟨⟨∅, 0, ∅⟩⟩

/-- The draft with a machine that was built in its graph, and the states between which it runs. -/
def place (draft : Draft α) (machine : Machine α) : Draft α × Fragment :=
  ({ draft with graph := machine.graph }, ⟨machine.start, machine.accept⟩)

/-- Begin a group: it takes its number, and its machine is built in a graph of its own. -/
def beginGroup (draft : Draft α) : Draft α :=
  { draft with graph := ∅, next := draft.next + 1 }

/--
End the group that began in `outer`: its graph is copied behind the outer one, and its machine is
kept under the number that it took.
-/
def endGroup (outer inner : Draft α) (fragment : Fragment) : Draft α × Fragment :=
  ({ inner with
      graph := outer.graph.append inner.graph
      kept := inner.kept.insert outer.next ⟨inner.graph, fragment.start, fragment.accept⟩ },
    ⟨fragment.start + outer.graph.size, fragment.accept + outer.graph.size⟩)

/-- Add a child, where `build` adds it to a given draft: as a group, unless it is a leaf. -/
def addChild (isLeaf : Bool) (draft : Draft α)
    (build : Draft α → Except AssemblyFault (Draft α × Fragment)) :
    Except AssemblyFault (Draft α × Fragment) :=
  if isLeaf then
    build draft
  else do
    let (inner, fragment) ← build draft.beginGroup
    .ok (draft.endGroup inner fragment)

/-- The draft with another graph and with further groups under the next numbers. -/
def grow (draft : Draft α) (graph : Graph α) (groups : List (Machine α)) : Draft α :=
  ⟨graph, draft.next + groups.length, keepFrom draft.next draft.kept groups⟩

/-- The draft with the groups of an assembly, and with its machine. -/
def finish (draft : Draft α) (assembly : Assembly α) : Draft α × Fragment :=
  (draft.grow assembly.machine.graph assembly.groups).place assembly.machine

theorem grow_grow (draft : Draft α) (graph graph' : Graph α) (groups others : List (Machine α)) :
    (draft.grow graph groups).grow graph' others = draft.grow graph' (groups ++ others) := by
  simp only [grow, keepFrom_append, List.length_append, Nat.add_assoc]

theorem endGroup_finish (draft : Draft α) (part : Assembly α) :
    draft.endGroup (draft.beginGroup.finish part).1 (draft.beginGroup.finish part).2 =
      draft.finish ⟨part.machine.after draft.graph, part.machine :: part.groups⟩ := by
  have hkept : (keepFrom (draft.next + 1) draft.kept part.groups).insert draft.next part.machine =
      keepFrom (draft.next + 1) (draft.kept.insert draft.next part.machine) part.groups :=
    insert_keepFrom part.machine (Nat.lt_succ_self draft.next)
  have hnext : draft.next + 1 + part.groups.length = draft.next + (part.groups.length + 1) := by
    omega
  simp only [endGroup, finish, beginGroup, place, grow, Machine.after, keepFrom, hkept, hnext,
    List.length_cons]

end Draft

namespace Tree

variable [Token α] (table : MacroTable α) (direction : Direction)

mutual

/-- Build a tree in a draft. The states between which it runs come with the new draft. -/
def construct (draft : Draft α) : Tree → Except AssemblyFault (Draft α × Fragment)
  | .leaf content mark => do
      let label ←
        if mark.negated then exclusionLabel table direction (Tree.leaf content mark).choices
        else content.label table direction
      .ok (draft.place ((draft.graph.addArc label).repeated mark.quantifier))
  | .sequence children mark =>
      if mark.negated then do
        let label ← exclusionLabel table direction (Tree.sequence children mark).choices
        .ok (draft.place ((draft.graph.addArc label).repeated mark.quantifier))
      else do
        let (draft, fragments) ← constructEach draft children
        .ok (draft.place ((draft.graph.inRow fragments).repeated mark.quantifier))
  | .alternation children mark =>
      if mark.negated then do
        let label ← exclusionLabel table direction (Tree.alternation children mark).choices
        .ok (draft.place ((draft.graph.addArc label).repeated mark.quantifier))
      else do
        let start := draft.graph.size
        let accept := draft.graph.size + 1
        let framed := { draft with graph := draft.graph.newState.newState }
        let draft ← constructBranches start accept framed children
        .ok (draft.place (Machine.repeated mark.quantifier ⟨draft.graph, start, accept⟩))

def constructEach (draft : Draft α) :
    List Tree → Except AssemblyFault (Draft α × List Fragment)
  | [] => .ok (draft, [])
  | child :: rest => do
      let (draft, fragment) ← draft.addChild child.isLeaf fun draft => construct draft child
      let (draft, fragments) ← constructEach draft rest
      .ok (draft, fragment :: fragments)

/-- Build the children of an alternation, each with its arcs from `start` and to `accept`. -/
def constructBranches (start accept : Nat) (draft : Draft α) :
    List Tree → Except AssemblyFault (Draft α)
  | [] => .ok draft
  | child :: rest => do
      let (draft, fragment) ← draft.addChild child.isLeaf fun draft => construct draft child
      let joined := (draft.graph.connect start .epsilon fragment.start).connect
        fragment.accept .epsilon accept
      constructBranches start accept { draft with graph := joined } rest

end

end Tree

namespace Tree

variable [Token α] {table : MacroTable α} {direction : Direction}

theorem addChild_eq {child : Tree} {draft : Draft α}
    (h : ∀ draft, construct table direction draft child =
      (build .apart table direction draft.graph child).map draft.finish) :
    (draft.addChild child.isLeaf fun draft => construct table direction draft child) =
      (Placement.apart.settle child.isLeaf draft.graph fun graph =>
        build .apart table direction graph child).map draft.finish := by
  cases hleaf : child.isLeaf with
  | true => exact h draft
  | false =>
      rw [Draft.addChild, if_neg (by simp), Placement.settle, h]
      simp only [Draft.beginGroup]
      cases build .apart table direction ∅ child with
      | error fault => rfl
      | ok part => exact congrArg Except.ok (Draft.endGroup_finish draft part)

theorem constructEach_eq {children : List Tree}
    (h : ∀ child ∈ children, ∀ draft,
      construct table direction draft child =
        (build .apart table direction draft.graph child).map draft.finish) :
    ∀ draft, constructEach table direction draft children =
      (buildEach .apart table direction draft.graph children).map fun (graph, fragments, groups) =>
        (draft.grow graph groups, fragments) := by
  induction children with
  | nil => exact fun _ => rfl
  | cons child rest ih =>
      intro draft
      rw [List.forall_mem_cons] at h
      rw [constructEach, buildEach, addChild_eq h.1]
      cases Placement.apart.settle child.isLeaf draft.graph fun graph =>
          build .apart table direction graph child with
      | error fault => rfl
      | ok own =>
          have hrest :
              constructEach table direction (draft.grow own.machine.graph own.groups) rest =
                (buildEach .apart table direction own.machine.graph rest).map
                  fun (graph, fragments, groups) =>
                    ((draft.grow own.machine.graph own.groups).grow graph groups, fragments) :=
            ih h.2 (draft.grow own.machine.graph own.groups)
          show (constructEach table direction (draft.grow own.machine.graph own.groups) rest >>=
            fun (draft, fragments) =>
              .ok (draft, ⟨own.machine.start, own.machine.accept⟩ :: fragments)) = _
          rw [hrest]
          simp only [bind, Except.bind, Except.map]
          cases buildEach .apart table direction own.machine.graph rest with
          | error fault => rfl
          | ok found => simp only [Draft.grow_grow]

theorem constructBranches_eq {children : List Tree} {start accept : Nat}
    (h : ∀ child ∈ children, ∀ draft,
      construct table direction draft child =
        (build .apart table direction draft.graph child).map draft.finish) :
    ∀ draft, constructBranches table direction start accept draft children =
      (buildBranches .apart table direction start accept draft.graph children).map
        fun (graph, groups) => draft.grow graph groups := by
  induction children with
  | nil => exact fun _ => rfl
  | cons child rest ih =>
      intro draft
      rw [List.forall_mem_cons] at h
      rw [constructBranches, buildBranches, addChild_eq h.1]
      cases Placement.apart.settle child.isLeaf draft.graph fun graph =>
          build .apart table direction graph child with
      | error fault => rfl
      | ok own =>
          let joined := (own.machine.graph.connect start .epsilon own.machine.start).connect
            own.machine.accept .epsilon accept
          have hrest : constructBranches table direction start accept
              (draft.grow joined own.groups) rest =
                (buildBranches .apart table direction start accept joined rest).map
                  fun (graph, groups) => (draft.grow joined own.groups).grow graph groups :=
            ih h.2 (draft.grow joined own.groups)
          show constructBranches table direction start accept
            (draft.grow joined own.groups) rest = _
          rw [hrest]
          simp only [bind, Except.bind, Except.map]
          cases buildBranches .apart table direction start accept joined rest with
          | error fault => rfl
          | ok found => simp only [Draft.grow_grow]

/-- Counting the groups changes neither the machine nor the groups that are kept. -/
theorem construct_eq {tree : Tree} :
    ∀ draft, construct table direction draft tree =
      (build .apart table direction draft.graph tree).map draft.finish := by
  have hlabel : ∀ {outcome : Except AssemblyFault (Label α)} {quantifier : Quantifier}
      {draft : Draft α},
      (outcome >>= fun label =>
        .ok (draft.place ((draft.graph.addArc label).repeated quantifier))) =
        (outcome >>= fun label =>
          (.ok ⟨(draft.graph.addArc label).repeated quantifier, []⟩ :
            Except AssemblyFault (Assembly α))).map draft.finish := by
    intro outcome quantifier draft
    cases outcome <;> rfl
  induction tree with
  | leaf content mark =>
      intro draft
      rw [construct, build]
      split <;> exact hlabel
  | sequence children mark ih =>
      intro draft
      rw [construct, build]
      split
      · exact hlabel
      · rw [constructEach_eq ih]
        cases buildEach .apart table direction draft.graph children <;> rfl
  | alternation children mark ih =>
      intro draft
      rw [construct, build]
      split
      · exact hlabel
      · dsimp only
        rw [constructBranches_eq ih]
        dsimp only
        cases buildBranches .apart table direction draft.graph.size (draft.graph.size + 1)
            draft.graph.newState.newState children <;> rfl

/-- Begun from nothing, a draft ends with the machine of the tree and with its groups, counted. -/
theorem construct_empty (tree : Tree) :
    construct table direction ∅ tree = (assemble table direction tree).map fun assembly =>
      (⟨assembly.machine.graph, assembly.groups.length, keepFrom 0 ∅ assembly.groups⟩,
        ⟨assembly.machine.start, assembly.machine.accept⟩) := by
  have hempty : (∅ : Draft α) = ⟨∅, 0, ∅⟩ := rfl
  rw [construct_eq, build_eq, hempty]
  cases assemble table direction tree with
  | error fault => rfl
  | ok assembly =>
      simp only [Except.map, Assembly.behind, Machine.after_empty, Placement.kept, Draft.finish,
        Draft.grow, Draft.place, Nat.zero_add]

end Tree

namespace Automaton

variable [DecidableEq α] [Token α] {table : MacroTable α} {direction : Direction}

/--
The groups of an automaton are complete and faithful. Built with its groups counted, the tree of the
automaton has the same machine and keeps the same groups, under the numbers below the number of its
group items; and what is kept under a number is the machine of the group item at that place by
itself, which finds in every input what the automaton of that item finds.
-/
theorem groups_eq_machines {tree : Tree} {automaton : Automaton α}
    (h : ofTree tree table direction = .ok automaton) :
    (∃ draft, tree.construct (table.orient direction) direction ∅ =
        .ok (draft, ⟨automaton.machine.start, automaton.machine.accept⟩) ∧
      draft.graph = automaton.machine.graph ∧
      (∀ number, number ∈ draft.kept ↔ number < tree.groupItems.length) ∧
      ∀ number : Nat, draft.kept[number]? = automaton.groups[number]?) ∧
    automaton.groups.length = tree.groupItems.length ∧
    ∀ (number : Nat) item, tree.groupItems[number]? = some item →
      ∃ own, ofTree item table direction = .ok own ∧
        automaton.groups[number]? = some own.machine ∧
        ∀ input start,
          own.machine.ends automaton.table input start = own.endsFrom input start := by
  obtain ⟨assembly, hassembly, rfl⟩ := ofTree_eq_ok_iff.1 h
  have hgroups := Tree.groups_of_assemble hassembly
  have hlength : assembly.groups.length = tree.groupItems.length := hgroups.length_eq.symm
  have hkept : ∀ number : Nat,
      (keepFrom 0 ∅ assembly.groups)[number]? = assembly.groups[number]? := by
    intro number
    simp [getElem?_keepFrom]
  have hnumbers : ∀ number, number ∈ keepFrom 0 ∅ assembly.groups ↔
      number < tree.groupItems.length := by
    intro number
    rw [← Std.ExtTreeMap.isSome_getElem?_iff_mem, hkept, ← hlength]
    simp
  have hconstruct : tree.construct (table.orient direction) direction ∅ =
      .ok (⟨assembly.machine.graph, assembly.groups.length, keepFrom 0 ∅ assembly.groups⟩,
        ⟨assembly.machine.start, assembly.machine.accept⟩) := by
    rw [Tree.construct_empty, hassembly]
    rfl
  refine ⟨⟨_, hconstruct, rfl, hnumbers, hkept⟩, hlength, ?_⟩
  intro number item hitem
  obtain ⟨hnumber, rfl⟩ := List.getElem?_eq_some_iff.1 hitem
  have hgroup : number < assembly.groups.length := by omega
  obtain ⟨own, hown, hmachine⟩ := (List.forall₂_iff_get.1 hgroups).2 number hnumber hgroup
  refine ⟨_, ofTree_eq_ok_iff.2 ⟨own, hown, rfl⟩, ?_, fun _ _ => rfl⟩
  rw [List.getElem?_eq_getElem hgroup]
  exact congrArg some hmachine.symm

/--
A repeated group with an alternation inside, a negated one with a group that does not count, and one
group more.
-/
theorem groups_of_nested_items :
    let tree := Tree.sequence
      [.sequence [.leaf (.literal ['m']) .plain, .alternation
          [.leaf (.literal ['b']) .plain, .leaf .wildcard .plain] ⟨false, .optional⟩]
          ⟨false, .zeroOrMore⟩,
        .alternation [.leaf (.literal ['x']) .plain,
          .sequence [.leaf (.literal ['y']) .plain] .plain] ⟨true, .oneOrMore⟩,
        .sequence [.leaf .inputEnd .plain] .plain] .plain
    let table := (∅ : MacroTable Char).insert ['m'] [['x', 'y'], ['z']]
    ∃ automaton, ofTree tree table .backward = .ok automaton ∧
      automaton.groups.length = 4 ∧
      ∀ (number : Nat) item, tree.groupItems[number]? = some item →
        ∃ own, ofTree item table .backward = .ok own ∧
          automaton.groups[number]? = some own.machine ∧
          ∀ input start,
            own.machine.ends automaton.table input start = own.endsFrom input start := by
  intro tree table
  have hbuilt : ∃ automaton, ofTree tree table .backward = .ok automaton := ⟨_, rfl⟩
  obtain ⟨automaton, h⟩ := hbuilt
  obtain ⟨-, hlength, hgroups⟩ := groups_eq_machines h
  exact ⟨automaton, h, hlength.trans (by decide), hgroups⟩

end Automaton

end Motif
