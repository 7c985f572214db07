import Mathlib.Algebra.Order.BigOperators.Group.List
import Mathlib.Algebra.Order.Group.Nat
import Mathlib.Tactic.Abel
import Motif.Proofs.Groups

/-!
# How large machines are

A graph is as large as its states and arcs are many, and these add up when graphs are put together.
So every item of a tree that is built, and every group among them, adds what it adds by itself to
the graph of the whole, at whatever depth it stands and although a group is kept a second time.
-/

namespace Motif

/-! ## Extents -/

@[ext]
structure Extent where
  states : Nat
  arcs : Nat
deriving DecidableEq

namespace Extent

instance : Zero Extent :=
  ⟨⟨0, 0⟩⟩

instance : Add Extent :=
  ⟨fun extent other => ⟨extent.states + other.states, extent.arcs + other.arcs⟩⟩

@[simp] theorem states_add (extent other : Extent) :
    (extent + other).states = extent.states + other.states :=
  rfl

@[simp] theorem arcs_add (extent other : Extent) :
    (extent + other).arcs = extent.arcs + other.arcs :=
  rfl

/-- Extents are added in each component. -/
instance : AddCommMonoid Extent where
  add_assoc _ _ _ := Extent.ext (Nat.add_assoc _ _ _) (Nat.add_assoc _ _ _)
  zero_add _ := Extent.ext (Nat.zero_add _) (Nat.zero_add _)
  add_zero _ := Extent.ext (Nat.add_zero _) (Nat.add_zero _)
  add_comm _ _ := Extent.ext (Nat.add_comm _ _) (Nat.add_comm _ _)
  nsmul := nsmulRec

theorem nsmul_eq (count : Nat) (extent : Extent) :
    count • extent = ⟨count * extent.states, count * extent.arcs⟩ := by
  induction count with
  | zero =>
      rw [zero_nsmul, Nat.zero_mul, Nat.zero_mul]
      rfl
  | succ count ih =>
      rw [succ_nsmul, ih]
      exact Extent.ext (Nat.succ_mul _ _).symm (Nat.succ_mul _ _).symm

theorem states_sum (extents : List Extent) : extents.sum.states = (extents.map states).sum := by
  induction extents with
  | nil => rfl
  | cons extent rest ih => rw [List.sum_cons, states_add, ih, List.map_cons, List.sum_cons]

end Extent

/-! ## The extent of a graph -/

namespace Graph

variable {α : Type}

def extent (graph : Graph α) : Extent :=
  ⟨graph.size, graph.arcTotal⟩

theorem extent_newState (graph : Graph α) : graph.newState.extent = graph.extent + ⟨1, 0⟩ := by
  refine Extent.ext (size_newState graph) ?_
  simp [extent, arcTotal, newState]

/-- An arc counts only if the state that it is to leave exists. -/
theorem extent_connect {graph : Graph α} {source : Nat} (h : source < graph.size) (label : Label α)
    (target : Nat) : (graph.connect source label target).extent = graph.extent + ⟨0, 1⟩ := by
  refine Extent.ext (size_connect graph source label target) ?_
  have hlength : source < graph.states.toList.length := h
  -- Only the arcs that leave `source` become more; the states before and after it stay as they are.
  have hsplit : graph.states.toList = graph.states.toList.take source ++
      graph.states.toList[source] :: graph.states.toList.drop (source + 1) := by
    rw [List.getElem_cons_drop, List.take_append_drop]
  have htotal := congrArg (fun states => states.flatten.length) hsplit
  simp only [List.flatten_append, List.flatten_cons, List.length_append] at htotal
  simp only [extent, arcTotal, connect, Extent.arcs_add, Array.toList_modify,
    List.modify_eq_take_cons_drop hlength, List.flatten_append, List.flatten_cons,
    List.length_append, List.length_singleton]
  omega

theorem extent_append (graph other : Graph α) :
    (graph.append other).extent = graph.extent + other.extent := by
  refine Extent.ext (size_append graph other) ?_
  simp [extent, arcTotal, append, List.length_flatten, Function.comp_def]

end Graph

/-! ## The extent of a machine that is put together -/

/-- What the ways around and back add. -/
def Quantifier.extent : Quantifier → Extent
  | .once => 0
  | .optional => ⟨2, 3⟩
  | .zeroOrMore => ⟨2, 4⟩
  | .oneOrMore => ⟨2, 3⟩

theorem Quantifier.states_extent_le (quantifier : Quantifier) : quantifier.extent.states ≤ 2 := by
  cases quantifier <;> decide

namespace Machine

variable {α : Type}

theorem extent_single (label : Label α) : (single label).graph.extent = ⟨2, 1⟩ :=
  rfl

theorem extent_disconnected : (disconnected : Machine α).graph.extent = ⟨2, 0⟩ :=
  rfl

theorem extent_join {first second : Machine α} (hfirst : first.Framed) :
    (join first second).graph.extent =
      first.graph.extent + second.graph.extent + ⟨0, 1⟩ := by
  have haccept : first.accept < (first.graph.append second.graph).size := by
    have hlt := hfirst.accept_lt
    rw [Graph.size_append]
    omega
  rw [join, Graph.extent_connect haccept, Graph.extent_append]

theorem extent_addBranch {machine branch : Machine α} (hmachine : machine.Framed)
    (hbranch : branch.Framed) :
    (addBranch machine branch).graph.extent =
      machine.graph.extent + branch.graph.extent + ⟨0, 2⟩ := by
  have hstart : machine.start < (machine.graph.append branch.graph).size := by
    have hlt := hmachine.start_lt
    rw [Graph.size_append]
    omega
  have haccept : branch.accept + machine.graph.size <
      ((machine.graph.append branch.graph).connect machine.start .epsilon
        (branch.start + machine.graph.size)).size := by
    have hlt := hbranch.accept_lt
    rw [Graph.size_connect, Graph.size_append]
    omega
  rw [addBranch, Graph.extent_connect haccept, Graph.extent_connect hstart, Graph.extent_append,
    add_assoc]
  rfl

theorem extent_foldl {combine : Machine α → Machine α → Machine α} {cost : Extent}
    (hframed : ∀ machine other, machine.Framed → other.Framed →
      (combine machine other).Framed)
    (hextent : ∀ machine other, machine.Framed → other.Framed →
      (combine machine other).graph.extent = machine.graph.extent + other.graph.extent + cost)
    {others : List (Machine α)} (hothers : ∀ other ∈ others, other.Framed) :
    ∀ machine, machine.Framed →
      (others.foldl combine machine).graph.extent =
        machine.graph.extent + (others.map fun other => other.graph.extent).sum +
          others.length • cost := by
  induction others with
  | nil => simp
  | cons other rest ih =>
      intro machine hmachine
      rw [List.forall_mem_cons] at hothers
      rw [List.foldl_cons, ih hothers.2 _ (hframed machine other hmachine hothers.1),
        hextent machine other hmachine hothers.1, List.map_cons, List.sum_cons, List.length_cons,
        succ_nsmul]
      abel

theorem extent_inSequence {machines : List (Machine α)}
    (h : ∀ machine ∈ machines, machine.Framed) :
    (inSequence machines).graph.extent =
      (if machines.isEmpty then ⟨2, 1⟩ else ⟨0, machines.length - 1⟩) +
        (machines.map fun machine => machine.graph.extent).sum := by
  cases machines with
  | nil => exact extent_single .epsilon
  | cons first rest =>
      rw [List.forall_mem_cons] at h
      have hrow := extent_foldl (fun _ _ => framed_join)
        (fun _ _ hmachine _ => extent_join hmachine) h.2 first h.1
      rw [inSequence, hrow, Extent.nsmul_eq, List.map_cons, List.sum_cons]
      simp [add_comm]

theorem extent_oneOf {branches : List (Machine α)}
    (h : ∀ branch ∈ branches, branch.Framed) :
    (oneOf branches).graph.extent =
      ⟨2, 2 * branches.length⟩ + (branches.map fun branch => branch.graph.extent).sum := by
  have hbranches := extent_foldl (fun _ _ => framed_addBranch) (fun _ _ => extent_addBranch) h
    disconnected framed_disconnected
  rw [oneOf, hbranches, extent_disconnected, Extent.nsmul_eq, add_right_comm]
  congr 1
  refine Extent.ext rfl ?_
  simp [Nat.mul_comm]

theorem extent_addEpsilonIf (wanted : Bool) {source : Nat} (target : Nat) {graph : Graph α}
    (h : source < graph.size) :
    (addEpsilonIf wanted source target graph).extent =
      graph.extent + if wanted then ⟨0, 1⟩ else 0 := by
  cases wanted with
  | false => exact (add_zero _).symm
  | true => exact Graph.extent_connect h .epsilon target

theorem extent_repeated {machine : Machine α} (h : machine.Framed) (quantifier : Quantifier) :
    (machine.repeated quantifier).graph.extent = machine.graph.extent + quantifier.extent := by
  by_cases honce : quantifier = .once
  · subst honce
    exact (add_zero _).symm
  · have hstart : machine.graph.size < machine.graph.newState.newState.size := by
      simp only [Graph.size_newState]
      omega
    have haccept : machine.accept < machine.graph.newState.newState.size :=
      Nat.lt_trans h.accept_lt hstart
    simp only [repeated, if_neg honce]
    rw [extent_addEpsilonIf, extent_addEpsilonIf, Graph.extent_connect, Graph.extent_connect,
      Graph.extent_newState, Graph.extent_newState]
    · cases quantifier with
      | once => exact absurd rfl honce
      | optional => rfl
      | zeroOrMore => rfl
      | oneOrMore => rfl
    all_goals simpa only [size_addEpsilonIf, Graph.size_connect]

end Machine

/-! ## The extent of a tree -/

namespace Tree

/--
What an item adds to the states and arcs of the items below it. A leaf, a negated item and a
sequence of no items are built as one arc between two states; any other sequence needs only the arcs
from each child to the next, and an alternation has two states and two arcs for each branch.
-/
def ownExtent : Tree → Extent
  | .leaf _ mark => ⟨2, 1⟩ + mark.quantifier.extent
  | .sequence children mark =>
      (if mark.negated || children.isEmpty then ⟨2, 1⟩ else ⟨0, children.length - 1⟩) +
        mark.quantifier.extent
  | .alternation children mark =>
      (if mark.negated then ⟨2, 1⟩ else ⟨2, 2 * children.length⟩) + mark.quantifier.extent

mutual

def extent : Tree → Extent
  | .leaf content mark => ownExtent (.leaf content mark)
  | .sequence children mark =>
      ownExtent (.sequence children mark) + if mark.negated then 0 else extentEach children
  | .alternation children mark =>
      ownExtent (.alternation children mark) + if mark.negated then 0 else extentEach children

def extentEach : List Tree → Extent
  | [] => 0
  | child :: rest => extent child + extentEach rest

end

theorem extentEach_eq_sum (trees : List Tree) : extentEach trees = (trees.map extent).sum := by
  induction trees with
  | nil => simp [extentEach]
  | cons child rest ih => simp [extentEach, ih]

theorem ownExtent_of_negated {tree : Tree} (h : tree.mark.negated = true) :
    tree.ownExtent = ⟨2, 1⟩ + tree.mark.quantifier.extent := by
  cases tree with
  | leaf content mark => rfl
  | sequence children mark =>
      change mark.negated = true at h
      rw [ownExtent, h]
      rfl
  | alternation children mark =>
      change mark.negated = true at h
      rw [ownExtent, h]
      rfl

theorem extent_of_negated {tree : Tree} (h : tree.mark.negated = true) :
    tree.extent = tree.ownExtent := by
  cases tree with
  | leaf content mark => rfl
  | sequence children mark =>
      change mark.negated = true at h
      rw [extent, h, if_pos rfl, add_zero]
  | alternation children mark =>
      change mark.negated = true at h
      rw [extent, h, if_pos rfl, add_zero]

theorem extent_of_not_negated {tree : Tree} (h : tree.mark.negated = false) :
    tree.extent = tree.ownExtent + (tree.children.map extent).sum := by
  cases tree with
  | leaf content mark => exact (add_zero _).symm
  | sequence children mark =>
      change mark.negated = false at h
      rw [extent, h, extentEach_eq_sum]
      rfl
  | alternation children mark =>
      change mark.negated = false at h
      rw [extent, h, extentEach_eq_sum]
      rfl

theorem states_ownExtent_le (tree : Tree) : tree.ownExtent.states ≤ 4 := by
  have hquantifier := tree.mark.quantifier.states_extent_le
  cases tree with
  | leaf content mark => exact Nat.add_le_add_left hquantifier 2
  | sequence children mark =>
      rw [ownExtent, Extent.states_add]
      split
      · exact Nat.add_le_add_left hquantifier 2
      · exact Nat.add_le_add (Nat.zero_le 2) hquantifier
  | alternation children mark =>
      rw [ownExtent, Extent.states_add]
      split
      · exact Nat.add_le_add_left hquantifier 2
      · exact Nat.add_le_add_left hquantifier 2

/-! ## The items that are built -/

/-- An item, if it does not stand inside a negated one. -/
def asBuilt? (found : Bool × Tree) : Option Tree :=
  if found.1 then none else some found.2

/-- The items that stand outside all negated items, the topmost one first. -/
def builtItems (tree : Tree) : List Tree :=
  (tree.items false).filterMap asBuilt?

theorem sizeAll_eq_sum (trees : List Tree) : sizeAll trees = (trees.map size).sum := by
  induction trees with
  | nil => simp [sizeAll]
  | cons child rest ih => simp [sizeAll, ih]

theorem length_items (inside : Bool) (tree : Tree) : (tree.items inside).length = tree.size := by
  induction tree using children_induction generalizing inside with
  | item tree ih =>
      have heach : ∀ inside, (tree.children.map fun child => (child.items inside).length) =
          tree.children.map size := fun inside =>
        List.map_congr_left fun child hchild => ih child hchild inside
      rw [items_eq, List.length_cons, itemsEach_eq_flatMap, List.length_flatMap, heach, size_eq,
        sizeAll_eq_sum, Nat.add_comm]

theorem length_builtItems_le (tree : Tree) : tree.builtItems.length ≤ tree.size := by
  rw [← length_items false tree]
  exact List.length_filterMap_le asBuilt? _

theorem builtItems_eq_cons (tree : Tree) : tree.builtItems = tree :: tree.builtItems.tail := by
  rw [builtItems, items_eq]
  rfl

theorem builtItems_of_negated {tree : Tree} (h : tree.mark.negated = true) :
    tree.builtItems = [tree] := by
  rw [builtItems, items_eq, List.filterMap_cons, Bool.false_or, h, itemsEach_eq_flatMap,
    List.filterMap_flatMap]
  refine congrArg (tree :: ·) (List.flatMap_eq_nil_iff.2 fun child _ => ?_)
  refine List.filterMap_eq_nil_iff.2 fun found hfound => ?_
  rw [asBuilt?, inside_of_mem_items hfound]
  rfl

theorem builtItems_of_not_negated {tree : Tree} (h : tree.mark.negated = false) :
    tree.builtItems = tree :: tree.children.flatMap builtItems := by
  rw [builtItems, items_eq, List.filterMap_cons, Bool.false_or, h, itemsEach_eq_flatMap,
    List.filterMap_flatMap]
  rfl

/-- A tree is built with what each of its items adds by itself. -/
theorem extent_eq_sum (tree : Tree) : tree.extent = (tree.builtItems.map ownExtent).sum := by
  induction tree using children_induction with
  | item tree ih =>
      cases h : tree.mark.negated with
      | true =>
          rw [extent_of_negated h, builtItems_of_negated h, List.map_singleton,
            List.sum_singleton]
      | false =>
          rw [extent_of_not_negated h, builtItems_of_not_negated h, List.map_cons, List.sum_cons,
            List.map_congr_left ih, List.flatMap_def, List.map_flatten, List.sum_flatten,
            List.map_map, List.map_map]
          rfl

theorem states_extent_le (tree : Tree) : tree.extent.states ≤ 4 * tree.size := by
  rw [extent_eq_sum, Extent.states_sum, List.map_map]
  calc (tree.builtItems.map (Extent.states ∘ ownExtent)).sum
      ≤ tree.builtItems.length * 4 := by
        rw [← List.length_map (Extent.states ∘ ownExtent)]
        refine List.sum_le_card_nsmul _ 4 fun states hstates => ?_
        obtain ⟨item, -, rfl⟩ := List.mem_map.1 hstates
        exact states_ownExtent_le item
    _ ≤ 4 * tree.size := by
        rw [Nat.mul_comm]
        exact Nat.mul_le_mul_left 4 (length_builtItems_le tree)

theorem builtItems_prefix_of_flatMap {trees : List Tree} {item : Tree}
    (h : ∀ tree ∈ trees, ∀ {before rest : List Tree},
      tree.builtItems = before ++ item :: rest → item.builtItems <+: item :: rest) :
    ∀ {before rest : List Tree}, trees.flatMap builtItems = before ++ item :: rest →
      item.builtItems <+: item :: rest := by
  induction trees with
  | nil =>
      intro before rest hbuilt
      exact absurd hbuilt.symm (List.append_ne_nil_of_right_ne_nil before (List.cons_ne_nil _ _))
  | cons tree others ih =>
      intro before rest hbuilt
      rw [List.forall_mem_cons] at h
      rw [List.flatMap_cons, List.append_eq_append_iff] at hbuilt
      -- The item stands among those of the other trees, or among those of the first one.
      rcases hbuilt with ⟨left, -, hothers⟩ | ⟨right, htree, hrest⟩
      · exact ih h.2 hothers
      · rcases List.cons_eq_append_iff.1 hrest with ⟨-, hothers⟩ | ⟨inner, rfl, rfl⟩
        · exact ih h.2 (hothers.trans (List.nil_append _).symm)
        · exact (h.1 htree).trans (List.prefix_append (item :: inner) _)

theorem builtItems_prefix {tree item : Tree} :
    ∀ {before rest : List Tree}, tree.builtItems = before ++ item :: rest →
      item.builtItems <+: item :: rest := by
  induction tree using children_induction with
  | item tree ih =>
      intro before rest hbuilt
      cases before with
      | nil =>
          rw [List.nil_append] at hbuilt
          have htop : tree = item := (List.cons.inj (tree.builtItems_eq_cons.symm.trans hbuilt)).1
          subst htop
          exact ⟨[], (List.append_nil _).trans hbuilt⟩
      | cons first before =>
          cases hnegated : tree.mark.negated with
          | true =>
              rw [builtItems_of_negated hnegated] at hbuilt
              simp at hbuilt
          | false =>
              rw [builtItems_of_not_negated hnegated] at hbuilt
              exact builtItems_prefix_of_flatMap ih (List.cons.inj hbuilt).2

/-- The groups are the bracketed items among those that are built, except the topmost one. -/
theorem filter_tail_builtItems (tree : Tree) :
    tree.builtItems.tail.filter (fun item => !item.isLeaf) = tree.groupItems := by
  have hasGroup : ∀ found : Bool × Tree,
      Option.filter (fun item => !item.isLeaf) (asBuilt? found) = asGroup? found := by
    rintro ⟨inside, item⟩
    cases inside with
    | true => rfl
    | false => cases h : item.isLeaf <;> simp [asBuilt?, asGroup?, Option.filter, h]
  rw [groupItems, builtItems, items_eq, List.filterMap_cons]
  exact List.filter_filterMap.trans (List.filterMap_congr fun found _ => hasGroup found)

/--
What is built for a group stands together among what is built for the tree, and the groups that
begin before it are those that have lower numbers.
-/
theorem exists_builtItems_append {tree item : Tree} {number : Nat}
    (h : tree.groupItems[number]? = some item) :
    ∃ before after, tree.builtItems = before ++ item.builtItems ++ after ∧
      before.tail.filter (fun other => !other.isLeaf) = tree.groupItems.take number := by
  obtain ⟨hnumber, hitem⟩ := List.getElem?_eq_some_iff.1 h
  have hgroups : tree.builtItems.tail.filter (fun other => !other.isLeaf) =
      tree.groupItems.take number ++ item :: tree.groupItems.drop (number + 1) := by
    rw [filter_tail_builtItems, ← hitem, List.getElem_cons_drop, List.take_append_drop]
  obtain ⟨left, right, htail, hleft, hright⟩ := List.filter_eq_append_iff.1 hgroups
  obtain ⟨leaves, rest, rfl, hleaves, -, -⟩ := List.filter_eq_cons_iff.1 hright
  have hbuilt : tree.builtItems = (tree :: left ++ leaves) ++ item :: rest := by
    rw [builtItems_eq_cons, htail, List.cons_append, List.cons_append, List.append_assoc]
  obtain ⟨after, hafter⟩ := builtItems_prefix hbuilt
  refine ⟨tree :: left ++ leaves, after, ?_, ?_⟩
  · rw [hbuilt, ← hafter]
    simp only [List.append_assoc]
  · rw [List.cons_append, List.tail_cons, List.filter_append, hleft,
      List.filter_eq_nil_iff.2 hleaves, List.append_nil]

/-! ## What is built -/

variable {α : Type} [Token α] {table : MacroTable α} {direction : Direction}

theorem extents_of_parts {children : List Tree} {parts : List (Assembly α)}
    (h : List.Forall₂ (fun child part => ∃ own, assemble table direction child = .ok own ∧
      own.machine.graph.extent = child.extent ∧ part = own.record child.isLeaf) children parts) :
    ((parts.map Assembly.machine).map fun machine => machine.graph.extent) =
      children.map extent := by
  induction h with
  | nil => rfl
  | cons hchild _ ih =>
      obtain ⟨own, -, hextent, rfl⟩ := hchild
      rw [List.map_cons, List.map_cons, ih, Assembly.machine_record, hextent, List.map_cons]

/-- The machine for a tree is as large as the tree says. -/
theorem extent_of_assemble {tree : Tree} {assembly : Assembly α}
    (h : tree.assemble table direction = .ok assembly) :
    assembly.machine.graph.extent = tree.extent := by
  have hlabel : ∀ (quantifier : Quantifier) (label : Label α),
      (Assembly.ofLabel quantifier label).machine.graph.extent = ⟨2, 1⟩ + quantifier.extent :=
    fun quantifier label => Machine.extent_repeated (Machine.framed_single label) quantifier
  apply assemble_induction (motive := fun tree assembly =>
    assembly.machine.graph.extent = tree.extent) _ _ _ _ h
  · intro tree label hmark _
    rw [hlabel, extent_of_negated hmark, ownExtent_of_negated hmark]
  · intro content mark label _ _
    exact hlabel mark.quantifier label
  · intro children mark parts hmark hparts
    have hframed := framed_of_children hparts
    have hlength : (parts.map Assembly.machine).length = children.length := by
      rw [List.length_map, hparts.length_eq]
    have hempty : (parts.map Assembly.machine).isEmpty = children.isEmpty := by
      cases hparts <;> rfl
    have hextent : (Tree.sequence children mark).extent = _ + (children.map extent).sum :=
      extent_of_not_negated hmark
    rw [Assembly.inSequence, Machine.extent_repeated (Machine.framed_inSequence hframed),
      Machine.extent_inSequence hframed, extents_of_parts hparts, hlength, hempty, hextent,
      ownExtent, hmark, Bool.false_or, add_right_comm]
  · intro children mark parts hmark hparts
    have hframed := framed_of_children hparts
    have hlength : (parts.map Assembly.machine).length = children.length := by
      rw [List.length_map, hparts.length_eq]
    have hextent : (Tree.alternation children mark).extent = _ + (children.map extent).sum :=
      extent_of_not_negated hmark
    rw [Assembly.oneOf, Machine.extent_repeated (Machine.framed_oneOf hframed),
      Machine.extent_oneOf hframed, extents_of_parts hparts, hlength, hextent, ownExtent, hmark,
      add_right_comm]
    rfl

end Tree

namespace Automaton

variable {α : Type} [Token α] {table : MacroTable α} {direction : Direction}

/--
The machine of an automaton has exactly the states and arcs that its tree counts, and at most four
states for each item. It has what each item that is built adds by itself, so the states of a group
are there once: the group is as large as its item counts, and the rest of the machine is what the
items before and after those of the group add, with as many groups begun before it as its number
says. And as much is added to whatever was built before, although each group is built apart, kept
and copied.
-/
theorem machine_extent_eq {tree : Tree} {automaton : Automaton α}
    (h : ofTree tree table direction = .ok automaton) :
    automaton.machine.graph.size = tree.extent.states ∧
    automaton.machine.graph.arcTotal = tree.extent.arcs ∧
    automaton.machine.graph.size ≤ 4 * tree.size ∧
    automaton.machine.graph.extent = (tree.builtItems.map Tree.ownExtent).sum ∧
    (∀ (number : Nat) item, tree.groupItems[number]? = some item →
      ∃ group before after, automaton.groups[number]? = some group ∧
        group.graph.extent = item.extent ∧
        tree.builtItems = before ++ item.builtItems ++ after ∧
        before.tail.filter (fun other => !other.isLeaf) = tree.groupItems.take number ∧
        automaton.machine.graph.extent =
          (before.map Tree.ownExtent).sum + group.graph.extent +
            (after.map Tree.ownExtent).sum) ∧
    ∀ draft : Draft α, ∃ built fragment,
      tree.construct (table.orient direction) direction draft = .ok (built, fragment) ∧
        built.graph.extent = draft.graph.extent + tree.extent := by
  obtain ⟨assembly, hassembly, rfl⟩ := ofTree_eq_ok_iff.1 h
  have hextent : assembly.machine.graph.extent = tree.extent :=
    Tree.extent_of_assemble hassembly
  have hstates : assembly.machine.graph.size = tree.extent.states :=
    congrArg Extent.states hextent
  have hsum := hextent.trans tree.extent_eq_sum
  refine ⟨hstates, congrArg Extent.arcs hextent, hstates.trans_le tree.states_extent_le, hsum, ?_,
    ?_⟩
  · intro number item hitem
    obtain ⟨hnumber, rfl⟩ := List.getElem?_eq_some_iff.1 hitem
    obtain ⟨hlength, hgroups⟩ := List.forall₂_iff_get.1 (Tree.groups_of_assemble hassembly)
    have hgroup : number < assembly.groups.length := hlength ▸ hnumber
    obtain ⟨own, hown, hmachine⟩ := hgroups number hnumber hgroup
    have hgroupExtent : assembly.groups[number].graph.extent =
        tree.groupItems[number].extent :=
      (congrArg (fun machine => machine.graph.extent) hmachine).symm.trans
        (Tree.extent_of_assemble hown)
    obtain ⟨before, after, hbuilt, hbefore⟩ := Tree.exists_builtItems_append hitem
    refine ⟨assembly.groups[number], before, after, List.getElem?_eq_getElem hgroup, hgroupExtent,
      hbuilt, hbefore, ?_⟩
    calc assembly.machine.graph.extent
        = ((before ++ tree.groupItems[number].builtItems ++ after).map Tree.ownExtent).sum := by
          rw [← hbuilt, hsum]
      _ = (before.map Tree.ownExtent).sum + assembly.groups[number].graph.extent +
            (after.map Tree.ownExtent).sum := by
          rw [hgroupExtent, Tree.extent_eq_sum, List.map_append, List.map_append, List.sum_append,
            List.sum_append]
  · intro draft
    let placed := draft.finish (assembly.behind .apart draft.graph)
    refine ⟨placed.1, placed.2, ?_, ?_⟩
    · rw [Tree.construct_eq, Tree.build_eq, hassembly]
      rfl
    · calc placed.1.graph.extent
          = draft.graph.extent + assembly.machine.graph.extent :=
            Graph.extent_append draft.graph assembly.machine.graph
        _ = draft.graph.extent + tree.extent := by rw [hextent]

/--
A repeated group with an optional choice inside, of which one branch is empty, a negated choice with
a group that is not built, and one group more.
-/
theorem machine_extent_of_choice_in_group :
    let tree := Tree.sequence
      [.sequence [.leaf (.literal ['m']) .plain, .alternation
          [.leaf (.literal ['b']) .plain, .sequence [] .plain] ⟨false, .optional⟩]
          ⟨false, .zeroOrMore⟩,
        .alternation [.leaf (.literal ['x']) .plain,
          .sequence [.leaf (.literal ['y']) .plain] .plain] ⟨true, .oneOrMore⟩,
        .sequence [.leaf .inputEnd .plain] .plain] .plain
    let table := (∅ : MacroTable Char).insert ['m'] [['x', 'y'], ['z']]
    ∃ automaton, ofTree tree table .backward = .ok automaton ∧
      automaton.machine.graph.size = 18 ∧ automaton.machine.graph.arcTotal = 22 ∧
      automaton.machine.graph.size ≤ 4 * 12 ∧
      ∃ (choice : Machine Char) (before after : List Tree),
        automaton.groups[1]? = some choice ∧
        choice.graph.extent = ⟨8, 9⟩ ∧
        automaton.machine.graph.extent =
          (before.map Tree.ownExtent).sum + choice.graph.extent +
            (after.map Tree.ownExtent).sum := by
  intro tree table
  have hbuilt : ∃ automaton, ofTree tree table .backward = .ok automaton := ⟨_, rfl⟩
  obtain ⟨automaton, h⟩ := hbuilt
  obtain ⟨hstates, harcs, hbound, -, hgroups, -⟩ := machine_extent_eq h
  obtain ⟨choice, before, after, hchoice, hextent, -, -, hwhole⟩ := hgroups 1 _ rfl
  exact ⟨automaton, h, hstates.trans (by decide), harcs.trans (by decide), hbound, choice, before,
    after, hchoice, hextent.trans (by decide), hwhole⟩

end Automaton

end Motif
