import Motif.Proofs.Boundaries

/-!
# Laws of turning a tree around

To turn a resolved tree around twice changes nothing, to resolve a tree twice is to resolve it once,
and neither has an effect on the choices of an item. A boundary can be resolved in a tree exactly if
it can be in the tree turned around, because the first place and the last place change over.
-/

namespace Motif

namespace Leaf

@[simp] theorem flip_flip (content : Leaf) : content.flip.flip = content := by
  cases content <;> rfl

@[simp] theorem resolve_resolve (first last : Bool) (content : Leaf) :
    (content.resolve first last).resolve first last = content.resolve first last := by
  cases content with
  | boundary => cases first <;> cases last <;> rfl
  | literal text => rfl
  | wildcard | inputStart | inputEnd | epsilon => rfl

end Leaf

namespace Tree

@[simp] theorem flip_flip (tree : Tree) : tree.flip.flip = tree := by
  have heach : ∀ {children : List Tree},
      (∀ child ∈ children, child.flip.flip = child) →
        (children.map flip).map flip = children := by
    intro children ih
    rw [List.map_map]
    exact (List.map_congr_left ih).trans (List.map_id children)
  induction tree with
  | leaf content mark => rw [flip, flip, Leaf.flip_flip]
  | sequence children mark ih =>
      rw [flip, flip, flipEach_eq_map, flipEach_eq_map, List.map_reverse, List.reverse_reverse,
        heach ih]
  | alternation children mark ih =>
      rw [flip, flip, flipEach_eq_map, flipEach_eq_map, heach ih]

@[simp] theorem resolve_resolve {tree : Tree} :
    ∀ {first last : Bool},
      (tree.resolve first last).resolve first last = tree.resolve first last := by
  induction tree with
  | leaf content mark =>
      intro first last
      rw [resolve, resolve, Leaf.resolve_resolve]
  | sequence children mark ih =>
      intro first last
      have hrow : ∀ {first last : Bool},
          resolveSequence first last (resolveSequence first last children) =
            resolveSequence first last children := by
        induction children with
        | nil => exact rfl
        | cons child rest ihrest =>
            intro first last
            rw [resolveSequence, resolveSequence, resolveSequence_isEmpty,
              ih child List.mem_cons_self,
              ihrest fun sibling hmem => ih sibling (List.mem_cons_of_mem _ hmem)]
      rw [resolve, resolve, hrow]
  | alternation children mark ih =>
      intro first last
      rw [resolve, resolve, resolveEach_eq_map, resolveEach_eq_map, List.map_map]
      exact congrArg (Tree.alternation · mark) (List.map_congr_left fun child hmem => ih child hmem)

@[simp] theorem choices_resolve (first last : Bool) (tree : Tree) :
    (tree.resolve first last).choices = tree.choices := by
  rw [← choices_blur, blur_resolve, choices_blur]

/-- Boundaries stand first or last in a tree if they stand last or first in it turned around. -/
theorem atEdges_flip_iff {tree : Tree} {first last : Bool} :
    tree.flip.AtEdges last first ↔ tree.AtEdges first last := by
  refine eachLeaf_flip_iff fun first last content => ?_
  cases content <;> simp [Leaf.AtEdge, Leaf.flip, or_comm]

theorem hasBoundary_reverse (tree : Tree) :
    tree.reverse.hasBoundary = (tree.resolve true true).hasBoundary := by
  have hiff : tree.reverse.hasBoundary = false ↔ (tree.resolve true true).hasBoundary = false := by
    rw [reverse, hasBoundary_resolve_iff, hasBoundary_resolve_iff, atEdges_flip_iff]
  exact Bool.eq_iff_iff.2 (by simpa using not_congr hiff)

/--
A tree without unresolved boundaries is turned around and back to itself. For any tree at all:
resolving it twice is resolving it once, its reversal leaves a boundary unresolved exactly if its
resolution does, and its reversal has the same choices in the same order, or none like it.
-/
theorem reverse_laws (tree : Tree) :
    (tree.hasBoundary = false → tree.reverse.reverse = tree) ∧
    (tree.resolve true true).resolve true true = tree.resolve true true ∧
    tree.reverse.hasBoundary = (tree.resolve true true).hasBoundary ∧
    tree.reverse.choices = tree.choices := by
  refine ⟨fun hresolved => ?_, resolve_resolve, hasBoundary_reverse tree, ?_⟩
  · have hflipped : tree.flip.hasBoundary = false := by rw [hasBoundary_flip, hresolved]
    rw [reverse_of_resolved hresolved, reverse_of_resolved hflipped, flip_flip]
  · rw [reverse, choices_resolve, choices_flip]

/-- Both ends of the input, a negated choice, a repeated group and an empty one. -/
theorem reverse_laws_of_marked_groups :
    let tree := Tree.sequence
      [.leaf .inputStart .plain,
        .alternation [.leaf (.literal ['r']) .plain, .leaf (.literal ['l']) .plain] ⟨true, .once⟩,
        .sequence [.leaf (.literal ['a']) .plain, .alternation [] .plain] ⟨false, .oneOrMore⟩,
        .leaf .inputEnd .plain] .plain
    tree.hasBoundary = false ∧ tree.reverse ≠ tree ∧ tree.reverse.reverse = tree := by
  intro tree
  have hresolved : tree.hasBoundary = false := by decide
  exact ⟨hresolved, by decide, (reverse_laws tree).1 hresolved⟩

end Tree

end Motif
