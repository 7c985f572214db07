import Motif.Pattern.Orientation

/-!
# Boundaries in their places

Resolving a tree turns its boundaries into the ends of the input by the place at which they stand,
and blurring takes the resolution back. Neither it nor turning a tree around changes the shape of
the tree or the choices of its items.
-/

namespace Motif

namespace Leaf

/-- A boundary stands first or last. -/
def AtEdge (first last : Bool) (content : Leaf) : Prop :=
  content = boundary → first = true ∨ last = true

/-- A start of the input stands first, and an end of the input stands last but not first. -/
def InPlace (first last : Bool) (content : Leaf) : Prop :=
  (content = inputStart → first = true) ∧ (content = inputEnd → last = true ∧ first = false)

/-- A leaf that stands for an end of the input, as it was before it was resolved. -/
def blur : Leaf → Leaf
  | inputStart => boundary
  | inputEnd => boundary
  | content => content

end Leaf

namespace Tree

/-! ## Turning a tree around -/

theorem resolve_of_resolved {tree : Tree} :
    ∀ {first last : Bool}, tree.hasBoundary = false → tree.resolve first last = tree := by
  induction tree with
  | leaf content mark =>
      intro first last h
      cases content with
      | boundary => cases h
      | literal text => rfl
      | wildcard | inputStart | inputEnd | epsilon => rfl
  | sequence children mark ih =>
      intro first last h
      have heach : ∀ {first last : Bool}, anyHasBoundary children = false →
          resolveSequence first last children = children := by
        clear h
        induction children with
        | nil => exact fun _ => rfl
        | cons child rest ihrest =>
            intro first last h
            rw [anyHasBoundary, Bool.or_eq_false_iff] at h
            rw [resolveSequence, ih child List.mem_cons_self h.1,
              ihrest (fun other hmem => ih other (List.mem_cons_of_mem _ hmem)) h.2]
      rw [resolve, heach h]
  | alternation children mark ih =>
      intro first last h
      rw [hasBoundary, anyHasBoundary_eq_any, List.any_eq_false] at h
      have heach : children.map (resolve first last) = children := by
        refine (List.map_congr_left fun child hmem => ?_).trans (List.map_id children)
        exact ih child hmem (Bool.eq_false_iff.2 (h child hmem))
      rw [resolve, resolveEach_eq_map, heach]

theorem anyHasBoundary_flipEach {trees : List Tree}
    (h : ∀ tree ∈ trees, tree.flip.hasBoundary = tree.hasBoundary) :
    anyHasBoundary (flipEach trees) = anyHasBoundary trees := by
  induction trees with
  | nil => rfl
  | cons tree rest ih =>
      rw [flipEach, anyHasBoundary, anyHasBoundary, h tree List.mem_cons_self,
        ih fun other hmem => h other (List.mem_cons_of_mem _ hmem)]

@[simp] theorem hasBoundary_flip (tree : Tree) : tree.flip.hasBoundary = tree.hasBoundary := by
  induction tree with
  | leaf content mark => cases content <;> rfl
  | sequence children mark ih =>
      rw [flip, hasBoundary, hasBoundary, ← anyHasBoundary_flipEach ih, anyHasBoundary_eq_any,
        anyHasBoundary_eq_any, List.any_reverse]
  | alternation children mark ih =>
      rw [flip, hasBoundary, hasBoundary, anyHasBoundary_flipEach ih]

/-- Once its boundaries are resolved, a tree is only turned around to be read backward. -/
theorem reverse_of_resolved {tree : Tree} (h : tree.hasBoundary = false) :
    tree.reverse = tree.flip := by
  rw [reverse, resolve_of_resolved (by rw [hasBoundary_flip, h])]

@[simp] theorem choices_flip (tree : Tree) : tree.flip.choices = tree.choices := by
  induction tree with
  | leaf content mark => cases content <;> rfl
  | sequence children mark ih =>
      rcases children with _ | ⟨child, _ | ⟨next, rest⟩⟩
      · rfl
      · have hchild := ih child List.mem_cons_self
        simp [flip, flipEach, choices, hchild]
      · have hlong : ∀ {trees : List Tree}, 2 ≤ trees.length →
            (Tree.sequence trees mark).choices = none := by
          intro trees hlength
          rcases trees with _ | ⟨first, _ | ⟨second, others⟩⟩
          · cases hlength
          · simp at hlength
          · rfl
        rw [flip, hlong (by simp [flipEach]), hlong (by simp)]
  | alternation children mark ih =>
      rw [flip, choices, choices]
      clear mark
      induction children with
      | nil => rfl
      | cons child rest ihrest =>
          rw [flipEach, choicesAll, choicesAll, mark_flip, ih child List.mem_cons_self,
            ihrest fun other hmem => ih other (List.mem_cons_of_mem _ hmem)]

/-! ## First and last places -/

mutual

/--
Every leaf is what it may be at the place where it stands, first in the pattern or not and last or
not. The first child of a sequence inherits the first place and its last child the last place; every
branch of an alternation inherits both.
-/
def EachLeaf (holds : (first last : Bool) → Leaf → Prop) (first last : Bool) : Tree → Prop
  | .leaf content _ => holds first last content
  | .sequence children _ => EachLeafInRow holds first last children
  | .alternation children _ => EachLeafBeside holds first last children

def EachLeafInRow (holds : (first last : Bool) → Leaf → Prop) (first last : Bool) :
    List Tree → Prop
  | [] => True
  | child :: rest =>
      EachLeaf holds first (last && rest.isEmpty) child ∧ EachLeafInRow holds false last rest

def EachLeafBeside (holds : (first last : Bool) → Leaf → Prop) (first last : Bool) :
    List Tree → Prop
  | [] => True
  | child :: rest => EachLeaf holds first last child ∧ EachLeafBeside holds first last rest

end

theorem eachLeafBeside_iff {holds : (first last : Bool) → Leaf → Prop} {first last : Bool}
    {trees : List Tree} :
    EachLeafBeside holds first last trees ↔
      ∀ tree ∈ trees, tree.EachLeaf holds first last := by
  induction trees with
  | nil => simp [EachLeafBeside]
  | cons child rest ih => rw [EachLeafBeside, ih, List.forall_mem_cons]

theorem eachLeafInRow_concat {holds : (first last : Bool) → Leaf → Prop} {children : List Tree}
    {child : Tree} :
    ∀ {first last : Bool}, EachLeafInRow holds first last (children ++ [child]) ↔
      EachLeafInRow holds first false children ∧
        child.EachLeaf holds (first && children.isEmpty) last := by
  induction children with
  | nil => simp [EachLeafInRow]
  | cons other rest ih =>
      intro first last
      have hempty : (rest ++ [child]).isEmpty = false := by simp
      rw [List.cons_append, EachLeafInRow, EachLeafInRow, ih, hempty]
      simp [and_assoc]

theorem eachLeaf_flip_iff {holds other : (first last : Bool) → Leaf → Prop}
    (hleaf : ∀ first last content, other last first content.flip ↔ holds first last content)
    {tree : Tree} :
    ∀ {first last : Bool}, tree.flip.EachLeaf other last first ↔
      tree.EachLeaf holds first last := by
  induction tree with
  | leaf content mark => exact hleaf _ _ content
  | sequence children mark ih =>
      intro first last
      rw [flip, EachLeaf, EachLeaf]
      induction children generalizing first with
      | nil => exact Iff.rfl
      | cons child rest ihrest =>
          have hempty : (flipEach rest).reverse.isEmpty = rest.isEmpty := by
            rw [List.isEmpty_reverse, flipEach_eq_map, List.isEmpty_map]
          rw [flipEach, List.reverse_cons, eachLeafInRow_concat, hempty, EachLeafInRow,
            ih child List.mem_cons_self,
            ihrest fun sibling hmem => ih sibling (List.mem_cons_of_mem _ hmem)]
          exact and_comm
  | alternation children mark ih =>
      intro first last
      rw [flip, EachLeaf, EachLeaf, eachLeafBeside_iff, eachLeafBeside_iff, flipEach_eq_map,
        List.forall_mem_map]
      exact forall₂_congr fun child hmem => ih child hmem

/-- Every boundary stands first or last. -/
def AtEdges (first last : Bool) (tree : Tree) : Prop :=
  tree.EachLeaf Leaf.AtEdge first last

/-- Every start of the input stands first, and every end of the input stands last but not first. -/
def Placed (first last : Bool) (tree : Tree) : Prop :=
  tree.EachLeaf Leaf.InPlace first last

/-- Resolving leaves no boundary exactly if each of them stands first or last. -/
theorem hasBoundary_resolve_iff {tree : Tree} :
    ∀ {first last : Bool},
      (tree.resolve first last).hasBoundary = false ↔ tree.AtEdges first last := by
  unfold AtEdges
  induction tree with
  | leaf content mark =>
      intro first last
      cases content <;> cases first <;> cases last <;>
        simp [resolve, Leaf.resolve, hasBoundary, EachLeaf, Leaf.AtEdge]
  | sequence children mark ih =>
      intro first last
      have hrow : ∀ {first last : Bool},
          anyHasBoundary (resolveSequence first last children) = false ↔
            EachLeafInRow Leaf.AtEdge first last children := by
        induction children with
        | nil => simp [resolveSequence, anyHasBoundary, EachLeafInRow]
        | cons child rest ihrest =>
            intro first last
            rw [resolveSequence, anyHasBoundary, Bool.or_eq_false_iff, EachLeafInRow,
              ih child List.mem_cons_self,
              ihrest fun other hmem => ih other (List.mem_cons_of_mem _ hmem)]
      rw [resolve, hasBoundary, EachLeaf, hrow]
  | alternation children mark ih =>
      intro first last
      rw [resolve, hasBoundary, EachLeaf, eachLeafBeside_iff, resolveEach_eq_map,
        anyHasBoundary_eq_any, List.any_map, List.any_eq_false]
      refine forall₂_congr fun child hmem => ?_
      rw [← ih child hmem, Bool.not_eq_true]
      rfl

/-! ## Blurring -/

mutual

/-- The tree with every end of the input as an unresolved boundary. -/
def blur : Tree → Tree
  | .leaf content mark => .leaf content.blur mark
  | .sequence children mark => .sequence (blurEach children) mark
  | .alternation children mark => .alternation (blurEach children) mark

def blurEach : List Tree → List Tree
  | [] => []
  | child :: rest => blur child :: blurEach rest

end

theorem blurEach_eq_map (trees : List Tree) : blurEach trees = trees.map blur := by
  induction trees with
  | nil => simp [blurEach]
  | cons child rest ih => simp [blurEach, ih]

@[simp] theorem mark_blur (tree : Tree) : tree.blur.mark = tree.mark := by
  cases tree <;> simp [blur, mark]

theorem blur_withMark (mark : Mark) (tree : Tree) :
    (tree.withMark mark).blur = tree.blur.withMark mark := by
  cases tree <;> simp [blur, withMark]

@[simp] theorem choices_blur (tree : Tree) : tree.blur.choices = tree.choices := by
  induction tree with
  | leaf content mark => cases content <;> rfl
  | sequence children mark ih =>
      rcases children with _ | ⟨child, _ | ⟨next, rest⟩⟩
      · rfl
      · simp [blur, blurEach, choices, ih child List.mem_cons_self]
      · rfl
  | alternation children mark ih =>
      rw [blur, choices, choices]
      clear mark
      induction children with
      | nil => rfl
      | cons child rest ihrest =>
          rw [blurEach, choicesAll, choicesAll, mark_blur, ih child List.mem_cons_self,
            ihrest fun other hmem => ih other (List.mem_cons_of_mem _ hmem)]

@[simp] theorem blur_blur (tree : Tree) : tree.blur.blur = tree.blur := by
  induction tree with
  | leaf content mark => cases content <;> rfl
  | sequence children mark ih =>
      rw [blur, blur, blurEach_eq_map, blurEach_eq_map, List.map_map]
      exact congrArg (Tree.sequence · mark) (List.map_congr_left ih)
  | alternation children mark ih =>
      rw [blur, blur, blurEach_eq_map, blurEach_eq_map, List.map_map]
      exact congrArg (Tree.alternation · mark) (List.map_congr_left ih)

/-- Whether some leaf is an end of the input, or a boundary that may become one. -/
def hasEdge (tree : Tree) : Bool :=
  tree.blur.hasBoundary

@[simp] theorem hasEdge_blur (tree : Tree) : tree.blur.hasEdge = tree.hasEdge := by
  rw [hasEdge, hasEdge, blur_blur]

@[simp] theorem hasEdge_withMark (mark : Mark) (tree : Tree) :
    (tree.withMark mark).hasEdge = tree.hasEdge := by
  rw [hasEdge, blur_withMark, hasBoundary_withMark, hasEdge]

theorem blur_flip (tree : Tree) : tree.flip.blur = tree.blur.flip := by
  induction tree with
  | leaf content mark => cases content <;> rfl
  | sequence children mark ih =>
      rw [flip, blur, blur, flip, blurEach_eq_map, blurEach_eq_map, flipEach_eq_map,
        flipEach_eq_map, List.map_reverse, List.map_map, List.map_map]
      exact congrArg (Tree.sequence ·.reverse mark) (List.map_congr_left ih)
  | alternation children mark ih =>
      rw [flip, blur, blur, flip, blurEach_eq_map, blurEach_eq_map, flipEach_eq_map,
        flipEach_eq_map, List.map_map, List.map_map]
      exact congrArg (Tree.alternation · mark) (List.map_congr_left ih)

@[simp] theorem hasEdge_flip (tree : Tree) : tree.flip.hasEdge = tree.hasEdge := by
  rw [hasEdge, blur_flip, hasBoundary_flip, hasEdge]

theorem blur_resolve {tree : Tree} :
    ∀ {first last : Bool}, (tree.resolve first last).blur = tree.blur := by
  induction tree with
  | leaf content mark =>
      intro first last
      cases content <;> cases first <;> cases last <;> rfl
  | sequence children mark ih =>
      intro first last
      have hrow : ∀ {first last : Bool},
          blurEach (resolveSequence first last children) = blurEach children := by
        induction children with
        | nil => exact rfl
        | cons child rest ihrest =>
            intro first last
            rw [resolveSequence, blurEach, blurEach, ih child List.mem_cons_self,
              ihrest fun other hmem => ih other (List.mem_cons_of_mem _ hmem)]
      rw [resolve, blur, blur, hrow]
  | alternation children mark ih =>
      intro first last
      rw [resolve, blur, blur, resolveEach_eq_map, blurEach_eq_map, blurEach_eq_map, List.map_map]
      exact congrArg (Tree.alternation · mark) (List.map_congr_left fun child hmem => ih child hmem)

/-- What is placed where resolving would put it comes back when it is resolved again. -/
theorem resolve_blur {tree : Tree} :
    ∀ {first last : Bool}, tree.hasBoundary = false → tree.Placed first last →
      tree.blur.resolve first last = tree := by
  unfold Placed
  induction tree with
  | leaf content mark =>
      intro first last hresolved hplaced
      cases content with
      | boundary => cases hresolved
      | inputStart => simp [blur, Leaf.blur, resolve, Leaf.resolve, hplaced.1 rfl]
      | inputEnd => simp [blur, Leaf.blur, resolve, Leaf.resolve, hplaced.2 rfl]
      | literal text => rfl
      | wildcard | epsilon => rfl
  | sequence children mark ih =>
      intro first last hresolved hplaced
      rw [hasBoundary] at hresolved
      rw [EachLeaf] at hplaced
      have hrow : ∀ {first last : Bool}, EachLeafInRow Leaf.InPlace first last children →
          resolveSequence first last (blurEach children) = children := by
        clear hplaced
        induction children with
        | nil => exact fun _ => rfl
        | cons child rest ihrest =>
            intro first last hplaced
            rw [anyHasBoundary, Bool.or_eq_false_iff] at hresolved
            have hempty : (blurEach rest).isEmpty = rest.isEmpty := by
              cases rest <;> rfl
            rw [blurEach, resolveSequence, hempty,
              ih child List.mem_cons_self hresolved.1 hplaced.1,
              ihrest (fun other hmem => ih other (List.mem_cons_of_mem _ hmem)) hresolved.2
                hplaced.2]
      rw [blur, resolve, hrow hplaced]
  | alternation children mark ih =>
      intro first last hresolved hplaced
      rw [hasBoundary] at hresolved
      rw [EachLeaf] at hplaced
      have heach : resolveEach first last (blurEach children) = children := by
        induction children with
        | nil => rfl
        | cons child rest ihrest =>
            rw [anyHasBoundary, Bool.or_eq_false_iff] at hresolved
            rw [blurEach, resolveEach, ih child List.mem_cons_self hresolved.1 hplaced.1,
              ihrest (fun other hmem => ih other (List.mem_cons_of_mem _ hmem)) hresolved.2
                hplaced.2]
      rw [blur, resolve, heach]

/-- Resolving puts every end of the input in its place, if there was none before. -/
theorem placed_resolve {tree : Tree} :
    ∀ {first last : Bool}, tree.blur = tree →
      (tree.resolve first last).Placed first last := by
  unfold Placed
  induction tree with
  | leaf content mark =>
      intro first last hblur
      cases content with
      | inputStart => cases hblur
      | inputEnd => cases hblur
      | boundary =>
          cases first <;> cases last <;> simp [resolve, Leaf.resolve, EachLeaf, Leaf.InPlace]
      | literal text => simp [resolve, Leaf.resolve, EachLeaf, Leaf.InPlace]
      | wildcard | epsilon => simp [resolve, Leaf.resolve, EachLeaf, Leaf.InPlace]
  | sequence children mark ih =>
      intro first last hblur
      rw [blur, Tree.sequence.injEq] at hblur
      have hrow : ∀ {first last : Bool}, blurEach children = children →
          EachLeafInRow Leaf.InPlace first last (resolveSequence first last children) := by
        clear hblur
        induction children with
        | nil => exact fun _ => trivial
        | cons child rest ihrest =>
            intro first last hblur
            rw [blurEach, List.cons.injEq] at hblur
            rw [resolveSequence, EachLeafInRow, resolveSequence_isEmpty]
            exact ⟨ih child List.mem_cons_self hblur.1,
              ihrest (fun other hmem => ih other (List.mem_cons_of_mem _ hmem)) hblur.2⟩
      rw [resolve, EachLeaf]
      exact hrow hblur.1
  | alternation children mark ih =>
      intro first last hblur
      rw [blur, Tree.alternation.injEq, blurEach_eq_map] at hblur
      rw [resolve, EachLeaf, eachLeafBeside_iff, resolveEach_eq_map, List.forall_mem_map]
      intro child hmem
      have hchild : child.blur = id child :=
        List.map_inj_left.1 (hblur.1.trans (List.map_id children).symm) child hmem
      exact ih child hmem hchild

end Tree

end Motif
