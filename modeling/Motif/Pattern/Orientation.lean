import Motif.Pattern.Tree

/-!
# Orientation

A boundary sign stands for the start of the input in the first place of a pattern and for its end in
the last place. A pattern that is to be matched from right to left is turned around: every sequence
runs backwards and the two ends of the input trade places.
-/

namespace Motif

inductive Direction where
  | forward
  | backward
deriving DecidableEq

namespace Leaf

/--
An unresolved boundary becomes the start of the input if it is `first`, else its end if it is
`last`.
-/
def resolve (first last : Bool) : Leaf → Leaf
  | .boundary => if first then .inputStart else if last then .inputEnd else .boundary
  | content => content

/-- The two ends of the input trade places. -/
def flip : Leaf → Leaf
  | .inputStart => .inputEnd
  | .inputEnd => .inputStart
  | content => content

end Leaf

namespace Tree

mutual

/--
Resolve the boundaries of a tree that stands first, or last, in its pattern. The first child of a
sequence inherits the first place and its last child the last place; every branch of an alternation
inherits both.
-/
def resolve (first last : Bool) : Tree → Tree
  | .leaf content mark => .leaf (content.resolve first last) mark
  | .sequence children mark => .sequence (resolveSequence first last children) mark
  | .alternation children mark => .alternation (resolveEach first last children) mark

/--
Resolve the boundaries of neighbours of which the first stands first, or the last stands last.
-/
def resolveSequence (first last : Bool) : List Tree → List Tree
  | [] => []
  | child :: rest =>
      resolve first (last && rest.isEmpty) child :: resolveSequence false last rest

/-- Resolve the boundaries of trees that all stand in the same place. -/
def resolveEach (first last : Bool) : List Tree → List Tree
  | [] => []
  | child :: rest => resolve first last child :: resolveEach first last rest

end

mutual

/-- The tree with every sequence backwards and the two ends of the input exchanged. -/
def flip : Tree → Tree
  | .leaf content mark => .leaf content.flip mark
  | .sequence children mark => .sequence (flipEach children).reverse mark
  | .alternation children mark => .alternation (flipEach children) mark

def flipEach : List Tree → List Tree
  | [] => []
  | child :: rest => flip child :: flipEach rest

end

def reverse (tree : Tree) : Tree :=
  tree.flip.resolve true true

def orient (direction : Direction) (tree : Tree) : Tree :=
  match direction with
  | .forward => tree
  | .backward => tree.reverse

theorem resolveEach_eq_map (first last : Bool) (trees : List Tree) :
    resolveEach first last trees = trees.map (resolve first last) := by
  induction trees with
  | nil => simp [resolveEach]
  | cons child rest ih => simp [resolveEach, ih]

theorem flipEach_eq_map (trees : List Tree) : flipEach trees = trees.map flip := by
  induction trees with
  | nil => simp [flipEach]
  | cons child rest ih => simp [flipEach, ih]

@[simp] theorem resolveSequence_isEmpty (first last : Bool) (trees : List Tree) :
    (resolveSequence first last trees).isEmpty = trees.isEmpty := by
  cases trees <;> simp [resolveSequence]

@[simp] theorem mark_resolve (first last : Bool) (tree : Tree) :
    (tree.resolve first last).mark = tree.mark := by
  cases tree <;> simp [resolve, mark]

@[simp] theorem mark_flip (tree : Tree) : tree.flip.mark = tree.mark := by
  cases tree <;> simp [flip, mark]

end Tree

end Motif
