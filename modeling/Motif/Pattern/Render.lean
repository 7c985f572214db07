import Motif.Pattern.Tree

/-!
# Written form of a tree

A tree as pattern text. A sequence needs no brackets where nothing else stands beside it: at the
top, or as a branch of an alternation, provided that it has no mark and at least two children.
-/

namespace Motif

/--
A leaf as it is written: all three kinds of boundary alike, and nothing for the leaf that is always
there.
-/
def Leaf.render : Leaf → List Char
  | .literal text => text
  | .wildcard => ['.']
  | .boundary => ['#']
  | .inputStart => ['#']
  | .inputEnd => ['#']
  | .epsilon => []

namespace Mark

def sign (mark : Mark) : List Char :=
  if mark.negated then ['!'] else []

/-- The item's text between its negation sign and its quantifier. -/
def surround (mark : Mark) (text : List Char) : List Char :=
  mark.sign ++ text ++ mark.quantifier.suffix

end Mark

namespace Tree

def bracket (bracket : Bracket) (text : List Char) : List Char :=
  bracket.openChar :: (text ++ [bracket.closeChar])

mutual

/-- The text of a tree; `alone` says that no sibling stands beside it in a sequence. -/
def renderAt (alone : Bool) : Tree → List Char
  | .leaf content mark => mark.surround content.render
  | .sequence children mark =>
      if alone && mark = .plain && 1 < children.length then
        renderSequence children
      else
        mark.surround (bracket .round (renderSequence children))
  | .alternation children mark => mark.surround (bracket .curly (renderBranches children))

def renderSequence : List Tree → List Char
  | [] => []
  | child :: rest => renderAt false child ++ renderSequence rest

/-- The texts of the branches of an alternation, with one space between neighbours. -/
def renderBranches : List Tree → List Char
  | [] => []
  | child :: rest => renderAt true child ++ renderFollowing rest

def renderFollowing : List Tree → List Char
  | [] => []
  | child :: rest => ' ' :: (renderAt true child ++ renderFollowing rest)

end

/-- The tree as pattern text. -/
def render (tree : Tree) : List Char :=
  renderAt true tree

theorem renderSequence_eq_flatMap (trees : List Tree) :
    renderSequence trees = trees.flatMap (renderAt false) := by
  induction trees with
  | nil => simp [renderSequence]
  | cons child rest ih => simp [renderSequence, ih]

end Tree

end Motif
