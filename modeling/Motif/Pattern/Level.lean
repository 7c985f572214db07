import Motif.Pattern.Tree

/-!
# Levels

The items of one nesting level as they are read from left to right. A negation sign waits for the
item after it; a quantifier goes to the item before it. Each step says which fault it can meet.
-/

namespace Motif

/--
The items finished so far on one level, latest first, and whether a negation sign waits for the next
one.
-/
structure Level where
  finished : List Tree
  negating : Bool

namespace Level

def start : Level :=
  ⟨[], false⟩

/--
The negated form of an item. A boundary has none, nor has any other item that is no choice of
literals.
-/
def negated (item : Tree) : Except PatternFault Tree :=
  if item.isLeaf && item.hasBoundary then
    .error .negatedBoundary
  else
    match item.choices with
    | none => .error .negatedCompound
    | some _ => .ok item.negate

/-- Add an item, negated if a negation sign waits for it. -/
def add (level : Level) (item : Tree) : Except PatternFault Level :=
  if level.negating then
    match negated item with
    | .ok item => .ok ⟨item :: level.finished, false⟩
    | .error fault => .error fault
  else
    .ok ⟨item :: level.finished, false⟩

def readNegation (level : Level) : Except PatternFault Level :=
  if level.negating then .error .doubleNegation else .ok ⟨level.finished, true⟩

/--
Read a quantifier. There has to be an item for it, without a quantifier and without a boundary.
-/
def readQuantifier (level : Level) (quantifier : Quantifier) : Except PatternFault Level :=
  if level.negating then
    .error .negatedQuantifier
  else
    match level.finished with
    | [] => .error .danglingQuantifier
    | item :: earlier =>
        if item.mark.quantifier ≠ .once then .error .stackedQuantifiers
        else if item.hasBoundary then .error .quantifiedBoundary
        else .ok ⟨item.quantify quantifier :: earlier, false⟩

def close (level : Level) : Except PatternFault (List Tree) :=
  if level.negating then .error .danglingNegation else .ok level.finished.reverse

end Level

end Motif
