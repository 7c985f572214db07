/-!
# Signs and faults

The ten characters that have a meaning of their own in a pattern, the quantifiers and brackets they
stand for, and why a text is not a pattern. Some pairs of these characters may not stand side by
side, wherever they are; the first such pair decides the fault.
-/

namespace Motif

/-- How often an item may be repeated. -/
inductive Quantifier where
  | once
  | optional
  | zeroOrMore
  | oneOrMore
deriving DecidableEq, Inhabited

namespace Quantifier

/-- What is written after an item for its quantifier. -/
def suffix : Quantifier → List Char
  | once => []
  | optional => ['?']
  | zeroOrMore => ['*']
  | oneOrMore => ['+']

/-- Whether no repetition at all is enough. -/
def allowsNone : Quantifier → Bool
  | once => false
  | optional => true
  | zeroOrMore => true
  | oneOrMore => false

/-- Whether there may be more than one repetition. -/
def allowsMany : Quantifier → Bool
  | once => false
  | optional => false
  | zeroOrMore => true
  | oneOrMore => true

end Quantifier

/-- The two kinds of brackets: round ones hold a sequence, curly ones hold alternatives. -/
inductive Bracket where
  | round
  | curly
deriving DecidableEq

namespace Bracket

def openChar : Bracket → Char
  | round => '('
  | curly => '{'

def closeChar : Bracket → Char
  | round => ')'
  | curly => '}'

end Bracket

/-- What a character with a meaning of its own stands for. -/
inductive Sign where
  | wildcard
  | boundary
  | negation
  | quantifier (quantifier : Quantifier)
  | opening (bracket : Bracket)
  | closing (bracket : Bracket)
deriving DecidableEq

namespace Sign

def ofChar? : Char → Option Sign
  | '.' => some wildcard
  | '#' => some boundary
  | '!' => some negation
  | '?' => some (quantifier .optional)
  | '*' => some (quantifier .zeroOrMore)
  | '+' => some (quantifier .oneOrMore)
  | '(' => some (opening .round)
  | ')' => some (closing .round)
  | '{' => some (opening .curly)
  | '}' => some (closing .curly)
  | _ => none

theorem ofChar?_eq_opening_iff {c : Char} {bracket : Bracket} :
    ofChar? c = some (opening bracket) ↔ c = bracket.openChar := by
  constructor
  · intro h
    unfold ofChar? at h
    split at h <;> simp_all <;> subst h <;> rfl
  · rintro rfl
    cases bracket <;> rfl

theorem ofChar?_eq_closing_iff {c : Char} {bracket : Bracket} :
    ofChar? c = some (closing bracket) ↔ c = bracket.closeChar := by
  constructor
  · intro h
    unfold ofChar? at h
    split at h <;> simp_all <;> subst h <;> rfl
  · rintro rfl
    cases bracket <;> rfl

end Sign

/-! ## Faults -/

inductive PatternFault where
  /-- Two negation signs side by side. -/
  | doubleNegation
  /-- A negation sign before a quantifier. -/
  | negatedQuantifier
  /-- A quantifier on an item that has one. -/
  | stackedQuantifiers
  /-- A quantifier on an item that holds a boundary. -/
  | quantifiedBoundary
  /-- A negation sign before a boundary. -/
  | negatedBoundary
  /-- The text ends inside a bracket. -/
  | unclosedGroup (bracket : Bracket)
  /-- A closing bracket that closes nothing, or the wrong kind. -/
  | unexpectedClose (bracket : Bracket)
  /-- A quantifier with no item before it. -/
  | danglingQuantifier
  /-- A negation sign with no item after it. -/
  | danglingNegation
  /-- Brackets with nothing in them. -/
  | emptyGroup (bracket : Bracket)
  /-- A boundary that is neither first nor last. -/
  | misplacedBoundary
  /-- A negation sign before an item that is no choice of literals. -/
  | negatedCompound
deriving DecidableEq

namespace PatternFault

def message : PatternFault → String
  | doubleNegation => "Double negation '!!' in pattern"
  | negatedQuantifier => "Quantifier cannot be negated"
  | stackedQuantifiers => "Quantifiers cannot be stacked"
  | quantifiedBoundary => "Boundary '#' cannot be quantified"
  | negatedBoundary => "Boundary '#' cannot be negated"
  | unclosedGroup bracket => "Unclosed group '" ++ bracket.openChar.toString ++ "' in pattern"
  | unexpectedClose bracket => "Unexpected '" ++ bracket.closeChar.toString ++ "' in pattern"
  | danglingQuantifier => "Quantifier has nothing to repeat"
  | danglingNegation => "Negation '!' has nothing to negate"
  | emptyGroup bracket => "Empty group '" ++ bracket.openChar.toString ++ "' in pattern"
  | misplacedBoundary => "Boundary '#' is only allowed at the start or end"
  | negatedCompound => "Only a literal symbol or a choice of literals can be negated"

end PatternFault

/-- What is wrong with one character before another, if anything. -/
def pairFault (left right : Char) : Option PatternFault :=
  match Sign.ofChar? left, Sign.ofChar? right with
  | some .negation, some .negation => some .doubleNegation
  | some .negation, some .boundary => some .negatedBoundary
  | some .negation, some (.quantifier _) => some .negatedQuantifier
  | some .boundary, some (.quantifier _) => some .quantifiedBoundary
  | some (.quantifier _), some (.quantifier _) => some .stackedQuantifiers
  | _, _ => none

/-- What is wrong with the first pair of neighbours that may not stand side by side. -/
def adjacencyFault : List Char → Option PatternFault
  | left :: right :: rest =>
      match pairFault left right with
      | some fault => some fault
      | none => adjacencyFault (right :: rest)
  | _ => none

end Motif
