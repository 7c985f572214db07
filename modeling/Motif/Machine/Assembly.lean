import Motif.Machine.Basic
import Motif.Pattern.Orientation

/-!
# Assembling a machine from a tree

Every item of a tree becomes a machine, put together from the machines of its children. A bracketed
item below the top is also kept as a machine of its own; these are numbered in the order in which
the items begin.
-/

namespace Motif

/-- Why a tree has no machine. -/
inductive AssemblyFault where
  /-- A macro without any expansion. -/
  | unresolvedMacro (key : List Char)
  /-- A boundary that is neither first nor last. -/
  | misplacedBoundary
  /-- A negated item that is no choice of literals. -/
  | negatedCompound
deriving DecidableEq

def AssemblyFault.message : AssemblyFault → String
  | unresolvedMacro key => "Macro '" ++ String.ofList key ++ "' has no expansions"
  | misplacedBoundary => "Unresolved boundary '#' in expression"
  | negatedCompound => "Negated node is not a single choice"

variable {α : Type}

/--
A macro table as it is used in a direction: backward, every expansion is read from its other end.
-/
def MacroTable.orient (direction : Direction) (table : MacroTable α) : MacroTable α :=
  match direction with
  | .forward => table
  | .backward => table.reverse

/-- A literal's tokens as they are met in a direction. -/
def Direction.orientTokens (direction : Direction) (tokens : List α) : List α :=
  match direction with
  | .forward => tokens
  | .backward => tokens.reverse

/-- A machine, and the machines of the bracketed items inside it. -/
structure Assembly (α : Type) where
  machine : Machine α
  groups : List (Machine α)

namespace Assembly

/--
The assembly of a child: it counts as a group itself, before its own groups, unless it is a leaf.
-/
def record (isLeaf : Bool) (part : Assembly α) : Assembly α :=
  if isLeaf then part else { part with groups := part.machine :: part.groups }

def ofLabel (quantifier : Quantifier) (label : Label α) : Assembly α :=
  ⟨(Machine.single label).repeated quantifier, []⟩

def inSequence (quantifier : Quantifier) (parts : List (Assembly α)) : Assembly α :=
  ⟨(Machine.inSequence (parts.map Assembly.machine)).repeated quantifier,
    parts.flatMap Assembly.groups⟩

def oneOf (quantifier : Quantifier) (parts : List (Assembly α)) : Assembly α :=
  ⟨(Machine.oneOf (parts.map Assembly.machine)).repeated quantifier,
    parts.flatMap Assembly.groups⟩

end Assembly

variable [Token α]

/--
What a literal stands for: a macro, if it is the key of one, or its own tokens. The table is
oriented already.
-/
def literalAtom (table : MacroTable α) (direction : Direction) (text : List Char) :
    Except AssemblyFault (Atom α) :=
  match table.id? text with
  | some id =>
      if (table.expansions id).isEmpty then .error (.unresolvedMacro text) else .ok (.macroRef id)
  | none => .ok (.literal (direction.orientTokens (Token.ofLiteral text)))

def literalAtoms (table : MacroTable α) (direction : Direction) :
    List (List Char) → Except AssemblyFault (List (Atom α))
  | [] => .ok []
  | text :: rest => do
      let atom ← literalAtom table direction text
      let atoms ← literalAtoms table direction rest
      .ok (atom :: atoms)

def Leaf.label (table : MacroTable α) (direction : Direction) :
    Leaf → Except AssemblyFault (Label α)
  | .literal text => do
      let atom ← literalAtom table direction text
      .ok (.take atom)
  | .wildcard => .ok (.take .wildcard)
  | .boundary => .error .misplacedBoundary
  | .inputStart => .ok (.take .inputStart)
  | .inputEnd => .ok (.take .inputEnd)
  | .epsilon => .ok .epsilon

/-- The label of the arc for a negated item that chooses between some literals. -/
def exclusionLabel (table : MacroTable α) (direction : Direction) :
    Option (List (List Char)) → Except AssemblyFault (Label α)
  | some texts => do
      let atoms ← literalAtoms table direction texts
      .ok (.exclude atoms)
  | none => .error .negatedCompound

namespace Tree

mutual

/-- The assembly for a tree. The table is oriented already. -/
def assemble (table : MacroTable α) (direction : Direction) :
    Tree → Except AssemblyFault (Assembly α)
  | .leaf content mark => do
      let label ←
        if mark.negated then exclusionLabel table direction (Tree.leaf content mark).choices
        else content.label table direction
      .ok (Assembly.ofLabel mark.quantifier label)
  | .sequence children mark =>
      if mark.negated then do
        let label ← exclusionLabel table direction (Tree.sequence children mark).choices
        .ok (Assembly.ofLabel mark.quantifier label)
      else do
        let parts ← assembleEach table direction children
        .ok (Assembly.inSequence mark.quantifier parts)
  | .alternation children mark =>
      if mark.negated then do
        let label ← exclusionLabel table direction (Tree.alternation children mark).choices
        .ok (Assembly.ofLabel mark.quantifier label)
      else do
        let parts ← assembleEach table direction children
        .ok (Assembly.oneOf mark.quantifier parts)

def assembleEach (table : MacroTable α) (direction : Direction) :
    List Tree → Except AssemblyFault (List (Assembly α))
  | [] => .ok []
  | child :: rest => do
      let part ← assemble table direction child
      let parts ← assembleEach table direction rest
      .ok (part.record child.isLeaf :: parts)

end

end Tree

end Motif
