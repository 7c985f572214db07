import Motif.Graph.Basic
import Motif.Pattern.Sign

/-!
# Machines

A machine is a graph with a state to start from and a state that accepts. Larger machines are put
together from smaller ones: in a row, side by side, or with ways around and back. No arc of a
machine made here enters its start or leaves its accept.
-/

namespace Motif

/-- A graph with a start and an accepting state. -/
structure Machine (α : Type) where
  graph : Graph α
  start : Nat
  accept : Nat
deriving DecidableEq

namespace Machine

variable {α : Type}

def single (label : Label α) : Machine α :=
  ⟨⟨#[[⟨label, 1⟩], []]⟩, 0, 1⟩

/-- The machine that passes the first and then the second. -/
def join (first second : Machine α) : Machine α where
  graph := (first.graph.append second.graph).connect first.accept .epsilon
    (second.start + first.graph.size)
  start := first.start
  accept := second.accept + first.graph.size

/--
The machine that passes all of them in order; for none of them, a way through that sees nothing.
-/
def inSequence : List (Machine α) → Machine α
  | [] => single .epsilon
  | first :: rest => rest.foldl join first

/-- A start and an accepting state with no way between them. -/
def disconnected : Machine α :=
  ⟨⟨#[[], []]⟩, 0, 1⟩

/-- The machine with another one as one more way from its start to its accepting state. -/
def addBranch (machine branch : Machine α) : Machine α where
  graph :=
    ((machine.graph.append branch.graph).connect machine.start .epsilon
      (branch.start + machine.graph.size)).connect
        (branch.accept + machine.graph.size) .epsilon machine.accept
  start := machine.start
  accept := machine.accept

def oneOf (branches : List (Machine α)) : Machine α :=
  branches.foldl addBranch disconnected

/-- An arc that sees nothing, added to a graph if it is wanted. -/
def addEpsilonIf (wanted : Bool) (source target : Nat) (graph : Graph α) : Graph α :=
  if wanted then graph.connect source .epsilon target else graph

/--
The machine that passes this one as often as the quantifier allows. A new start and a new accepting
state stand around it, so that the way around it cannot be entered from inside.
-/
def repeated (quantifier : Quantifier) (machine : Machine α) : Machine α :=
  if quantifier = .once then
    machine
  else
    let start := machine.graph.size
    let accept := machine.graph.size + 1
    let framed := (machine.graph.newState.newState.connect start .epsilon machine.start).connect
      machine.accept .epsilon accept
    let skipped := addEpsilonIf quantifier.allowsNone start accept framed
    ⟨addEpsilonIf quantifier.allowsMany machine.accept machine.start skipped, start, accept⟩

def groupName (number : Nat) : List Char :=
  'g' :: Nat.toDigits 10 number

/-- A machine as it is written: a line with its two states, then its graph. -/
def render [Token α] (machine : Machine α) : List Char :=
  "start ".toList ++ stateName machine.start ++ " accept ".toList ++ stateName machine.accept ++
    ['\n'] ++ machine.graph.render

end Machine

end Motif
