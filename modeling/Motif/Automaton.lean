import Motif.Machine.Assembly
import Motif.Machine.Search
import Motif.Pattern.Parse

/-!
# Automata

A pattern made ready for matching, and what can be asked of it. A backward automaton reads its input
from right to left: it is given the reversed input, and its indices count from the end of the input
as written.
-/

namespace Motif

/-- Why no automaton was built for a pattern. -/
inductive BuildFault where
  | pattern (fault : PatternFault)
  | assembly (fault : AssemblyFault)
deriving DecidableEq

def BuildFault.message : BuildFault → String
  | pattern fault => fault.message
  | assembly fault => fault.message

/-- A pattern ready for matching. -/
structure Automaton (α : Type) where
  tree : Tree
  direction : Direction
  machine : Machine α
  /-- The machines of the bracketed items below the top, in the order in which the items begin. -/
  groups : List (Machine α)
  /-- The macros as the machine uses them. -/
  table : MacroTable α

namespace Automaton

variable {α : Type} [DecidableEq α] [Token α]

omit [DecidableEq α] in
/-- The automaton for a tree that is oriented for a direction, with macros as they are written. -/
def ofTree (tree : Tree) (table : MacroTable α) (direction : Direction) :
    Except AssemblyFault (Automaton α) := do
  let oriented := table.orient direction
  let assembly ← tree.assemble oriented direction
  .ok ⟨tree, direction, assembly.machine, assembly.groups, oriented⟩

omit [DecidableEq α] in
/--
The automaton for a pattern text in which the symbols and the keys of the macros are kept whole.
-/
def ofPattern (pattern : List Char) (direction : Direction) (symbols : List (List Char))
    (table : MacroTable α) : Except BuildFault (Automaton α) :=
  match Tree.parse (Vocabulary.ofList (symbols ++ table.keys)) direction pattern with
  | .error fault => .error (.pattern fault)
  | .ok tree =>
      match ofTree tree table direction with
      | .error fault => .error (.assembly fault)
      | .ok automaton => .ok automaton

/-- Every index at which a match from `start` can end. -/
def endsFrom (automaton : Automaton α) (input : Array α) (start : Nat) : IndexSet :=
  automaton.machine.ends automaton.table input start

def matchesBeginning (automaton : Automaton α) (input : Array α) : Bool :=
  !(automaton.endsFrom input 0).isEmpty

def matchesWhole (automaton : Automaton α) (input : Array α) : Bool :=
  input.size ∈ automaton.endsFrom input 0

/--
Every index from which there is a match, in ascending order, with the indices at which it can end.
-/
def hits (automaton : Automaton α) (input : Array α) : List (Nat × IndexSet) :=
  (List.range (input.size + 1)).filterMap fun start =>
    let ends := automaton.endsFrom input start
    if ends.isEmpty then none else some (start, ends)

/--
Every index from which a match can end at `stop`. The input is given as it is written in either
direction; a backward automaton reads it from `stop` to the left, a forward one tries every start up
to `stop`.
-/
def startsTo (automaton : Automaton α) (input : Array α) (stop : Nat) : IndexSet :=
  if input.size < stop then
    ∅
  else
    match automaton.direction with
    | .forward =>
        IndexSet.ofList <| (List.range (stop + 1)).filter fun start =>
          stop ∈ automaton.endsFrom input start
    | .backward =>
        let indices := automaton.endsFrom input.reverse (input.size - stop)
        IndexSet.ofList <| indices.toList.map fun index => input.size - index

end Automaton

end Motif
