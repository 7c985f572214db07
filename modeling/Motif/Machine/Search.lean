import Std.Data.TreeSet
import Motif.IndexSet
import Motif.Machine.Basic

/-!
# Search

A search walks through all configurations of a machine that can be reached from its start at some
index of the input, and collects every index at which it meets the accepting state. A configuration
is put on the list of pending ones when it is met for the first time, so that each is looked at
once.
-/

namespace Motif

/-- A state of a machine together with an index of the input. -/
structure Configuration where
  state : Nat
  index : Nat
deriving DecidableEq

namespace Configuration

/-- Configurations are ordered by state, then by index. -/
instance : Ord Configuration :=
  ⟨compareLex (compareOn Configuration.state) (compareOn Configuration.index)⟩

instance : Std.TransOrd Configuration :=
  inferInstanceAs
    (Std.TransCmp (compareLex (compareOn Configuration.state) (compareOn Configuration.index)))

instance : Std.LawfulEqOrd Configuration where
  compare_self {configuration} := Std.ReflCmp.compare_self
  eq_of_compare {left right} h := by
    cases left
    cases right
    have hboth := Ordering.then_eq_eq.1 h
    have hstate := Nat.compare_eq_eq.1 hboth.1
    have hindex := Nat.compare_eq_eq.1 hboth.2
    cases hstate
    cases hindex
    rfl

end Configuration

structure Search where
  /-- Configurations that were met and not yet looked at. -/
  pending : List Configuration
  /-- All configurations that were met. -/
  met : Std.TreeSet Configuration
  /-- The indices at which the accepting state was met. -/
  ends : IndexSet

namespace Search

def opening (configuration : Configuration) : Search :=
  ⟨[configuration], Std.TreeSet.empty.insert configuration, ∅⟩

def meet (search : Search) (configuration : Configuration) : Search :=
  if search.met.contains configuration then
    search
  else
    { search with
      pending := configuration :: search.pending
      met := search.met.insert configuration }

def note (accept : Nat) (search : Search) (configuration : Configuration) : Search :=
  if configuration.state = accept then
    { search with ends := search.ends.insert configuration.index }
  else
    search

variable {α : Type} [DecidableEq α] [Token α]

/-- The configurations one arc away from a configuration, in the order of the arcs. -/
def successors (graph : Graph α) (table : MacroTable α) (input : Array α)
    (configuration : Configuration) : List Configuration :=
  (graph.arcsFrom configuration.state).filterMap fun arc =>
    (arc.label.pass? table input configuration.index).map fun index => ⟨arc.target, index⟩

/-- Look at the next pending configuration, if there is one: note it and meet its successors. -/
def step (machine : Machine α) (table : MacroTable α) (input : Array α) (search : Search) :
    Option Search :=
  match search.pending with
  | [] => none
  | configuration :: rest =>
      some ((successors machine.graph table input configuration).foldl meet
        (note machine.accept { search with pending := rest } configuration))

def run (machine : Machine α) (table : MacroTable α) (input : Array α) :
    (fuel : Nat) → Search → Search
  | 0, search => search
  | fuel + 1, search =>
      match step machine table input search with
      | none => search
      | some next => run machine table input fuel next

end Search

namespace Machine

variable {α : Type} [DecidableEq α] [Token α]

/--
A bound on the number of configurations that can be met from an index on: every state that is met is
the start or the target of an arc.
-/
def searchBound (machine : Machine α) (input : Array α) (index : Nat) : Nat :=
  (machine.graph.arcTotal + 1) * (input.size - index + 1)

/--
Every index at which a match from `index` can end; none for an index past the end of the input.
-/
def ends (machine : Machine α) (table : MacroTable α) (input : Array α) (index : Nat) : IndexSet :=
  if input.size < index then
    ∅
  else
    (Search.run machine table input (machine.searchBound input index)
      (Search.opening ⟨machine.start, index⟩)).ends

end Machine

end Motif
