import Motif.Graph.Label

/-!
# Graphs

States with their outgoing arcs. A state is the number of its place; an arc may lead to a state that
does not exist, and a state that does not exist has no arcs. A graph is put into another one by
numbering its states on from the other's last.
-/

namespace Motif

/-- What is made of each item without failing is made of all of them. -/
theorem mapM_eq_some_map {β γ : Type} {items : List β} {make? : β → Option γ} {make : β → γ}
    (h : ∀ item ∈ items, make? item = some (make item)) :
    items.mapM make? = some (items.map make) := by
  induction items with
  | nil => rfl
  | cons item rest ih =>
      rw [List.forall_mem_cons] at h
      simp [List.mapM_cons, h.1, ih h.2]

theorem mapM_eq_none_iff {β γ : Type} {items : List β} {make? : β → Option γ} :
    items.mapM make? = none ↔ ∃ item ∈ items, make? item = none := by
  induction items with
  | nil => simp
  | cons item rest ih =>
      simp only [List.mem_cons, exists_eq_or_imp, ← ih, List.mapM_cons]
      cases make? item <;> cases rest.mapM make? <;> simp

/-- A way from one state to another. -/
structure Arc (α : Type) where
  label : Label α
  target : Nat
deriving DecidableEq

/-- The same arc in a graph whose states are numbered on by `offset`. -/
def Arc.shift {α : Type} (offset : Nat) (arc : Arc α) : Arc α :=
  { arc with target := arc.target + offset }

/-- How machine words are added: a sum that none of them holds stops the program or wraps around. -/
structure Numbering where
  bits : Nat
  wraps : Bool
deriving DecidableEq

/-- The least number that no word holds. -/
def Numbering.limit (numbering : Numbering) : Nat :=
  Nat.pow 2 numbering.bits

/-- The number of a state that is numbered on by `offset`, unless the program stops. -/
def Numbering.shift? (numbering : Numbering) (offset state : Nat) : Option Nat :=
  if state + offset < numbering.limit then some (state + offset)
  else if numbering.wraps then some ((state + offset) % numbering.limit)
  else none

/-- `Arc.shift` in machine words. -/
def Arc.shift? {α : Type} (numbering : Numbering) (offset : Nat) (arc : Arc α) : Option (Arc α) :=
  (numbering.shift? offset arc.target).map fun target => { arc with target := target }

/-- The states of a graph, each as the list of the arcs that leave it. -/
structure Graph (α : Type) where
  states : Array (List (Arc α))
deriving DecidableEq

namespace Graph

variable {α : Type}

instance : EmptyCollection (Graph α) :=
  ⟨⟨#[]⟩⟩

instance : Inhabited (Graph α) :=
  ⟨∅⟩

def size (graph : Graph α) : Nat :=
  graph.states.size

/-- The arcs that leave a state, in the order in which they were added. -/
def arcsFrom (graph : Graph α) (state : Nat) : List (Arc α) :=
  graph.states[state]?.getD []

def arcTotal (graph : Graph α) : Nat :=
  graph.states.toList.flatten.length

def newState (graph : Graph α) : Graph α :=
  ⟨graph.states.push []⟩

/--
The graph with one more arc as the last of those that leave `source`; unchanged if there is no such
state.
-/
def connect (graph : Graph α) (source : Nat) (label : Label α) (target : Nat) : Graph α :=
  ⟨graph.states.modify source fun arcs => arcs ++ [⟨label, target⟩]⟩

/-- The graph with one more arc, if the state that it is to leave exists. -/
def connect? (graph : Graph α) (source : Nat) (label : Label α) (target : Nat) :
    Option (Graph α) :=
  if source < graph.size then some (graph.connect source label target) else none

/--
The graph with the states of `other` after its own; their old numbers are now more by `graph.size`.
-/
def append (graph other : Graph α) : Graph α :=
  ⟨graph.states ++ other.states.map fun arcs => arcs.map (Arc.shift graph.size)⟩

/-- `append` in machine words. -/
def append? (numbering : Numbering) (graph other : Graph α) : Option (Graph α) :=
  let moved := other.states.toList.mapM fun arcs => arcs.mapM (Arc.shift? numbering graph.size)
  moved.map fun states => ⟨graph.states ++ states.toArray⟩

@[simp] theorem size_empty : (∅ : Graph α).size = 0 :=
  rfl

@[simp] theorem size_newState (graph : Graph α) : graph.newState.size = graph.size + 1 := by
  simp [newState, size]

@[simp] theorem size_connect (graph : Graph α) (source : Nat) (label : Label α) (target : Nat) :
    (graph.connect source label target).size = graph.size := by
  simp [connect, size]

@[simp] theorem size_append (graph other : Graph α) :
    (graph.append other).size = graph.size + other.size := by
  simp [append, size]

theorem arcsFrom_of_size_le {graph : Graph α} {state : Nat} (h : graph.size ≤ state) :
    graph.arcsFrom state = [] := by
  unfold size at h
  simp [arcsFrom, h]

@[simp] theorem arcsFrom_newState (graph : Graph α) (state : Nat) :
    graph.newState.arcsFrom state = graph.arcsFrom state := by
  simp only [arcsFrom, newState, Array.getElem?_push]
  split
  · rename_i heq
    simp [heq]
  · rfl

theorem arcsFrom_connect (graph : Graph α) (source : Nat) (label : Label α) (target state : Nat) :
    (graph.connect source label target).arcsFrom state =
      if state = source ∧ source < graph.size then graph.arcsFrom state ++ [⟨label, target⟩]
      else graph.arcsFrom state := by
  simp only [arcsFrom, connect, size, Array.getElem?_modify]
  by_cases hstate : source = state
  · subst hstate
    by_cases hsource : source < graph.states.size
    · simp [hsource]
    · simp [hsource]
  · have hne : ¬ state = source := fun h => hstate h.symm
    simp [hstate, hne]

theorem arcsFrom_append (graph other : Graph α) (state : Nat) :
    (graph.append other).arcsFrom state =
      if state < graph.size then graph.arcsFrom state
      else (other.arcsFrom (state - graph.size)).map (Arc.shift graph.size) := by
  simp only [arcsFrom, append, size, Array.getElem?_append]
  by_cases hstate : state < graph.states.size
  · simp [hstate]
  · cases h : other.states[state - graph.states.size]? <;> simp [hstate, h]

end Graph

/-! ## Written form -/

section

variable {α : Type} [Token α]

def stateName (state : Nat) : List Char :=
  's' :: Nat.toDigits 10 state

/-- An atom as it is written: a literal between quotes, a macro by its id. -/
def Atom.render : Atom α → List Char
  | .literal tokens => '\'' :: (Token.render tokens ++ ['\''])
  | .macroRef id => "macro#".toList ++ Nat.toDigits 10 id
  | .wildcard => ['.']
  | .inputStart => "START".toList
  | .inputEnd => "END".toList

/-- A label as it is written: excluded atoms stand in negated curly brackets. -/
def Label.render : Label α → List Char
  | .epsilon => ['ε']
  | .take atom => atom.render
  | .exclude atoms => '!' :: '{' :: (Text.joinWith [' '] (atoms.map Atom.render) ++ ['}'])

def Arc.renderLine (state : Nat) (arc : Arc α) : List Char :=
  stateName state ++ " -".toList ++ arc.label.render ++ "-> ".toList ++ stateName arc.target ++
    ['\n']

def renderState (state : Nat) (arcs : List (Arc α)) : List Char :=
  if arcs.isEmpty then stateName state ++ ['\n'] else arcs.flatMap (Arc.renderLine state)

def renderStates (first : Nat) : List (List (Arc α)) → List Char
  | [] => []
  | arcs :: rest => renderState first arcs ++ renderStates (first + 1) rest

def Graph.render (graph : Graph α) : List Char :=
  renderStates 0 graph.states.toList

end

end Motif
