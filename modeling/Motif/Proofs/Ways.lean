import Motif.Proofs.Construction

/-!
# Ways along the arcs

Where the arcs of a graph lead, whatever their labels ask of an input. Graphs that are put together
have the ways of their parts, with the states of a part numbered on, and the ways along the arcs by
which the parts are connected.
-/

namespace Motif

variable {α : Type}

namespace Graph

def Leads (graph : Graph α) (state next : Nat) : Prop :=
  ∃ arc ∈ graph.arcsFrom state, arc.target = next

/-- Any number of arcs, one after another, lead from the one state to the other. -/
def Connects (graph : Graph α) : Nat → Nat → Prop :=
  Relation.ReflTransGen graph.Leads

/-- Some arcs that follow one another, from the one state to the other. -/
inductive Path (graph : Graph α) : Nat → List (Arc α) → Nat → Prop where
  | nil (state : Nat) : Path graph state [] state
  | cons {state last : Nat} {arc : Arc α} {rest : List (Arc α)}
      (harc : arc ∈ graph.arcsFrom state) (hrest : Path graph arc.target rest last) :
      Path graph state (arc :: rest) last

variable {graph other : Graph α} {first last : Nat}

theorem leads_of_mem {state : Nat} {arc : Arc α} (h : arc ∈ graph.arcsFrom state) :
    graph.Leads state arc.target :=
  ⟨arc, h, rfl⟩

theorem Connects.mono {larger : Graph α}
    (h : ∀ state next, graph.Leads state next → larger.Leads state next)
    (hway : graph.Connects first last) : larger.Connects first last :=
  Relation.ReflTransGen.mono h _ _ hway

theorem Connects.invariant {motive : Nat → Prop} (hway : graph.Connects first last)
    (hfirst : motive first)
    (hstep : ∀ state arc, motive state → arc ∈ graph.arcsFrom state → motive arc.target) :
    motive last := by
  induction hway with
  | refl => exact hfirst
  | tail _ hleads ih =>
      obtain ⟨arc, harc, rfl⟩ := hleads
      exact hstep _ arc ih harc

theorem Path.connects {path : List (Arc α)} (h : graph.Path first path last) :
    graph.Connects first last := by
  induction h with
  | nil state => exact Relation.ReflTransGen.refl
  | cons harc _ ih => exact Relation.ReflTransGen.head (leads_of_mem harc) ih

/-- Along a path from one arc to a later one there is a way from the target of the first. -/
theorem Path.exists_between {before after : List (Arc α)} {arc : Arc α}
    (h : graph.Path first (before ++ arc :: after) last) :
    ∃ state, graph.Path first before state ∧ arc ∈ graph.arcsFrom state ∧
      graph.Path arc.target after last := by
  induction before generalizing first with
  | nil =>
      cases h with
      | cons harc hrest => exact ⟨first, .nil first, harc, hrest⟩
  | cons earlier before ih =>
      cases h with
      | cons hearlier hrest =>
          obtain ⟨state, hbefore, harc, hafter⟩ := ih hrest
          exact ⟨state, .cons hearlier hbefore, harc, hafter⟩

/-! ## Ways in a graph that is put together -/

theorem state_append_cases {state : Nat} (h : state < (graph.append other).size) :
    state < graph.size ∨ ∃ inner, inner < other.size ∧ state = inner + graph.size := by
  rw [size_append] at h
  by_cases hstate : state < graph.size
  · exact Or.inl hstate
  · exact Or.inr ⟨state - graph.size, by omega, by omega⟩

theorem leads_connect (label : Label α) {source : Nat} (target : Nat)
    (h : source < graph.size) : (graph.connect source label target).Leads source target :=
  ⟨⟨label, target⟩, mem_arcsFrom_connect.2 (Or.inr ⟨rfl, h, rfl⟩), rfl⟩

theorem Leads.connect {state next : Nat} (h : graph.Leads state next) (source : Nat)
    (label : Label α) (target : Nat) : (graph.connect source label target).Leads state next := by
  obtain ⟨arc, harc, htarget⟩ := h
  exact ⟨arc, mem_arcsFrom_connect.2 (Or.inl harc), htarget⟩

theorem Connects.connect (h : graph.Connects first last) (source : Nat) (label : Label α)
    (target : Nat) : (graph.connect source label target).Connects first last :=
  h.mono fun _ _ hleads => hleads.connect source label target

theorem Connects.append_left (h : graph.Connects first last) (other : Graph α) :
    (graph.append other).Connects first last := by
  apply h.mono
  intro state next hleads
  obtain ⟨arc, harc, htarget⟩ := hleads
  exact ⟨arc, mem_arcsFrom_append.2 (Or.inl harc), htarget⟩

theorem Connects.append_right (graph : Graph α) (h : other.Connects first last) :
    (graph.append other).Connects (first + graph.size) (last + graph.size) := by
  have hleads : ∀ state next, other.Leads state next →
      (graph.append other).Leads (state + graph.size) (next + graph.size) := by
    intro state next hleads
    obtain ⟨arc, harc, rfl⟩ := hleads
    exact leads_of_mem (mem_arcsFrom_append.2 (Or.inr ⟨state, arc, rfl, harc, rfl⟩))
  exact Relation.ReflTransGen.lift (· + graph.size) hleads _ _ h

end Graph

namespace Machine

/-! ## Where a way through a machine that is put together can be -/

theorem connects_join_left {first second : Machine α} (hfirst : first.Framed) {state last : Nat}
    (hstate : state < first.graph.size) (hway : (join first second).graph.Connects state last) :
    last < first.graph.size ∧ first.graph.Connects state last ∨ first.graph.size ≤ last := by
  apply hway.invariant (Or.inl ⟨hstate, Relation.ReflTransGen.refl⟩)
  intro state arc hcurrent harc
  rcases Graph.mem_arcsFrom_connect.1 harc with harc | ⟨-, -, rfl⟩
  · rcases Graph.mem_arcsFrom_append.1 harc with harc | ⟨inner, innerArc, -, -, rfl⟩
    · have hlt := Graph.lt_size_of_mem_arcsFrom harc
      rcases hcurrent with ⟨-, hinside⟩ | hbeyond
      · exact Or.inl ⟨hfirst.target_lt _ arc harc, hinside.tail (Graph.leads_of_mem harc)⟩
      · omega
    · exact Or.inr (Nat.le_add_left _ _)
  · exact Or.inr (Nat.le_add_left _ _)

theorem connects_join_right {first second : Machine α} (hfirst : first.Framed) {inner last : Nat}
    (hway : (join first second).graph.Connects (inner + first.graph.size) last) :
    ∃ innerLast, last = innerLast + first.graph.size ∧
      second.graph.Connects inner innerLast := by
  have haccept := hfirst.accept_lt
  apply hway.invariant ⟨inner, rfl, Relation.ReflTransGen.refl⟩
  intro state arc hcurrent harc
  obtain ⟨innerState, rfl, hinside⟩ := hcurrent
  rcases Graph.mem_arcsFrom_connect.1 harc with harc | ⟨hsource, -, -⟩
  · rcases Graph.mem_arcsFrom_append.1 harc with harc | ⟨other, innerArc, heq, harc, rfl⟩
    · have hlt := Graph.lt_size_of_mem_arcsFrom harc
      omega
    · have hsame : innerState = other := by omega
      subst hsame
      exact ⟨innerArc.target, rfl, hinside.tail (Graph.leads_of_mem harc)⟩
  · omega

/-- Past the start of a machine with one more branch a way does not come to that branch. -/
theorem connects_addBranch_left {machine branch : Machine α} (hmachine : machine.Framed)
    {state last : Nat} (hstate : state < machine.graph.size) (hne : state ≠ machine.start)
    (hway : (addBranch machine branch).graph.Connects state last) :
    last < machine.graph.size ∧ machine.graph.Connects state last := by
  have hinside : last < machine.graph.size ∧ last ≠ machine.start ∧
      machine.graph.Connects state last := by
    apply hway.invariant ⟨hstate, hne, Relation.ReflTransGen.refl⟩
    intro state arc hcurrent harc
    obtain ⟨hlt, hne, hinside⟩ := hcurrent
    rcases Graph.mem_arcsFrom_connect.1 harc with harc | ⟨hsource, -, -⟩
    · rcases Graph.mem_arcsFrom_connect.1 harc with harc | ⟨hsource, -, -⟩
      · rcases Graph.mem_arcsFrom_append.1 harc with harc | ⟨inner, innerArc, heq, -, -⟩
        · exact ⟨hmachine.target_lt _ arc harc, hmachine.target_ne_start _ arc harc,
            hinside.tail (Graph.leads_of_mem harc)⟩
        · omega
      · exact absurd hsource hne
    · omega
  exact ⟨hinside.1, hinside.2.2⟩

/-- From a branch a way stays there until it comes to the accepting state of the machine. -/
theorem connects_addBranch_right {machine branch : Machine α} (hmachine : machine.Framed)
    (hbranch : branch.Framed) {inner last : Nat}
    (hway : (addBranch machine branch).graph.Connects (inner + machine.graph.size) last) :
    (∃ innerLast, last = innerLast + machine.graph.size ∧
      branch.graph.Connects inner innerLast) ∨ last = machine.accept := by
  have hstart := hmachine.start_lt
  have hdead := (framed_addBranch hmachine hbranch).arcsFrom_accept
  apply hway.invariant (Or.inl ⟨inner, rfl, Relation.ReflTransGen.refl⟩)
  intro state arc hcurrent harc
  rcases hcurrent with ⟨innerState, rfl, hinside⟩ | rfl
  · rcases Graph.mem_arcsFrom_connect.1 harc with harc | ⟨-, -, rfl⟩
    · rcases Graph.mem_arcsFrom_connect.1 harc with harc | ⟨hsource, -, -⟩
      · rcases Graph.mem_arcsFrom_append.1 harc with harc | ⟨other, innerArc, heq, harc, rfl⟩
        · have hlt := Graph.lt_size_of_mem_arcsFrom harc
          omega
        · have hsame : innerState = other := by omega
          subst hsame
          exact Or.inl ⟨innerArc.target, rfl, hinside.tail (Graph.leads_of_mem harc)⟩
      · omega
    · exact Or.inr rfl
  · rw [show machine.accept = (addBranch machine branch).accept from rfl, hdead] at harc
    exact absurd harc List.not_mem_nil

end Machine

end Motif
