import Mathlib.Logic.Relation
import Motif.Machine.Search

/-!
# Reachability

The configurations of a graph and the steps between them, as a relation that says nothing about how
they are searched. A step passes one arc; what holds of a configuration and is kept by every step
holds of all that can be reached.
-/

namespace Motif

def Configuration.shift (offset : Nat) (configuration : Configuration) : Configuration :=
  ⟨configuration.state + offset, configuration.index⟩

@[simp] theorem Configuration.shift_state (offset : Nat) (configuration : Configuration) :
    (configuration.shift offset).state = configuration.state + offset :=
  rfl

theorem Configuration.shift_injective {offset : Nat} {left right : Configuration}
    (h : left.shift offset = right.shift offset) : left = right := by
  cases left
  cases right
  simp only [Configuration.shift, Configuration.mk.injEq] at h
  rw [Configuration.mk.injEq]
  omega

variable {α : Type} [DecidableEq α] [Token α]
variable {table : MacroTable α} {input : Array α}

namespace Graph

/-- From one configuration to another by passing an arc. -/
def Step (graph : Graph α) (table : MacroTable α) (input : Array α)
    (current next : Configuration) : Prop :=
  ∃ arc ∈ graph.arcsFrom current.state, arc.target = next.state ∧
    arc.label.pass? table input current.index = some next.index

/-- From one configuration to another by passing any number of arcs. -/
def Reaches (graph : Graph α) (table : MacroTable α) (input : Array α) :
    Configuration → Configuration → Prop :=
  Relation.ReflTransGen (graph.Step table input)

theorem mem_successors_iff {graph : Graph α} {current next : Configuration} :
    next ∈ Search.successors graph table input current ↔
      graph.Step table input current next := by
  cases next with
  | mk state index =>
      simp only [Search.successors, Step, List.mem_filterMap, Option.map_eq_some_iff,
        Configuration.mk.injEq]
      constructor
      · intro h
        rcases h with ⟨arc, harc, _, hpass, htarget, rfl⟩
        exact ⟨arc, harc, htarget, hpass⟩
      · intro h
        rcases h with ⟨arc, harc, htarget, hpass⟩
        exact ⟨arc, harc, index, hpass, htarget, rfl⟩

/-- What holds at the beginning and is kept by every step holds of all that is reached. -/
theorem Reaches.invariant {graph : Graph α} {motive : Configuration → Prop}
    {first last : Configuration} (hreach : graph.Reaches table input first last)
    (hfirst : motive first)
    (hstep : ∀ current next, motive current → graph.Step table input current next →
      motive next) : motive last := by
  induction hreach with
  | refl => exact hfirst
  | tail _ hlast ih => exact hstep _ _ ih hlast

/-- Passing arcs moves forward in the input and not beyond its end. -/
theorem Reaches.bounds {graph : Graph α} {first last : Configuration}
    (hreach : graph.Reaches table input first last) (hindex : first.index ≤ input.size) :
    first.index ≤ last.index ∧ last.index ≤ input.size := by
  apply hreach.invariant ⟨Nat.le_refl _, hindex⟩
  intro current next hcurrent hstep
  rcases hcurrent with ⟨hle, hsize⟩
  rcases hstep with ⟨arc, -, -, hpass⟩
  have hbounds := Label.bounds_of_pass? hsize hpass
  omega

theorem Reaches.of_step {graph : Graph α} {current next : Configuration}
    (hstep : graph.Step table input current next) : graph.Reaches table input current next :=
  Relation.ReflTransGen.single hstep

/-- A graph that has all steps of another one reaches all that the other one reaches. -/
theorem Reaches.mono {graph larger : Graph α} {first last : Configuration}
    (hsteps : ∀ current next, graph.Step table input current next →
      larger.Step table input current next)
    (hreach : graph.Reaches table input first last) : larger.Reaches table input first last :=
  Relation.ReflTransGen.mono hsteps _ _ hreach

/--
If moving configurations carries the steps of one graph onto all the steps of another one from
there, it carries what is reached in the one onto all that is reached in the other one.
-/
theorem reaches_move_iff {graph moved : Graph α} {table' : MacroTable α} {input' : Array α}
    {move : Configuration → Configuration}
    (hstep : ∀ current next, moved.Step table' input' (move current) next ↔
      ∃ own, graph.Step table input current own ∧ next = move own)
    {first last : Configuration} :
    moved.Reaches table' input' (move first) last ↔
      ∃ own, graph.Reaches table input first own ∧ last = move own := by
  constructor
  · intro hreach
    apply hreach.invariant ⟨first, Relation.ReflTransGen.refl, rfl⟩
    intro current next hcurrent hnext
    obtain ⟨own, hown, rfl⟩ := hcurrent
    obtain ⟨ownNext, hownStep, rfl⟩ := (hstep own next).1 hnext
    exact ⟨ownNext, hown.tail hownStep, rfl⟩
  · intro hfound
    obtain ⟨own, hown, rfl⟩ := hfound
    exact Relation.ReflTransGen.lift move
      (fun current next hownStep => (hstep current (move next)).2 ⟨next, hownStep, rfl⟩) _ _ hown

/-! ## Arcs and steps of a graph that is put together -/

omit [DecidableEq α] [Token α] in
theorem mem_arcsFrom_connect {graph : Graph α} {source target state : Nat} {label : Label α}
    {arc : Arc α} :
    arc ∈ (graph.connect source label target).arcsFrom state ↔
      arc ∈ graph.arcsFrom state ∨
        state = source ∧ source < graph.size ∧ arc = ⟨label, target⟩ := by
  rw [arcsFrom_connect]
  split
  · rename_i h
    simp [h]
  · rename_i h
    constructor
    · exact Or.inl
    · intro hcase
      rcases hcase with hmem | ⟨hstate, hsource, -⟩
      · exact hmem
      · exact absurd ⟨hstate, hsource⟩ h

omit [DecidableEq α] [Token α] in
theorem lt_size_of_mem_arcsFrom {graph : Graph α} {state : Nat} {arc : Arc α}
    (h : arc ∈ graph.arcsFrom state) : state < graph.size := by
  apply Nat.lt_of_not_le
  intro hle
  rw [arcsFrom_of_size_le hle] at h
  exact List.not_mem_nil h

omit [DecidableEq α] [Token α] in
theorem mem_flatten_of_mem_arcsFrom {graph : Graph α} {state : Nat} {arc : Arc α}
    (h : arc ∈ graph.arcsFrom state) : arc ∈ graph.states.toList.flatten := by
  have hstate : state < graph.states.size := lt_size_of_mem_arcsFrom h
  have harcs : graph.arcsFrom state = graph.states[state] := by
    simp [arcsFrom, hstate]
  rw [harcs] at h
  exact List.mem_flatten.2 ⟨_, Array.mem_toList_iff.2 (Array.getElem_mem hstate), h⟩

omit [DecidableEq α] [Token α] in
theorem mem_arcsFrom_append {graph other : Graph α} {state : Nat} {arc : Arc α} :
    arc ∈ (graph.append other).arcsFrom state ↔
      arc ∈ graph.arcsFrom state ∨
        ∃ inner innerArc, state = inner + graph.size ∧ innerArc ∈ other.arcsFrom inner ∧
          arc = innerArc.shift graph.size := by
  rw [arcsFrom_append]
  split
  · rename_i hstate
    constructor
    · exact Or.inl
    · intro h
      rcases h with hmem | ⟨inner, innerArc, rfl, -, -⟩
      · exact hmem
      · omega
  · rename_i hstate
    rw [arcsFrom_of_size_le (Nat.le_of_not_lt hstate), List.mem_map]
    constructor
    · intro h
      rcases h with ⟨innerArc, hmem, rfl⟩
      exact Or.inr ⟨state - graph.size, innerArc, by omega, hmem, rfl⟩
    · intro h
      rcases h with hmem | ⟨inner, innerArc, rfl, hmem, rfl⟩
      · exact absurd hmem List.not_mem_nil
      · rw [Nat.add_sub_cancel]
        exact ⟨innerArc, hmem, rfl⟩

theorem step_connect_epsilon_iff {graph : Graph α} {source target : Nat}
    {current next : Configuration} :
    (graph.connect source .epsilon target).Step table input current next ↔
      graph.Step table input current next ∨
        current.state = source ∧ source < graph.size ∧ next = ⟨target, current.index⟩ := by
  cases next with
  | mk state index =>
      simp only [Step, mem_arcsFrom_connect, Configuration.mk.injEq]
      constructor
      · intro h
        rcases h with ⟨arc, hmem | ⟨hstate, hsource, rfl⟩, htarget, hpass⟩
        · exact Or.inl ⟨arc, hmem, htarget, hpass⟩
        · simp only [Label.pass?, Option.some.injEq] at hpass
          exact Or.inr ⟨hstate, hsource, htarget.symm, hpass.symm⟩
      · intro h
        rcases h with ⟨arc, hmem, htarget, hpass⟩ | ⟨hstate, hsource, rfl, rfl⟩
        · exact ⟨arc, Or.inl hmem, htarget, hpass⟩
        · exact ⟨⟨.epsilon, state⟩, Or.inr ⟨hstate, hsource, rfl⟩, rfl, rfl⟩

/-- A step in a graph with another one behind it is a step of the one or of the other. -/
theorem step_append_iff {graph other : Graph α} {current next : Configuration} :
    (graph.append other).Step table input current next ↔
      graph.Step table input current next ∨
        ∃ inner innerNext, other.Step table input inner innerNext ∧
          current = inner.shift graph.size ∧ next = innerNext.shift graph.size := by
  cases current with
  | mk state index =>
    cases next with
    | mk nextState nextIndex =>
        simp only [Step, mem_arcsFrom_append]
        constructor
        · intro h
          rcases h with ⟨arc, hmem | ⟨inner, innerArc, rfl, hmem, rfl⟩, htarget, hpass⟩
          · exact Or.inl ⟨arc, hmem, htarget, hpass⟩
          · refine Or.inr ⟨⟨inner, index⟩, ⟨innerArc.target, nextIndex⟩,
              ⟨innerArc, hmem, rfl, hpass⟩, rfl, ?_⟩
            rw [← htarget]
            rfl
        · intro h
          rcases h with ⟨arc, hmem, htarget, hpass⟩ |
            ⟨⟨inner, _⟩, ⟨_, _⟩, ⟨innerArc, hmem, rfl, hpass⟩, heq, hnext⟩
          · exact ⟨arc, Or.inl hmem, htarget, hpass⟩
          · cases heq
            cases hnext
            exact ⟨innerArc.shift graph.size, Or.inr ⟨inner, innerArc, rfl, hmem, rfl⟩, rfl, hpass⟩

theorem step_append_left_iff {graph other : Graph α} {current next : Configuration}
    (h : current.state < graph.size) :
    (graph.append other).Step table input current next ↔
      graph.Step table input current next := by
  rw [step_append_iff]
  constructor
  · intro hstep
    rcases hstep with hstep | ⟨inner, innerNext, -, rfl, -⟩
    · exact hstep
    · rw [Configuration.shift_state] at h
      omega
  · exact Or.inl

theorem step_append_right_iff {graph other : Graph α} {inner next : Configuration} :
    (graph.append other).Step table input (inner.shift graph.size) next ↔
      ∃ innerNext, other.Step table input inner innerNext ∧
        next = innerNext.shift graph.size := by
  rw [step_append_iff]
  constructor
  · intro hstep
    rcases hstep with ⟨arc, harc, -⟩ | ⟨inner', innerNext, hinner, heq, hnext⟩
    · have hlt := lt_size_of_mem_arcsFrom harc
      rw [Configuration.shift_state] at hlt
      omega
    · rw [← Configuration.shift_injective heq] at hinner
      exact ⟨innerNext, hinner, hnext⟩
  · intro hfound
    rcases hfound with ⟨innerNext, hinner, hnext⟩
    exact Or.inr ⟨inner, innerNext, hinner, rfl, hnext⟩

theorem Reaches.append_left {graph : Graph α} (other : Graph α) {first last : Configuration}
    (hreach : graph.Reaches table input first last) :
    (graph.append other).Reaches table input first last :=
  hreach.mono fun _ _ hstep => step_append_iff.2 (Or.inl hstep)

theorem Reaches.append_right (graph : Graph α) {other : Graph α} {first last : Configuration}
    (hreach : other.Reaches table input first last) :
    (graph.append other).Reaches table input (first.shift graph.size) (last.shift graph.size) :=
  Relation.ReflTransGen.lift (Configuration.shift graph.size)
    (fun _ _ hstep => step_append_iff.2 (Or.inr ⟨_, _, hstep, rfl, rfl⟩)) _ _ hreach

theorem Reaches.connect {graph : Graph α} (source target : Nat) {first last : Configuration}
    (hreach : graph.Reaches table input first last) :
    (graph.connect source .epsilon target).Reaches table input first last :=
  hreach.mono fun _ _ hstep => step_connect_epsilon_iff.2 (Or.inl hstep)

end Graph

/-- From the start of a machine at one index to its accepting state at another. -/
def Machine.Runs (machine : Machine α) (table : MacroTable α) (input : Array α)
    (index stop : Nat) : Prop :=
  machine.graph.Reaches table input ⟨machine.start, index⟩ ⟨machine.accept, stop⟩

end Motif
