import Motif.Proofs.Construction
import Motif.Proofs.Search

/-!
# A graph behind another one

Putting a graph behind another one disturbs neither, as long as the numbers of the states fit the
words that hold them. What is found in the graph behind is what is found in it alone, whether its
states exist or not. An arc of the graph in front that led nowhere may now lead into the graph
behind, but there is no way back; so what is found in the graph in front stays the same, between its
own states always, and at every state if none of its arcs led nowhere. A number that wraps around
can undo this: it may be that of a state in front. For the machines that the program makes the
numbers fit as soon as a word can number their states.
-/

namespace Motif

variable {α : Type}

namespace Numbering

theorem shift?_of_lt {numbering : Numbering} {offset state : Nat}
    (h : state + offset < numbering.limit) :
    numbering.shift? offset state = some (state + offset) :=
  if_pos h

theorem shift?_eq_none_iff {numbering : Numbering} {offset state : Nat} :
    numbering.shift? offset state = none ↔
      numbering.wraps = false ∧ ¬ state + offset < numbering.limit := by
  unfold shift?
  split
  · simp [*]
  · cases numbering.wraps <;> simp [*]

end Numbering

namespace Graph

/-- No arc leads to a state that does not exist. -/
def Closed (graph : Graph α) : Prop :=
  ∀ arc ∈ graph.states.toList.flatten, arc.target < graph.size

instance (graph : Graph α) : Decidable graph.Closed :=
  inferInstanceAs (Decidable (∀ arc ∈ graph.states.toList.flatten, _))

/-- Every arc leads to a state that can be numbered on by `offset` in machine words. -/
def Fits (numbering : Numbering) (offset : Nat) (graph : Graph α) : Prop :=
  ∀ arc ∈ graph.states.toList.flatten, arc.target + offset < numbering.limit

instance (numbering : Numbering) (offset : Nat) (graph : Graph α) :
    Decidable (graph.Fits numbering offset) :=
  inferInstanceAs (Decidable (∀ arc ∈ graph.states.toList.flatten, _))

/-- If the numbers fit, nothing is lost by adding them in machine words. -/
theorem append?_of_fits {numbering : Numbering} {graph other : Graph α}
    (h : other.Fits numbering graph.size) :
    graph.append? numbering other = some (graph.append other) := by
  have hmoved : other.states.toList.mapM
      (fun arcs => arcs.mapM (Arc.shift? numbering graph.size)) =
        some (other.states.toList.map fun arcs => arcs.map (Arc.shift graph.size)) := by
    refine mapM_eq_some_map fun arcs harcs => mapM_eq_some_map fun arc harc => ?_
    rw [Arc.shift?, Numbering.shift?_of_lt (h arc (List.mem_flatten.2 ⟨arcs, harcs, harc⟩))]
    rfl
  simp only [append?, hmoved, Option.map_some, append, ← Array.toList_map, Array.toArray_toList]

/-- The program stops at the first number that no word holds, unless the numbers wrap around. -/
theorem append?_eq_none_iff {numbering : Numbering} {graph other : Graph α} :
    graph.append? numbering other = none ↔
      numbering.wraps = false ∧ ¬ other.Fits numbering graph.size := by
  simp only [append?, Option.map_eq_none_iff, mapM_eq_none_iff, Arc.shift?,
    Numbering.shift?_eq_none_iff, Fits, List.mem_flatten, not_forall]
  constructor
  · intro h
    obtain ⟨arcs, harcs, arc, harc, hwraps, hwide⟩ := h
    exact ⟨hwraps, arc, ⟨arcs, harcs, harc⟩, hwide⟩
  · intro h
    obtain ⟨hwraps, arc, ⟨arcs, harcs, harc⟩, hwide⟩ := h
    exact ⟨arcs, harcs, arc, harc, hwraps, hwide⟩

theorem arcsFrom_of_append? {numbering : Numbering} {graph other spliced : Graph α}
    (h : graph.append? numbering other = some spliced) {state : Nat} (hstate : state < graph.size) :
    spliced.arcsFrom state = graph.arcsFrom state := by
  obtain ⟨states, -, rfl⟩ := Option.map_eq_some_iff.1 h
  unfold size at hstate
  simp [arcsFrom, hstate, Array.getElem?_append]

/-! ## Reaching -/

variable [DecidableEq α] [Token α] {table : MacroTable α} {input : Array α}

theorem Closed.state_lt_of_step {graph : Graph α} (h : graph.Closed)
    {current next : Configuration} (hstep : graph.Step table input current next) :
    next.state < graph.size := by
  obtain ⟨arc, harc, htarget, -⟩ := hstep
  rw [← htarget]
  exact h arc (mem_flatten_of_mem_arcsFrom harc)

theorem reaches_append_right_iff (graph : Graph α) {other : Graph α}
    {first last : Configuration} :
    (graph.append other).Reaches table input (first.shift graph.size) (last.shift graph.size) ↔
      other.Reaches table input first last := by
  rw [reaches_move_iff fun current next => step_append_right_iff]
  constructor
  · intro hfound
    obtain ⟨own, hown, heq⟩ := hfound
    rwa [Configuration.shift_injective heq]
  · intro hreach
    exact ⟨last, hreach, rfl⟩

/-- There is no way from the second graph back into the first one. -/
theorem size_le_of_step_append {graph other : Graph α} {current next : Configuration}
    (hstep : (graph.append other).Step table input current next)
    (hcurrent : graph.size ≤ current.state) : graph.size ≤ next.state := by
  rcases step_append_iff.1 hstep with ⟨arc, harc, -⟩ | ⟨inner, innerNext, -, -, rfl⟩
  · have hlt := lt_size_of_mem_arcsFrom harc
    omega
  · exact Nat.le_add_left graph.size innerNext.state

theorem reaches_append_iff_of_lt {graph : Graph α} (other : Graph α) {first last : Configuration}
    (hlast : last.state < graph.size) :
    (graph.append other).Reaches table input first last ↔
      graph.Reaches table input first last := by
  refine ⟨fun hreach => ?_, Reaches.append_left other⟩
  have hinside : graph.Reaches table input first last ∨ graph.size ≤ last.state := by
    apply hreach.invariant (Or.inl Relation.ReflTransGen.refl)
    intro current next hcurrent hstep
    rcases Nat.lt_or_ge current.state graph.size with hlt | hge
    · rcases hcurrent with hreached | hge
      · exact Or.inl (hreached.tail ((step_append_left_iff hlt).1 hstep))
      · omega
    · exact Or.inr (size_le_of_step_append hstep hge)
  exact hinside.resolve_right (by omega)

/-- What a graph reaches from its states without leaving them depends on their arcs alone. -/
theorem Closed.reaches_iff_of_arcsFrom_eq {graph larger : Graph α} (h : graph.Closed)
    (harcs : ∀ state < graph.size, larger.arcsFrom state = graph.arcsFrom state)
    {first last : Configuration} (hfirst : first.state < graph.size) :
    larger.Reaches table input first last ↔ graph.Reaches table input first last := by
  have hstep : ∀ current next, current.state < graph.size →
      (larger.Step table input current next ↔ graph.Step table input current next) := by
    intro current next hcurrent
    rw [Step, Step, harcs current.state hcurrent]
  constructor
  · intro hreach
    -- No step leaves the graph, so every one of them is a step of its own.
    have hinside : graph.Reaches table input first last ∧ last.state < graph.size := by
      apply hreach.invariant ⟨Relation.ReflTransGen.refl, hfirst⟩
      intro current next hcurrent hnext
      have hown := (hstep current next hcurrent.2).1 hnext
      exact ⟨hcurrent.1.tail hown, h.state_lt_of_step hown⟩
    exact hinside.1
  · refine Reaches.mono fun current next hown => (hstep current next ?_).2 hown
    obtain ⟨arc, harc, -⟩ := hown
    exact lt_size_of_mem_arcsFrom harc

end Graph

namespace Machine

theorem Framed.closed {machine : Machine α} (h : machine.Framed) : machine.graph.Closed := by
  intro arc harc
  obtain ⟨arcs, harcs, hmem⟩ := List.mem_flatten.1 harc
  obtain ⟨state, hstate, rfl⟩ := List.getElem_of_mem harcs
  rw [Array.length_toList] at hstate
  apply h.target_lt state
  simpa [Graph.arcsFrom, hstate] using hmem

/-- The graph of a framed machine can be put behind another one if a word can number the states. -/
theorem Framed.append?_eq_append {first second : Machine α} (h : second.Framed)
    {numbering : Numbering} (hsize : first.graph.size + second.graph.size ≤ numbering.limit) :
    first.graph.append? numbering second.graph = some (first.graph.append second.graph) := by
  apply Graph.append?_of_fits
  intro arc harc
  have hlt := h.closed arc harc
  omega

variable [DecidableEq α] [Token α]

theorem ends_eq_of_runs_iff {machine other : Machine α} {table : MacroTable α} {input : Array α}
    {index : Nat} (h : ∀ stop, machine.Runs table input index stop ↔
      other.Runs table input index stop) :
    machine.ends table input index = other.ends table input index := by
  apply IndexSet.ext
  intro stop
  rw [mem_ends_iff, mem_ends_iff, h]

/--
If all numbers fit, the graph that is put behind finds between its states, numbered on, what it
finds alone, and the one in front finds at its own states what it found before. Whatever wraps
around, if no arc of the one in front leads to a state that it does not have, it finds from its own
states what it found before. Only for an arc whose target does not fit can the program stop.
-/
theorem ends_append_graph (numbering : Numbering) (graph other : Graph α) (table : MacroTable α)
    (input : Array α) (index : Nat) :
    (other.Fits numbering graph.size →
      (∀ start accept,
        start + graph.size < numbering.limit → accept + graph.size < numbering.limit →
          ∃ spliced first last, graph.append? numbering other = some spliced ∧
            numbering.shift? graph.size start = some first ∧
            numbering.shift? graph.size accept = some last ∧
            (Machine.mk spliced first last).ends table input index =
              (Machine.mk other start accept).ends table input index) ∧
      ∃ spliced, graph.append? numbering other = some spliced ∧
        ∀ start accept, accept < graph.size →
          (Machine.mk spliced start accept).ends table input index =
            (Machine.mk graph start accept).ends table input index) ∧
    (graph.Closed → ∀ spliced, graph.append? numbering other = some spliced →
      ∀ start accept, start < graph.size →
        (Machine.mk spliced start accept).ends table input index =
          (Machine.mk graph start accept).ends table input index) ∧
    (graph.append? numbering other = none ↔
      numbering.wraps = false ∧ ¬ other.Fits numbering graph.size) := by
  refine ⟨fun hfits => ⟨fun start accept hstart haccept => ?_, ?_⟩,
    fun hclosed spliced hspliced start accept hstart => ?_, Graph.append?_eq_none_iff⟩
  · refine ⟨graph.append other, start + graph.size, accept + graph.size,
      Graph.append?_of_fits hfits, Numbering.shift?_of_lt hstart,
      Numbering.shift?_of_lt haccept, ?_⟩
    exact ends_eq_of_runs_iff fun stop =>
      @Graph.reaches_append_right_iff _ _ _ _ _ graph other ⟨start, index⟩ ⟨accept, stop⟩
  · refine ⟨graph.append other, Graph.append?_of_fits hfits, fun start accept haccept => ?_⟩
    exact ends_eq_of_runs_iff fun _ => Graph.reaches_append_iff_of_lt other haccept
  · have harcs := fun state => @Graph.arcsFrom_of_append? _ _ _ _ _ hspliced state
    exact ends_eq_of_runs_iff fun _ => hclosed.reaches_iff_of_arcsFrom_eq harcs hstart

/--
Two graphs with cycles, numbered in words of 64 bits. In the one behind, the accepting state is only
the target of an arc.
-/
theorem ends_append_graph_of_cycles :
    let numbering : Numbering := ⟨64, false⟩
    let graph : Graph Char :=
      ⟨#[[⟨.epsilon, 1⟩, ⟨.exclude [.literal ['b']], 0⟩], [⟨.take .wildcard, 0⟩]]⟩
    let other : Graph Char := ⟨#[[⟨.epsilon, 1⟩, ⟨.take (.literal ['b']), 7⟩], [⟨.epsilon, 0⟩]]⟩
    other.Fits numbering graph.size ∧
      (∃ spliced first last, graph.append? numbering other = some spliced ∧
        numbering.shift? graph.size 1 = some first ∧ numbering.shift? graph.size 7 = some last ∧
        (Machine.mk spliced first last).ends ∅ #['a', 'b'] 0 =
          (Machine.mk other 1 7).ends ∅ #['a', 'b'] 0) ∧
      ∃ spliced, graph.append? numbering other = some spliced ∧
        (Machine.mk spliced 3 1).ends ∅ #['a', 'b'] 0 =
          (Machine.mk graph 3 1).ends ∅ #['a', 'b'] 0 ∧
        graph.Closed ∧
          (Machine.mk spliced 0 1).ends ∅ #['a', 'b'] 0 =
            (Machine.mk graph 0 1).ends ∅ #['a', 'b'] 0 := by
  intro numbering graph other
  have hfits : other.Fits numbering graph.size := by decide
  have hclosed : graph.Closed := by decide
  obtain ⟨hbehind, hfront, -⟩ := ends_append_graph numbering graph other ∅ #['a', 'b'] 0
  obtain ⟨spliced, hspliced, hat⟩ := (hbehind hfits).2
  exact ⟨hfits, (hbehind hfits).1 1 7 (by decide) (by decide), spliced, hspliced,
    hat 3 1 (by decide), hclosed, hfront hclosed spliced hspliced 0 1 (by decide)⟩

/--
In words of 64 bits the greatest numbers cannot be numbered on, neither those of a start and an
accepting state nor that of the state to which an arc leads. The program stops, or it goes on with
states of the graph in front, from which there are other ways.
-/
theorem ends_append_graph_of_greatest_numbers :
    let graph : Graph Char := ⟨#[[], [⟨.epsilon, 0⟩, ⟨.epsilon, 5⟩]]⟩
    let embeds := fun (wraps : Bool) (other : Graph Char) (start accept : Nat) =>
      ∃ spliced first last, graph.append? ⟨64, wraps⟩ other = some spliced ∧
        Numbering.shift? ⟨64, wraps⟩ graph.size start = some first ∧
        Numbering.shift? ⟨64, wraps⟩ graph.size accept = some last ∧
        (Machine.mk spliced first last).ends ∅ #[] 0 = (Machine.mk other start accept).ends ∅ #[] 0
    ∀ wraps, let limit := Numbering.limit ⟨64, wraps⟩
      ¬ embeds wraps ⟨#[[]]⟩ (limit - 1) (limit - 2) ∧
        ¬ embeds wraps ⟨#[[⟨.epsilon, limit - 1⟩]]⟩ 0 3 := by
  intro graph embeds wraps limit
  have differ : ∀ {other spliced : Graph Char} {start accept first last : Nat},
      graph.append? ⟨64, true⟩ other = some spliced →
      Numbering.shift? ⟨64, true⟩ graph.size start = some first →
      Numbering.shift? ⟨64, true⟩ graph.size accept = some last →
      (Machine.mk spliced first last).ends ∅ #[] 0 ≠
        (Machine.mk other start accept).ends ∅ #[] 0 →
      ¬ embeds true other start accept := by
    intro other spliced start accept first last hspliced hfirst hlast hne h
    obtain ⟨spliced', first', last', hspliced', hfirst', hlast', heq⟩ := h
    cases hspliced.symm.trans hspliced'
    cases hfirst.symm.trans hfirst'
    cases hlast.symm.trans hlast'
    exact hne heq
  cases wraps with
  | false =>
      constructor
      · rintro ⟨spliced, first, last, -, hfirst, -⟩
        cases hfirst
      · rintro ⟨spliced, first, last, hspliced, -⟩
        cases hspliced
  | true =>
      constructor
      · exact differ rfl rfl rfl (by decide +kernel)
      · exact differ rfl rfl rfl (by decide +kernel)

/-- An arc of the graph in front that led nowhere may lead into the graph behind. -/
example :
    let graph : Graph Char := ⟨#[[⟨.epsilon, 1⟩], [⟨.epsilon, 2⟩]]⟩
    let other : Graph Char := ⟨#[[⟨.take .wildcard, 0⟩]]⟩
    (Machine.mk (graph.append other) 0 2).ends ∅ #['a'] 0 ≠
      (Machine.mk graph 0 2).ends ∅ #['a'] 0 := by
  decide +kernel

end Machine

end Motif
