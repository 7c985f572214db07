import Motif.Proofs.Reachability

/-!
# Runs of machines that are put together

What runs through a machine is read off the machines it was put together from: a row of machines is
passed by runs one after another, machines side by side by a run of one of them, and the ways around
and back by as many runs as the quantifier allows. Each lemma needs the frame of a machine only:
nothing leads outside it, back to its start or on from its accepting state.
-/

namespace Motif

/-- As many steps of a relation as a quantifier allows. -/
def Quantifier.close (quantifier : Quantifier) (relation : Nat → Nat → Prop) :
    Nat → Nat → Prop :=
  match quantifier with
  | .once => relation
  | .optional => fun index stop => relation index stop ∨ stop = index
  | .zeroOrMore => Relation.ReflTransGen relation
  | .oneOrMore => Relation.TransGen relation

/-- One step of a relation or, if the quantifier allows many, at least one. -/
def Quantifier.laps (quantifier : Quantifier) (relation : Nat → Nat → Prop) :
    Nat → Nat → Prop :=
  if quantifier.allowsMany then Relation.TransGen relation else relation

theorem Quantifier.close_iff {quantifier : Quantifier} {relation : Nat → Nat → Prop}
    {index stop : Nat} (h : quantifier ≠ .once) :
    quantifier.close relation index stop ↔
      quantifier.laps relation index stop ∨ quantifier.allowsNone = true ∧ stop = index := by
  cases quantifier with
  | once => exact absurd rfl h
  | optional => simp [close, laps, allowsMany, allowsNone]
  | zeroOrMore =>
      simp [close, laps, allowsMany, allowsNone, Relation.reflTransGen_iff_eq_or_transGen, or_comm]
  | oneOrMore => simp [close, laps, allowsMany, allowsNone]

namespace Machine

variable {α : Type}

/--
The start and the accepting state are two states of the graph, no arc leads outside the graph or
back to the start, and none leaves the accepting state.
-/
structure Framed (machine : Machine α) : Prop where
  start_lt : machine.start < machine.graph.size
  accept_lt : machine.accept < machine.graph.size
  start_ne_accept : machine.start ≠ machine.accept
  target_lt : ∀ state arc, arc ∈ machine.graph.arcsFrom state →
    arc.target < machine.graph.size
  target_ne_start : ∀ state arc, arc ∈ machine.graph.arcsFrom state →
    arc.target ≠ machine.start
  arcsFrom_accept : machine.graph.arcsFrom machine.accept = []

theorem mem_arcsFrom_single {label : Label α} {state : Nat} {arc : Arc α} :
    arc ∈ (single label).graph.arcsFrom state ↔ state = 0 ∧ arc = ⟨label, 1⟩ := by
  rcases state with _ | _ | state <;> simp [single, Graph.arcsFrom]

theorem arcsFrom_disconnected (state : Nat) :
    (disconnected : Machine α).graph.arcsFrom state = [] := by
  rcases state with _ | _ | state <;> simp [disconnected, Graph.arcsFrom]

theorem framed_single (label : Label α) : (single label).Framed := by
  refine ⟨Nat.zero_lt_two, Nat.one_lt_two, Nat.zero_ne_one, ?_, ?_, rfl⟩
  · intro state arc hmem
    rw [(mem_arcsFrom_single.1 hmem).2]
    exact Nat.one_lt_two
  · intro state arc hmem
    rw [(mem_arcsFrom_single.1 hmem).2]
    exact Nat.one_ne_zero

theorem framed_disconnected : (disconnected : Machine α).Framed := by
  refine ⟨Nat.zero_lt_two, Nat.one_lt_two, Nat.zero_ne_one, ?_, ?_, rfl⟩
  · intro state arc hmem
    rw [arcsFrom_disconnected] at hmem
    exact absurd hmem List.not_mem_nil
  · intro state arc hmem
    rw [arcsFrom_disconnected] at hmem
    exact absurd hmem List.not_mem_nil

theorem framed_join {first second : Machine α} (hfirst : first.Framed) (hsecond : second.Framed) :
    (join first second).Framed := by
  have hstart := hfirst.start_lt
  have haccept := hfirst.accept_lt
  have hstart2 := hsecond.start_lt
  have haccept2 := hsecond.accept_lt
  have harc : ∀ state arc, arc ∈ (join first second).graph.arcsFrom state →
      arc.target < first.graph.size + second.graph.size ∧ arc.target ≠ first.start ∧
        state ≠ second.accept + first.graph.size := by
    intro state arc hmem
    rcases Graph.mem_arcsFrom_connect.1 hmem with hmem | ⟨rfl, -, rfl⟩
    · rcases Graph.mem_arcsFrom_append.1 hmem with hmem | ⟨inner, innerArc, rfl, hinner, rfl⟩
      · have hlt := hfirst.target_lt state arc hmem
        have hne := hfirst.target_ne_start state arc hmem
        have hstate := Graph.lt_size_of_mem_arcsFrom hmem
        omega
      · have hlt := hsecond.target_lt inner innerArc hinner
        have hne : inner ≠ second.accept := by
          intro heq
          subst heq
          rw [hsecond.arcsFrom_accept] at hinner
          exact List.not_mem_nil hinner
        simp only [Arc.shift]
        omega
    · dsimp only
      omega
  refine ⟨?_, ?_, ?_, ?_, ?_, ?_⟩
  · simp only [join, Graph.size_connect, Graph.size_append]
    omega
  · simp only [join, Graph.size_connect, Graph.size_append]
    omega
  · simp only [join]
    omega
  · intro state arc hmem
    simp only [join, Graph.size_connect, Graph.size_append]
    exact (harc state arc hmem).1
  · intro state arc hmem
    exact (harc state arc hmem).2.1
  · refine List.eq_nil_iff_forall_not_mem.2 fun arc hmem => ?_
    exact (harc _ arc hmem).2.2 rfl

theorem framed_addBranch {machine branch : Machine α} (hmachine : machine.Framed)
    (hbranch : branch.Framed) : (addBranch machine branch).Framed := by
  have hstart := hmachine.start_lt
  have haccept := hmachine.accept_lt
  have hne := hmachine.start_ne_accept
  have hstart2 := hbranch.start_lt
  have haccept2 := hbranch.accept_lt
  have harc : ∀ state arc, arc ∈ (addBranch machine branch).graph.arcsFrom state →
      arc.target < machine.graph.size + branch.graph.size ∧ arc.target ≠ machine.start ∧
        state ≠ machine.accept := by
    intro state arc hmem
    rcases Graph.mem_arcsFrom_connect.1 hmem with hmem | ⟨rfl, -, rfl⟩
    · rcases Graph.mem_arcsFrom_connect.1 hmem with hmem | ⟨rfl, -, rfl⟩
      · rcases Graph.mem_arcsFrom_append.1 hmem with hmem | ⟨inner, innerArc, rfl, hinner, rfl⟩
        · have hlt := hmachine.target_lt state arc hmem
          have hback := hmachine.target_ne_start state arc hmem
          refine ⟨by omega, hback, ?_⟩
          intro heq
          subst heq
          rw [hmachine.arcsFrom_accept] at hmem
          exact List.not_mem_nil hmem
        · have hlt := hbranch.target_lt inner innerArc hinner
          simp only [Arc.shift]
          omega
      · dsimp only
        omega
    · dsimp only
      omega
  refine ⟨?_, ?_, hne, ?_, ?_, ?_⟩
  · simp only [addBranch, Graph.size_connect, Graph.size_append]
    omega
  · simp only [addBranch, Graph.size_connect, Graph.size_append]
    omega
  · intro state arc hmem
    simp only [addBranch, Graph.size_connect, Graph.size_append]
    exact (harc state arc hmem).1
  · intro state arc hmem
    exact (harc state arc hmem).2.1
  · refine List.eq_nil_iff_forall_not_mem.2 fun arc hmem => ?_
    exact (harc _ arc hmem).2.2 rfl

theorem framed_inSequence {machines : List (Machine α)}
    (h : ∀ machine ∈ machines, machine.Framed) : (inSequence machines).Framed := by
  cases machines with
  | nil => exact framed_single .epsilon
  | cons first rest =>
      apply List.foldlRecOn (motive := Framed) rest join (h first List.mem_cons_self)
      intro machine hmachine second hmem
      exact framed_join hmachine (h second (List.mem_cons_of_mem _ hmem))

theorem framed_oneOf {branches : List (Machine α)}
    (h : ∀ branch ∈ branches, branch.Framed) : (oneOf branches).Framed := by
  apply List.foldlRecOn (motive := Framed) branches addBranch framed_disconnected
  intro machine hmachine branch hmem
  exact framed_addBranch hmachine (h branch hmem)

theorem size_addEpsilonIf (wanted : Bool) (source target : Nat) (graph : Graph α) :
    (addEpsilonIf wanted source target graph).size = graph.size := by
  unfold addEpsilonIf
  split
  · exact Graph.size_connect graph source .epsilon target
  · rfl

theorem mem_arcsFrom_addEpsilonIf {wanted : Bool} {source target state : Nat} {graph : Graph α}
    {arc : Arc α} :
    arc ∈ (addEpsilonIf wanted source target graph).arcsFrom state ↔
      arc ∈ graph.arcsFrom state ∨
        wanted = true ∧ state = source ∧ source < graph.size ∧ arc = ⟨.epsilon, target⟩ := by
  unfold addEpsilonIf
  split
  · rename_i hwanted
    rw [Graph.mem_arcsFrom_connect]
    simp [hwanted]
  · rename_i hwanted
    simp [hwanted]

theorem graph_size_repeated {quantifier : Quantifier} (h : quantifier ≠ .once)
    (machine : Machine α) :
    (machine.repeated quantifier).graph.size = machine.graph.size + 2 := by
  simp only [repeated, if_neg h, size_addEpsilonIf, Graph.size_connect, Graph.size_newState]

theorem mem_arcsFrom_repeated {quantifier : Quantifier} (h : quantifier ≠ .once)
    {machine : Machine α} (haccept : machine.accept < machine.graph.size) {state : Nat}
    {arc : Arc α} :
    arc ∈ (machine.repeated quantifier).graph.arcsFrom state ↔
      arc ∈ machine.graph.arcsFrom state ∨
        state = machine.graph.size ∧ arc = ⟨.epsilon, machine.start⟩ ∨
        state = machine.accept ∧ arc = ⟨.epsilon, machine.graph.size + 1⟩ ∨
        quantifier.allowsNone = true ∧ state = machine.graph.size ∧
          arc = ⟨.epsilon, machine.graph.size + 1⟩ ∨
        quantifier.allowsMany = true ∧ state = machine.accept ∧
          arc = ⟨.epsilon, machine.start⟩ := by
  have hlt : machine.accept < machine.graph.size + 1 + 1 := by omega
  have hnew : machine.graph.size < machine.graph.size + 1 + 1 := by omega
  simp only [repeated, if_neg h, mem_arcsFrom_addEpsilonIf, Graph.mem_arcsFrom_connect,
    Graph.arcsFrom_newState, size_addEpsilonIf, Graph.size_connect, Graph.size_newState, hlt, hnew,
    true_and, or_assoc]

theorem framed_repeated {machine : Machine α} (hmachine : machine.Framed)
    (quantifier : Quantifier) : (machine.repeated quantifier).Framed := by
  by_cases h : quantifier = .once
  · simpa [repeated, h] using hmachine
  have hstart := hmachine.start_lt
  have haccept := hmachine.accept_lt
  have hsize := graph_size_repeated h machine
  have hnewStart : (machine.repeated quantifier).start = machine.graph.size := by
    simp [repeated, h]
  have hnewAccept : (machine.repeated quantifier).accept = machine.graph.size + 1 := by
    simp [repeated, h]
  have harc : ∀ state arc, arc ∈ (machine.repeated quantifier).graph.arcsFrom state →
      arc.target < machine.graph.size + 2 ∧ arc.target ≠ machine.graph.size ∧
        state ≠ machine.graph.size + 1 := by
    intro state arc hmem
    rcases (mem_arcsFrom_repeated h haccept).1 hmem with
      hmem | ⟨rfl, rfl⟩ | ⟨rfl, rfl⟩ | ⟨-, rfl, rfl⟩ | ⟨-, rfl, rfl⟩
    · have hlt := hmachine.target_lt state arc hmem
      have hstate := Graph.lt_size_of_mem_arcsFrom hmem
      omega
    all_goals
      dsimp only
      omega
  refine ⟨by omega, by omega, by omega, ?_, ?_, ?_⟩
  · intro state arc hmem
    rw [hsize]
    exact (harc state arc hmem).1
  · intro state arc hmem
    rw [hnewStart]
    exact (harc state arc hmem).2.1
  · refine List.eq_nil_iff_forall_not_mem.2 fun arc hmem => ?_
    exact (harc _ arc hmem).2.2 hnewAccept

/-! ## Runs -/

variable [DecidableEq α] [Token α] {table : MacroTable α} {input : Array α} {index stop : Nat}

/-- What a frame says of a run that began inside the machine: it never leaves the machine. -/
theorem Framed.state_lt_of_reaches {machine : Machine α} (h : machine.Framed)
    {first last : Configuration} (hfirst : first.state < machine.graph.size)
    (hreach : machine.graph.Reaches table input first last) :
    last.state < machine.graph.size := by
  apply hreach.invariant hfirst
  intro current next _ hstep
  rcases hstep with ⟨arc, harc, htarget, -⟩
  rw [← htarget]
  exact h.target_lt current.state arc harc

theorem runs_single (label : Label α) :
    (single label).Runs table input index stop ↔ label.pass? table input index = some stop := by
  constructor
  · intro hrun
    have hlast : (⟨1, stop⟩ : Configuration) = ⟨0, index⟩ ∨
        1 = 1 ∧ label.pass? table input index = some stop := by
      apply Graph.Reaches.invariant (motive := fun current => current = ⟨0, index⟩ ∨
        current.state = 1 ∧ label.pass? table input index = some current.index) hrun (Or.inl rfl)
      intro current next hcurrent hstep
      rcases hstep with ⟨arc, harc, htarget, hpass⟩
      rcases hcurrent with rfl | ⟨hstate, -⟩
      · obtain ⟨-, rfl⟩ := mem_arcsFrom_single.1 harc
        exact Or.inr ⟨htarget.symm, hpass⟩
      · exact absurd ((mem_arcsFrom_single.1 harc).1.symm.trans hstate) Nat.zero_ne_one
    rcases hlast with heq | ⟨-, hpass⟩
    · cases heq
    · exact hpass
  · intro hpass
    exact Graph.Reaches.of_step ⟨⟨label, 1⟩, mem_arcsFrom_single.2 ⟨rfl, rfl⟩, rfl, hpass⟩

theorem not_runs_disconnected : ¬ (disconnected : Machine α).Runs table input index stop := by
  intro hrun
  have hlast : (⟨1, stop⟩ : Configuration) = ⟨0, index⟩ := by
    apply Graph.Reaches.invariant (motive := fun current => current = ⟨0, index⟩) hrun rfl
    intro current next heq hstep
    subst heq
    rcases hstep with ⟨arc, harc, -⟩
    rw [arcsFrom_disconnected] at harc
    exact absurd harc List.not_mem_nil
  cases hlast

/-- Where a run through two machines in a row is: in the first, or in the second after it. -/
def AlongJoin (first second : Machine α) (table : MacroTable α) (input : Array α) (index : Nat)
    (current : Configuration) : Prop :=
  first.graph.Reaches table input ⟨first.start, index⟩ current ∨
    ∃ middle inner, first.Runs table input index middle ∧
      second.graph.Reaches table input ⟨second.start, middle⟩ inner ∧
        current = inner.shift first.graph.size

theorem AlongJoin.step {first second : Machine α} (hfirst : first.Framed)
    {current next : Configuration} (h : AlongJoin first second table input index current)
    (hstep : (join first second).graph.Step table input current next) :
    AlongJoin first second table input index next := by
  rcases h with hreach | ⟨middle, inner, hrun, hreach, rfl⟩
  · have hinside := hfirst.state_lt_of_reaches hfirst.start_lt hreach
    rcases Graph.step_connect_epsilon_iff.1 hstep with hown | ⟨hstate, -, rfl⟩
    · exact Or.inl (hreach.tail ((Graph.step_append_left_iff hinside).1 hown))
    · -- The crossing: the first machine has been run through up to this index.
      have hrun : first.Runs table input index current.index := by
        unfold Runs
        rw [← hstate]
        exact hreach
      exact Or.inr ⟨current.index, ⟨second.start, current.index⟩, hrun,
        Relation.ReflTransGen.refl, rfl⟩
  · rcases Graph.step_connect_epsilon_iff.1 hstep with hown | ⟨hstate, -, -⟩
    · obtain ⟨innerNext, hinner, rfl⟩ := Graph.step_append_right_iff.1 hown
      exact Or.inr ⟨middle, innerNext, hrun, hreach.tail hinner, rfl⟩
    · have hlt := hfirst.accept_lt
      rw [Configuration.shift_state] at hstate
      omega

/-- A run through two machines in a row passes the first up to some index, then the second. -/
theorem runs_join {first second : Machine α} (hfirst : first.Framed) :
    (join first second).Runs table input index stop ↔
      ∃ middle, first.Runs table input index middle ∧
        second.Runs table input middle stop := by
  have haccept : first.accept < (first.graph.append second.graph).size := by
    rw [Graph.size_append]
    have hlt := hfirst.accept_lt
    omega
  constructor
  · intro hrun
    have hlast : AlongJoin first second table input index
        ⟨second.accept + first.graph.size, stop⟩ :=
      hrun.invariant (Or.inl Relation.ReflTransGen.refl) fun _ _ => AlongJoin.step hfirst
    rcases hlast with hreach | ⟨middle, inner, hrun, hreach, heq⟩
    · have hinside := hfirst.state_lt_of_reaches hfirst.start_lt hreach
      dsimp only at hinside
      omega
    · have hshift : (⟨second.accept, stop⟩ : Configuration).shift first.graph.size =
          inner.shift first.graph.size := heq
      rw [← Configuration.shift_injective hshift] at hreach
      exact ⟨middle, hrun, hreach⟩
  · intro h
    rcases h with ⟨middle, hrun, hrun2⟩
    have hleft := (Graph.Reaches.append_left second.graph hrun).connect first.accept
      (second.start + first.graph.size)
    have hright := (Graph.Reaches.append_right first.graph hrun2).connect first.accept
      (second.start + first.graph.size)
    have hcross : (join first second).graph.Step table input ⟨first.accept, middle⟩
        ⟨second.start + first.graph.size, middle⟩ :=
      Graph.step_connect_epsilon_iff.2 (Or.inr ⟨rfl, haccept, rfl⟩)
    exact (hleft.tail hcross).trans hright

theorem step_addBranch_iff (table : MacroTable α) (input : Array α) {machine branch : Machine α}
    (hmachine : machine.Framed) (hbranch : branch.Framed) (current next : Configuration) :
    (addBranch machine branch).graph.Step table input current next ↔
      (machine.graph.append branch.graph).Step table input current next ∨
        current.state = machine.start ∧
          next = ⟨branch.start + machine.graph.size, current.index⟩ ∨
        current.state = branch.accept + machine.graph.size ∧
          next = ⟨machine.accept, current.index⟩ := by
  have hstart := hmachine.start_lt
  have haccept := hbranch.accept_lt
  have hsource : machine.start < machine.graph.size + branch.graph.size := by omega
  have hsource2 : branch.accept + machine.graph.size <
      machine.graph.size + branch.graph.size := by omega
  simp only [addBranch, Graph.step_connect_epsilon_iff, Graph.size_connect, Graph.size_append,
    hsource, hsource2, true_and, or_assoc]

/--
Where a run through a machine with one more branch is: in the machine, in the branch, or in the
accepting state after a run through the branch.
-/
def AlongBranch (machine branch : Machine α) (table : MacroTable α) (input : Array α) (index : Nat)
    (current : Configuration) : Prop :=
  machine.graph.Reaches table input ⟨machine.start, index⟩ current ∨
    (∃ inner, branch.graph.Reaches table input ⟨branch.start, index⟩ inner ∧
      current = inner.shift machine.graph.size) ∨
    current.state = machine.accept ∧ branch.Runs table input index current.index

/-- No arc leads back to the start, so a run is there only where it began. -/
theorem Framed.index_of_reaches_start {machine : Machine α} (h : machine.Framed)
    {current : Configuration} (hstate : current.state = machine.start)
    (hreach : machine.graph.Reaches table input ⟨machine.start, index⟩ current) :
    current.index = index := by
  cases hreach with
  | refl => rfl
  | tail _ hlast =>
      obtain ⟨arc, harc, htarget, -⟩ := hlast
      exact absurd (htarget.trans hstate) (h.target_ne_start _ arc harc)

theorem Framed.not_step_accept {machine : Machine α} (h : machine.Framed)
    {current next : Configuration} (hstate : current.state = machine.accept) :
    ¬ machine.graph.Step table input current next := by
  intro hstep
  obtain ⟨arc, harc, -⟩ := hstep
  rw [hstate, h.arcsFrom_accept] at harc
  exact List.not_mem_nil harc

theorem AlongBranch.step {machine branch : Machine α} (hmachine : machine.Framed)
    (hbranch : branch.Framed) {current next : Configuration}
    (h : AlongBranch machine branch table input index current)
    (hstep : (addBranch machine branch).graph.Step table input current next) :
    AlongBranch machine branch table input index next := by
  have hstart := hmachine.start_lt
  have haccept := hmachine.accept_lt
  rcases h with hreach | ⟨inner, hreach, rfl⟩ | ⟨hstate, hrun⟩
  · have hinside := hmachine.state_lt_of_reaches hstart hreach
    rcases (step_addBranch_iff _ _ hmachine hbranch _ _).1 hstep with
      hown | ⟨hsource, rfl⟩ | ⟨hsource, -⟩
    · exact Or.inl (hreach.tail ((Graph.step_append_left_iff hinside).1 hown))
    · rw [hmachine.index_of_reaches_start hsource hreach]
      exact Or.inr (Or.inl ⟨⟨branch.start, index⟩, Relation.ReflTransGen.refl, rfl⟩)
    · omega
  · rcases (step_addBranch_iff _ _ hmachine hbranch _ _).1 hstep with
      hown | ⟨hsource, -⟩ | ⟨hsource, rfl⟩
    · obtain ⟨innerNext, hinner, rfl⟩ := Graph.step_append_right_iff.1 hown
      exact Or.inr (Or.inl ⟨innerNext, hreach.tail hinner, rfl⟩)
    · rw [Configuration.shift_state] at hsource
      omega
    · rw [Configuration.shift_state, Nat.add_right_cancel_iff] at hsource
      have hrun : branch.Runs table input index inner.index := by
        unfold Runs
        rw [← hsource]
        exact hreach
      exact Or.inr (Or.inr ⟨rfl, hrun⟩)
  · rcases (step_addBranch_iff _ _ hmachine hbranch _ _).1 hstep with
      hown | ⟨hsource, -⟩ | ⟨hsource, -⟩
    · have hinside : current.state < machine.graph.size := by omega
      exact absurd ((Graph.step_append_left_iff hinside).1 hown) (hmachine.not_step_accept hstate)
    · exact absurd (hsource.symm.trans hstate) hmachine.start_ne_accept
    · omega

/-- A run through a machine with one more branch is a run of the machine or of the branch. -/
theorem runs_addBranch {machine branch : Machine α} (hmachine : machine.Framed)
    (hbranch : branch.Framed) :
    (addBranch machine branch).Runs table input index stop ↔
      machine.Runs table input index stop ∨ branch.Runs table input index stop := by
  constructor
  · intro hrun
    have hlast : AlongBranch machine branch table input index ⟨machine.accept, stop⟩ :=
      hrun.invariant (Or.inl Relation.ReflTransGen.refl) fun _ _ =>
        AlongBranch.step hmachine hbranch
    rcases hlast with hreach | ⟨inner, -, heq⟩ | ⟨-, hbranchRun⟩
    · exact Or.inl hreach
    · have haccept := hmachine.accept_lt
      simp only [Configuration.shift, Configuration.mk.injEq] at heq
      omega
    · exact Or.inr hbranchRun
  · intro h
    have hsteps := fun current next =>
      (step_addBranch_iff table input hmachine hbranch current next).2
    rcases h with hrun | hrun
    · exact (Graph.Reaches.append_left branch.graph hrun).mono fun current next hstep =>
        hsteps current next (Or.inl hstep)
    · have hinside := (Graph.Reaches.append_right machine.graph hrun).mono
        fun current next hstep => hsteps current next (Or.inl hstep)
      have henter := hsteps ⟨machine.start, index⟩ ⟨branch.start + machine.graph.size, index⟩
        (Or.inr (Or.inl ⟨rfl, rfl⟩))
      have hleave := hsteps ⟨branch.accept + machine.graph.size, stop⟩ ⟨machine.accept, stop⟩
        (Or.inr (Or.inr ⟨rfl, rfl⟩))
      exact ((Graph.Reaches.of_step henter).trans hinside).tail hleave

def RunsInTurn (table : MacroTable α) (input : Array α) :
    List (Machine α) → Nat → Nat → Prop
  | [] => fun index stop => stop = index
  | machine :: rest => fun index stop =>
      ∃ middle, machine.Runs table input index middle ∧
        RunsInTurn table input rest middle stop

theorem runs_foldl_join {rest : List (Machine α)} :
    ∀ {first : Machine α} {stop : Nat}, first.Framed →
      (∀ machine ∈ rest, machine.Framed) →
        ((rest.foldl join first).Runs table input index stop ↔
          RunsInTurn table input (first :: rest) index stop) := by
  induction rest with
  | nil =>
      intro first stop _ _
      simp [RunsInTurn]
  | cons second rest ih =>
      intro first stop hfirst hrest
      have hjoin := framed_join hfirst (hrest second List.mem_cons_self)
      rw [List.foldl_cons, ih hjoin fun machine hmem => hrest machine (List.mem_cons_of_mem _ hmem)]
      simp only [RunsInTurn, runs_join hfirst]
      constructor
      · intro h
        rcases h with ⟨last, ⟨middle, hrun, hrun2⟩, hturn⟩
        exact ⟨middle, hrun, last, hrun2, hturn⟩
      · intro h
        rcases h with ⟨middle, hrun, last, hrun2, hturn⟩
        exact ⟨last, ⟨middle, hrun, hrun2⟩, hturn⟩

theorem runs_inSequence {machines : List (Machine α)}
    (h : ∀ machine ∈ machines, machine.Framed) :
    (inSequence machines).Runs table input index stop ↔
      RunsInTurn table input machines index stop := by
  cases machines with
  | nil =>
      rw [inSequence, runs_single, RunsInTurn, Label.pass?, Option.some.injEq, eq_comm]
  | cons first rest =>
      exact runs_foldl_join (h first List.mem_cons_self) fun machine hmem =>
        h machine (List.mem_cons_of_mem _ hmem)

theorem runs_foldl_addBranch {branches : List (Machine α)} :
    ∀ {machine : Machine α}, machine.Framed →
      (∀ branch ∈ branches, branch.Framed) →
        ((branches.foldl addBranch machine).Runs table input index stop ↔
          machine.Runs table input index stop ∨
            ∃ branch ∈ branches, branch.Runs table input index stop) := by
  induction branches with
  | nil => simp
  | cons branch rest ih =>
      intro machine hmachine hbranches
      have hbranch := hbranches branch List.mem_cons_self
      rw [List.foldl_cons, ih (framed_addBranch hmachine hbranch) fun other hmem =>
        hbranches other (List.mem_cons_of_mem _ hmem), runs_addBranch hmachine hbranch, or_assoc]
      simp

theorem runs_oneOf {branches : List (Machine α)}
    (h : ∀ branch ∈ branches, branch.Framed) :
    (oneOf branches).Runs table input index stop ↔
      ∃ branch ∈ branches, branch.Runs table input index stop := by
  rw [oneOf, runs_foldl_addBranch framed_disconnected h]
  exact or_iff_right not_runs_disconnected

theorem step_repeated_iff (table : MacroTable α) (input : Array α) {quantifier : Quantifier}
    (h : quantifier ≠ .once) {machine : Machine α} (haccept : machine.accept < machine.graph.size)
    (current next : Configuration) :
    (machine.repeated quantifier).graph.Step table input current next ↔
      machine.graph.Step table input current next ∨
        current.state = machine.graph.size ∧ next = ⟨machine.start, current.index⟩ ∨
        current.state = machine.accept ∧ next = ⟨machine.graph.size + 1, current.index⟩ ∨
        quantifier.allowsNone = true ∧ current.state = machine.graph.size ∧
          next = ⟨machine.graph.size + 1, current.index⟩ ∨
        quantifier.allowsMany = true ∧ current.state = machine.accept ∧
          next = ⟨machine.start, current.index⟩ := by
  cases next with
  | mk state here =>
      simp only [Graph.Step, mem_arcsFrom_repeated h haccept, Configuration.mk.injEq]
      constructor
      · intro hstep
        rcases hstep with ⟨arc, hmem | ⟨hstate, rfl⟩ | ⟨hstate, rfl⟩ | ⟨hnone, hstate, rfl⟩ |
          ⟨hmany, hstate, rfl⟩, htarget, hpass⟩
        · exact Or.inl ⟨arc, hmem, htarget, hpass⟩
        all_goals
          simp only [Label.pass?, Option.some.injEq] at hpass
        · exact Or.inr (Or.inl ⟨hstate, htarget.symm, hpass.symm⟩)
        · exact Or.inr (Or.inr (Or.inl ⟨hstate, htarget.symm, hpass.symm⟩))
        · exact Or.inr (Or.inr (Or.inr (Or.inl ⟨hnone, hstate, htarget.symm, hpass.symm⟩)))
        · exact Or.inr (Or.inr (Or.inr (Or.inr ⟨hmany, hstate, htarget.symm, hpass.symm⟩)))
      · intro hway
        rcases hway with ⟨arc, hmem, htarget, hpass⟩ | ⟨hstate, rfl, rfl⟩ | ⟨hstate, rfl, rfl⟩ |
          ⟨hnone, hstate, rfl, rfl⟩ | ⟨hmany, hstate, rfl, rfl⟩
        · exact ⟨arc, Or.inl hmem, htarget, hpass⟩
        · exact ⟨_, Or.inr (Or.inl ⟨hstate, rfl⟩), rfl, rfl⟩
        · exact ⟨_, Or.inr (Or.inr (Or.inl ⟨hstate, rfl⟩)), rfl, rfl⟩
        · exact ⟨_, Or.inr (Or.inr (Or.inr (Or.inl ⟨hnone, hstate, rfl⟩))), rfl, rfl⟩
        · exact ⟨_, Or.inr (Or.inr (Or.inr (Or.inr ⟨hmany, hstate, rfl⟩))), rfl, rfl⟩

/--
Laps through a machine are runs from its start to its accepting state in the machine with ways
around and back.
-/
theorem reaches_repeated_of_laps {quantifier : Quantifier} (h : quantifier ≠ .once)
    {machine : Machine α} (hmachine : machine.Framed)
    (hlaps : quantifier.laps (machine.Runs table input) index stop) :
    (machine.repeated quantifier).graph.Reaches table input ⟨machine.start, index⟩
      ⟨machine.accept, stop⟩ := by
  have hsteps := fun current next =>
    (step_repeated_iff table input h hmachine.accept_lt current next).2
  have honce : ∀ {start finish : Nat}, machine.Runs table input start finish →
      (machine.repeated quantifier).graph.Reaches table input ⟨machine.start, start⟩
        ⟨machine.accept, finish⟩ :=
    fun hrun => Graph.Reaches.mono (fun current next hstep =>
      hsteps current next (Or.inl hstep)) hrun
  unfold Quantifier.laps at hlaps
  split at hlaps
  · rename_i hmany
    induction hlaps with
    | single hrun => exact honce hrun
    | @tail middle _ _ hrun ih =>
        have hback := hsteps ⟨machine.accept, middle⟩ ⟨machine.start, middle⟩
          (Or.inr (Or.inr (Or.inr (Or.inr ⟨hmany, rfl, rfl⟩))))
        exact (ih.tail hback).trans (honce hrun)
  · exact honce hlaps

/-- A lap can begin where the run began and, if many are allowed, after the laps up to there. -/
def LapBegins (quantifier : Quantifier) (machine : Machine α) (table : MacroTable α)
    (input : Array α) (index entry : Nat) : Prop :=
  entry = index ∨
    quantifier.allowsMany = true ∧ quantifier.laps (machine.Runs table input) index entry

theorem LapBegins.laps {quantifier : Quantifier} {machine : Machine α} {entry : Nat}
    (h : LapBegins quantifier machine table input index entry)
    (hrun : machine.Runs table input entry stop) :
    quantifier.laps (machine.Runs table input) index stop := by
  rcases h with rfl | ⟨hmany, hlaps⟩
  · unfold Quantifier.laps
    split
    · exact Relation.TransGen.single hrun
    · exact hrun
  · simp only [Quantifier.laps, hmany, if_true] at hlaps ⊢
    exact hlaps.tail hrun

/--
Where a run through a machine with ways around and back is: at the new start, on a lap, or in the
new accepting state after all laps.
-/
def AlongLaps (quantifier : Quantifier) (machine : Machine α) (table : MacroTable α)
    (input : Array α) (index : Nat) (current : Configuration) : Prop :=
  current = ⟨machine.graph.size, index⟩ ∨
    (∃ entry, LapBegins quantifier machine table input index entry ∧
      machine.graph.Reaches table input ⟨machine.start, entry⟩ current) ∨
    current.state = machine.graph.size + 1 ∧
      (quantifier.laps (machine.Runs table input) index current.index ∨
        quantifier.allowsNone = true ∧ current.index = index)

theorem AlongLaps.step {quantifier : Quantifier} (honce : quantifier ≠ .once)
    {machine : Machine α} (hmachine : machine.Framed) {current next : Configuration}
    (h : AlongLaps quantifier machine table input index current)
    (hstep : (machine.repeated quantifier).graph.Step table input current next) :
    AlongLaps quantifier machine table input index next := by
  have haccept := hmachine.accept_lt
  -- Outside the machine no arc of its own leads on.
  have inside : machine.graph.Step table input current next →
      current.state < machine.graph.size := by
    intro hown
    obtain ⟨arc, harc, -⟩ := hown
    exact Graph.lt_size_of_mem_arcsFrom harc
  rcases h with rfl | ⟨entry, hentry, hreach⟩ | ⟨hstate, -⟩
  · rcases (step_repeated_iff _ _ honce haccept _ _).1 hstep with
      hown | ⟨-, rfl⟩ | ⟨hsource, -⟩ | ⟨hnone, -, rfl⟩ | ⟨-, hsource, -⟩
    · exact absurd (inside hown) (Nat.lt_irrefl _)
    · exact Or.inr (Or.inl ⟨index, Or.inl rfl, Relation.ReflTransGen.refl⟩)
    · dsimp only at hsource
      omega
    · exact Or.inr (Or.inr ⟨rfl, Or.inr ⟨hnone, rfl⟩⟩)
    · dsimp only at hsource
      omega
  · have hlt := hmachine.state_lt_of_reaches hmachine.start_lt hreach
    have hlaps : current.state = machine.accept →
        quantifier.laps (machine.Runs table input) index current.index := by
      intro hstate
      apply hentry.laps
      unfold Runs
      rw [← hstate]
      exact hreach
    rcases (step_repeated_iff _ _ honce haccept _ _).1 hstep with
      hown | ⟨hsource, -⟩ | ⟨hsource, rfl⟩ | ⟨-, hsource, -⟩ | ⟨hback, hsource, rfl⟩
    · exact Or.inr (Or.inl ⟨entry, hentry, hreach.tail hown⟩)
    · omega
    · exact Or.inr (Or.inr ⟨rfl, Or.inl (hlaps hsource)⟩)
    · omega
    · exact Or.inr (Or.inl ⟨current.index, Or.inr ⟨hback, hlaps hsource⟩,
        Relation.ReflTransGen.refl⟩)
  · rcases (step_repeated_iff _ _ honce haccept _ _).1 hstep with
      hown | ⟨hsource, -⟩ | ⟨hsource, -⟩ | ⟨-, hsource, -⟩ | ⟨-, hsource, -⟩
    · have hlt := inside hown
      omega
    all_goals omega

/-- A run through a machine with ways around and back makes as many laps as are allowed. -/
theorem runs_repeated (quantifier : Quantifier) {machine : Machine α} (hmachine : machine.Framed) :
    (machine.repeated quantifier).Runs table input index stop ↔
      quantifier.close (machine.Runs table input) index stop := by
  by_cases h : quantifier = .once
  · simp [repeated, h, Quantifier.close]
  rw [Quantifier.close_iff h]
  have hends : (machine.repeated quantifier).Runs table input index stop ↔
      (machine.repeated quantifier).graph.Reaches table input ⟨machine.graph.size, index⟩
        ⟨machine.graph.size + 1, stop⟩ := by
    simp [Runs, repeated, h]
  rw [hends]
  constructor
  · intro hrun
    have hlast : AlongLaps quantifier machine table input index
        ⟨machine.graph.size + 1, stop⟩ :=
      hrun.invariant (Or.inl rfl) fun _ _ => AlongLaps.step h hmachine
    rcases hlast with heq | ⟨entry, -, hreach⟩ | ⟨-, hlaps⟩
    · simp only [Configuration.mk.injEq] at heq
      omega
    · have hlt := hmachine.state_lt_of_reaches hmachine.start_lt hreach
      dsimp only at hlt
      omega
    · exact hlaps
  · intro hclosed
    have hsteps := fun current next =>
      (step_repeated_iff table input h hmachine.accept_lt current next).2
    rcases hclosed with hlaps | ⟨hnone, rfl⟩
    · have henter := hsteps ⟨machine.graph.size, index⟩ ⟨machine.start, index⟩
        (Or.inr (Or.inl ⟨rfl, rfl⟩))
      have hleave := hsteps ⟨machine.accept, stop⟩ ⟨machine.graph.size + 1, stop⟩
        (Or.inr (Or.inr (Or.inl ⟨rfl, rfl⟩)))
      exact ((Graph.Reaches.of_step henter).trans
        (reaches_repeated_of_laps h hmachine hlaps)).tail hleave
    · exact Graph.Reaches.of_step (hsteps _ _
        (Or.inr (Or.inr (Or.inr (Or.inl ⟨hnone, rfl, rfl⟩)))))

end Machine

end Motif
