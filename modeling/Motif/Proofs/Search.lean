import Mathlib.Data.List.Perm.Subperm
import Motif.Proofs.Reachability

/-!
# What a search finds

A search keeps the configurations that it has met apart into those that it has looked at and those
that are pending, each once. All that was looked at is closed under steps up to what was met, so a
search that has nothing pending has met exactly what can be reached. There are no more
configurations to look at than the bound on its steps.
-/

namespace Motif

variable {α : Type} [DecidableEq α] [Token α]
variable {table : MacroTable α} {input : Array α}

namespace Search

/-- What was met is what is pending and what was looked at, without repetition. -/
structure Tidy (looked : List Configuration) (search : Search) : Prop where
  nodup : (search.pending ++ looked).Nodup
  mem_met_iff : ∀ configuration,
    configuration ∈ search.met ↔ configuration ∈ search.pending ++ looked

theorem mem_met_meet {search : Search} {met configuration : Configuration} :
    configuration ∈ (search.meet met).met ↔
      configuration = met ∨ configuration ∈ search.met := by
  unfold meet
  split
  · rename_i hold
    constructor
    · exact Or.inr
    · intro h
      rcases h with rfl | hmem
      · exact Std.TreeSet.contains_iff_mem.1 hold
      · exact hmem
  · dsimp only
    rw [Std.TreeSet.mem_insert, Std.LawfulEqOrd.compare_eq_iff_eq, eq_comm]

theorem mem_met_foldl_meet {configurations : List Configuration} {configuration : Configuration} :
    ∀ {search : Search},
      configuration ∈ (configurations.foldl meet search).met ↔
        configuration ∈ configurations ∨ configuration ∈ search.met := by
  induction configurations with
  | nil => simp
  | cons head rest ih =>
      intro search
      rw [List.foldl_cons, ih, mem_met_meet, List.mem_cons]
      constructor
      · intro h
        rcases h with hmem | heq | hmem
        · exact Or.inl (Or.inr hmem)
        · exact Or.inl (Or.inl heq)
        · exact Or.inr hmem
      · intro h
        rcases h with (heq | hmem) | hmem
        · exact Or.inr (Or.inl heq)
        · exact Or.inl hmem
        · exact Or.inr (Or.inr hmem)

theorem ends_foldl_meet {configurations : List Configuration} :
    ∀ {search : Search}, (configurations.foldl meet search).ends = search.ends := by
  induction configurations with
  | nil => intro search; rfl
  | cons head rest ih =>
      intro search
      rw [List.foldl_cons, ih]
      unfold meet
      split <;> rfl

theorem Tidy.meet {looked : List Configuration} {search : Search} (h : Tidy looked search)
    (configuration : Configuration) : Tidy looked (search.meet configuration) := by
  have hmet : ∀ other, other ∈ (search.meet configuration).met ↔
      other = configuration ∨ other ∈ search.met := fun other => mem_met_meet
  unfold Search.meet at hmet ⊢
  split
  · exact h
  · rename_i hnew
    rw [if_neg hnew] at hmet
    have hfresh : ¬ configuration ∈ search.pending ++ looked := by
      rw [← h.mem_met_iff, ← Std.TreeSet.contains_iff_mem]
      exact hnew
    refine ⟨List.nodup_cons.2 ⟨hfresh, h.nodup⟩, fun other => ?_⟩
    rw [hmet, h.mem_met_iff]
    simp

theorem Tidy.foldl_meet {looked : List Configuration} (configurations : List Configuration) :
    ∀ {search : Search}, Tidy looked search →
      Tidy looked (configurations.foldl Search.meet search) := by
  induction configurations with
  | nil => exact id
  | cons head rest ih =>
      intro search h
      exact ih (h.meet head)

/-- How a search stands that began at `origin` and has looked at the configurations `looked`. -/
structure Progress (machine : Machine α) (table : MacroTable α) (input : Array α)
    (origin : Configuration) (looked : List Configuration) (search : Search) : Prop where
  tidy : Tidy looked search
  origin_met : origin ∈ search.met
  reached : ∀ configuration ∈ search.met,
    machine.graph.Reaches table input origin configuration
  met_of_step : ∀ current next, current ∈ looked →
    machine.graph.Step table input current next → next ∈ search.met
  mem_ends_iff : ∀ index, index ∈ search.ends ↔ ⟨machine.accept, index⟩ ∈ looked

theorem Progress.opening (machine : Machine α) (origin : Configuration) :
    Progress machine table input origin [] (Search.opening origin) := by
  have hmet : ∀ configuration, configuration ∈ (Search.opening origin).met ↔
      configuration = origin := by
    intro configuration
    unfold Search.opening
    rw [Std.TreeSet.mem_insert, Std.LawfulEqOrd.compare_eq_iff_eq, eq_comm]
    simp
  refine ⟨⟨by simp [Search.opening], ?_⟩, (hmet origin).2 rfl, ?_, ?_, ?_⟩
  · intro configuration
    rw [hmet]
    simp [Search.opening]
  · intro configuration hmem
    rw [(hmet configuration).1 hmem]
    exact Relation.ReflTransGen.refl
  · intro current next hmem
    exact absurd hmem List.not_mem_nil
  · intro index
    simp [Search.opening]

theorem mem_ends_note {search : Search} {accept index : Nat} {configuration : Configuration} :
    index ∈ (note accept search configuration).ends ↔
      configuration = ⟨accept, index⟩ ∨ index ∈ search.ends := by
  cases configuration with
  | mk state here =>
      unfold note
      rw [Configuration.mk.injEq]
      split
      · rename_i hstate
        simp [show state = accept from hstate, eq_comm]
      · rename_i hstate
        simp [show ¬ state = accept from hstate]

theorem met_note {search : Search} {accept : Nat} {configuration : Configuration} :
    (note accept search configuration).met = search.met := by
  unfold note
  split <;> rfl

theorem pending_note {search : Search} {accept : Nat} {configuration : Configuration} :
    (note accept search configuration).pending = search.pending := by
  unfold note
  split <;> rfl

/-- A step looks at the first pending configuration and keeps all the rest as it should be. -/
theorem Progress.step {machine : Machine α} {origin current : Configuration}
    {looked rest : List Configuration} {search next : Search}
    (h : Progress machine table input origin looked search)
    (hpending : search.pending = current :: rest)
    (hstep : Search.step machine table input search = some next) :
    Progress machine table input origin (current :: looked) next := by
  unfold Search.step at hstep
  rw [hpending] at hstep
  simp only [Option.some.injEq] at hstep
  subst hstep
  have hnodup := h.tidy.nodup
  have hmemMet := h.tidy.mem_met_iff
  rw [hpending] at hnodup hmemMet
  have hcurrent : current ∈ search.met := (hmemMet current).2 (by simp)
  have hmem : ∀ configuration,
      configuration ∈ ((successors machine.graph table input current).foldl meet
        (note machine.accept { search with pending := rest } current)).met ↔
        machine.graph.Step table input current configuration ∨ configuration ∈ search.met := by
    intro configuration
    rw [mem_met_foldl_meet, met_note, Graph.mem_successors_iff]
  refine ⟨Tidy.foldl_meet _ ⟨?_, ?_⟩, ?_, ?_, ?_, ?_⟩
  · rw [pending_note]
    exact List.perm_middle.nodup_iff.2 hnodup
  · intro configuration
    rw [met_note, pending_note, hmemMet configuration]
    exact List.perm_middle.symm.mem_iff
  · exact (hmem origin).2 (Or.inr h.origin_met)
  · intro configuration hmet
    rcases (hmem configuration).1 hmet with harc | hold
    · exact (h.reached current hcurrent).tail harc
    · exact h.reached configuration hold
  · intro before after hbefore harc
    rw [hmem]
    rcases List.mem_cons.1 hbefore with rfl | hlooked
    · exact Or.inl harc
    · exact Or.inr (h.met_of_step before after hlooked harc)
  · intro index
    rw [ends_foldl_meet, mem_ends_note, List.mem_cons, h.mem_ends_iff, eq_comm]

theorem step_eq_none_iff {machine : Machine α} {search : Search} :
    Search.step machine table input search = none ↔ search.pending = [] := by
  unfold Search.step
  split <;> simp_all

/-- After some steps either nothing is pending or each step has looked at one more configuration. -/
theorem Progress.run {machine : Machine α} {origin : Configuration} (fuel : Nat) :
    ∀ {looked : List Configuration} {search : Search},
      Progress machine table input origin looked search →
        ∃ looked', Progress machine table input origin looked'
            (Search.run machine table input fuel search) ∧
          ((Search.run machine table input fuel search).pending = [] ∨
            looked'.length = looked.length + fuel) := by
  induction fuel with
  | zero =>
      intro looked search h
      exact ⟨looked, h, Or.inr rfl⟩
  | succ fuel ih =>
      intro looked search h
      cases hstep : Search.step machine table input search with
      | none =>
          have hrun : Search.run machine table input (fuel + 1) search = search := by
            simp [Search.run, hstep]
          rw [hrun]
          exact ⟨looked, h, Or.inl (step_eq_none_iff.1 hstep)⟩
      | some next =>
          have hrun : Search.run machine table input (fuel + 1) search =
              Search.run machine table input fuel next := by
            simp [Search.run, hstep]
          rw [hrun]
          cases hpending : search.pending with
          | nil => rw [step_eq_none_iff.2 hpending] at hstep; cases hstep
          | cons current rest =>
              obtain ⟨looked', hprogress, hend⟩ := ih (h.step hpending hstep)
              refine ⟨looked', hprogress, hend.imp_right fun hlength => ?_⟩
              rw [hlength, List.length_cons]
              omega

/-! ## The bound on the steps of a search -/

def targets (graph : Graph α) : List Nat :=
  graph.states.toList.flatten.map Arc.target

def candidates (machine : Machine α) (input : Array α) (index : Nat) : List Configuration :=
  (machine.start :: targets machine.graph).flatMap fun state =>
    (List.range' index (input.size - index + 1)).map (Configuration.mk state)

omit [DecidableEq α] [Token α] in
theorem length_candidates (machine : Machine α) (input : Array α) (index : Nat) :
    (candidates machine input index).length = machine.searchBound input index := by
  have htargets : (targets machine.graph).length = machine.graph.arcTotal := by
    rw [targets, List.length_map, Graph.arcTotal]
  rw [candidates, List.length_flatMap]
  simp only [List.length_map, List.length_range', List.map_const', List.sum_replicate_nat,
    List.length_cons, htargets]
  rfl

omit [DecidableEq α] [Token α] in
theorem mem_targets {graph : Graph α} {state : Nat} {arc : Arc α}
    (h : arc ∈ graph.arcsFrom state) : arc.target ∈ targets graph :=
  List.mem_map_of_mem (Graph.mem_flatten_of_mem_arcsFrom h)

theorem mem_candidates_of_reaches {machine : Machine α} {index : Nat}
    {configuration : Configuration} (hindex : index ≤ input.size)
    (hreach : machine.graph.Reaches table input ⟨machine.start, index⟩ configuration) :
    configuration ∈ candidates machine input index := by
  have hbounds := hreach.bounds hindex
  have hstate : configuration.state ∈ machine.start :: targets machine.graph := by
    cases hreach with
    | refl => exact List.mem_cons_self
    | tail _ hlast =>
        obtain ⟨arc, harc, htarget, -⟩ := hlast
        rw [← htarget]
        exact List.mem_cons_of_mem _ (mem_targets harc)
  refine List.mem_flatMap.2 ⟨configuration.state, hstate, ?_⟩
  refine List.mem_map.2 ⟨configuration.index, ?_, rfl⟩
  rw [List.mem_range'_1]
  dsimp only at hbounds
  omega

/--
A search that began at an index inside the input has met no more configurations than its bound,
those that it has looked at and those that are pending.
-/
theorem Progress.length_le {machine : Machine α} {index : Nat} {looked : List Configuration}
    {search : Search} (hindex : index ≤ input.size)
    (h : Progress machine table input ⟨machine.start, index⟩ looked search) :
    looked.length + search.pending.length ≤ machine.searchBound input index := by
  have hsubset : search.pending ++ looked ⊆ candidates machine input index := by
    intro configuration hmem
    exact mem_candidates_of_reaches hindex
      (h.reached configuration ((h.tidy.mem_met_iff configuration).2 hmem))
  have hle := (h.tidy.nodup.subperm hsubset).length_le
  rwa [length_candidates, List.length_append, Nat.add_comm] at hle

theorem exists_progress_of_searchBound (table : MacroTable α) (machine : Machine α) {index : Nat}
    (hindex : index ≤ input.size) :
    ∃ looked, Progress machine table input ⟨machine.start, index⟩ looked
        (Search.run machine table input (machine.searchBound input index)
          (Search.opening ⟨machine.start, index⟩)) ∧
      (Search.run machine table input (machine.searchBound input index)
        (Search.opening ⟨machine.start, index⟩)).pending = [] := by
  have hopening : Progress machine table input ⟨machine.start, index⟩ []
      (Search.opening ⟨machine.start, index⟩) := Progress.opening machine _
  obtain ⟨looked, hprogress, hend⟩ := hopening.run (machine.searchBound input index)
  refine ⟨looked, hprogress, hend.elim id fun hlength => ?_⟩
  have hle := hprogress.length_le hindex
  rw [hlength, List.length_nil] at hle
  exact List.length_eq_zero_iff.1 (by omega)

end Search

/-- With nothing pending, what was looked at is what can be reached. -/
theorem Search.Progress.mem_looked_iff {machine : Machine α} {origin configuration : Configuration}
    {looked : List Configuration} {search : Search}
    (h : Search.Progress machine table input origin looked search)
    (hpending : search.pending = []) :
    configuration ∈ looked ↔ machine.graph.Reaches table input origin configuration := by
  have hmem : ∀ other, other ∈ search.met ↔ other ∈ looked := by
    intro other
    rw [h.tidy.mem_met_iff, hpending, List.nil_append]
  constructor
  · intro hlooked
    exact h.reached configuration ((hmem configuration).2 hlooked)
  · intro hreach
    refine hreach.invariant ((hmem origin).1 h.origin_met) ?_
    intro current next hcurrent hstep
    exact (hmem next).1 (h.met_of_step current next hcurrent hstep)

/-- A search from an index inside the input finds the ends of all runs from there. -/
theorem Machine.mem_ends_iff {machine : Machine α} {index stop : Nat} :
    stop ∈ machine.ends table input index ↔
      index ≤ input.size ∧ machine.Runs table input index stop := by
  unfold Machine.ends
  split
  · rename_i hlt
    constructor
    · intro hmem
      exact absurd hmem (IndexSet.not_mem_empty stop)
    · intro h
      omega
  · rename_i hle
    have hindex : index ≤ input.size := by omega
    obtain ⟨looked, hprogress, hpending⟩ :=
      Search.exists_progress_of_searchBound table machine hindex
    rw [hprogress.mem_ends_iff, hprogress.mem_looked_iff hpending]
    exact ⟨fun hrun => ⟨hindex, hrun⟩, And.right⟩

theorem Machine.bounds_of_mem_ends {machine : Machine α} {index stop : Nat}
    (h : stop ∈ machine.ends table input index) : index ≤ stop ∧ stop ≤ input.size := by
  obtain ⟨hindex, hrun⟩ := mem_ends_iff.1 h
  exact hrun.bounds hindex

/--
Whatever the machine, a search from an index inside the input finds exactly the indices with which
the accepting state can be reached, and a search from beyond the input finds nothing.
-/
theorem Machine.ends_eq_reachable (machine : Machine α) (table : MacroTable α) (input : Array α)
    (index : Nat) :
    (index ≤ input.size → ∀ stop, stop ∈ machine.ends table input index ↔
      machine.graph.Reaches table input ⟨machine.start, index⟩ ⟨machine.accept, stop⟩) ∧
        (input.size < index → machine.ends table input index = ∅) := by
  constructor
  · intro hindex stop
    rw [mem_ends_iff]
    exact and_iff_right hindex
  · intro hbeyond
    apply IndexSet.ext
    intro stop
    have hnone : ¬ stop ∈ machine.ends table input index := by
      intro hmem
      have hle := (mem_ends_iff.1 hmem).1
      omega
    exact iff_of_false hnone (IndexSet.not_mem_empty stop)

/-- A cycle that sees nothing, and an accepting state that is only the target of an arc. -/
theorem Machine.ends_of_missing_accept :
    let machine : Machine Char :=
      ⟨⟨#[[⟨.epsilon, 1⟩, ⟨.take .wildcard, 7⟩], [⟨.epsilon, 0⟩, ⟨.exclude [.literal ['a']], 1⟩]]⟩,
        0, 7⟩
    (∀ stop, stop ∈ machine.ends ∅ #['b', 'a'] 0 ↔
      machine.graph.Reaches ∅ #['b', 'a'] ⟨0, 0⟩ ⟨7, stop⟩) ∧
        machine.ends ∅ #['b', 'a'] 3 = ∅ := by
  intro machine
  exact ⟨(ends_eq_reachable machine ∅ #['b', 'a'] 0).1 (by decide),
    (ends_eq_reachable machine ∅ #['b', 'a'] 3).2 (by decide)⟩

end Motif
