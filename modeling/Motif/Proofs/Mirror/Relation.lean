import Motif.Proofs.Construction

/-!
# Relations from the other end

A relation between indices of an input is mirrored by one between indices of the reversed input, if
each holds where the other one does with the two indices counted from the end and exchanged. All the
ways in which the relations of a tree are put together keep relations mirrored.
-/

namespace Motif

/--
A relation between the indices of an input and one between those of the reversed input, of which
each holds where the other one does with the two indices counted from the end and exchanged.
-/
structure Mirrors (size : Nat) (relation mirrored : Nat → Nat → Prop) : Prop where
  le_size : ∀ index stop, index ≤ size → relation index stop → stop ≤ size
  mirrored_le_size : ∀ index stop, index ≤ size → mirrored index stop → stop ≤ size
  iff : ∀ index stop, index ≤ size → stop ≤ size →
    (relation index stop ↔ mirrored (size - stop) (size - index))

namespace Mirrors

variable {size : Nat} {relation mirrored other otherMirrored : Nat → Nat → Prop}

theorem symm (h : Mirrors size relation mirrored) : Mirrors size mirrored relation := by
  refine ⟨h.mirrored_le_size, h.le_size, ?_⟩
  intro index stop hindex hstop
  have hiff := h.iff (size - stop) (size - index) (by omega) (by omega)
  rw [hiff, Nat.sub_sub_self hindex, Nat.sub_sub_self hstop]

/-- The mirrored relation of a relation that holds nowhere inside the input. -/
theorem never (h : ∀ index stop, index ≤ size → ¬ relation index stop)
    (hmirrored : ∀ index stop, index ≤ size → ¬ mirrored index stop) :
    Mirrors size relation mirrored where
  le_size index stop hindex hrelation := absurd hrelation (h index stop hindex)
  mirrored_le_size index stop hindex hrelation := absurd hrelation (hmirrored index stop hindex)
  iff index stop hindex _ := iff_of_false (h index stop hindex) (hmirrored _ _ (by omega))

theorem stay : Mirrors size (fun index stop => stop = index) fun index stop => stop = index where
  le_size index stop hindex heq := heq ▸ hindex
  mirrored_le_size index stop hindex heq := heq ▸ hindex
  iff index stop hindex hstop := by omega

theorem either (h : Mirrors size relation mirrored) (hother : Mirrors size other otherMirrored) :
    Mirrors size (fun index stop => relation index stop ∨ other index stop)
      fun index stop => mirrored index stop ∨ otherMirrored index stop where
  le_size index stop hindex hstep :=
    hstep.elim (h.le_size index stop hindex) (hother.le_size index stop hindex)
  mirrored_le_size index stop hindex hstep :=
    hstep.elim (h.mirrored_le_size index stop hindex) (hother.mirrored_le_size index stop hindex)
  iff index stop hindex hstop :=
    or_congr (h.iff index stop hindex hstop) (hother.iff index stop hindex hstop)

theorem comp (h : Mirrors size relation mirrored) (hother : Mirrors size other otherMirrored) :
    Mirrors size (fun index stop => ∃ middle, relation index middle ∧ other middle stop)
      fun index stop => ∃ middle, otherMirrored index middle ∧ mirrored middle stop := by
  refine ⟨?_, ?_, ?_⟩
  · intro index stop hindex hfound
    rcases hfound with ⟨middle, hfirst, hsecond⟩
    exact hother.le_size middle stop (h.le_size index middle hindex hfirst) hsecond
  · intro index stop hindex hfound
    rcases hfound with ⟨middle, hfirst, hsecond⟩
    have hmiddle := hother.mirrored_le_size index middle hindex hfirst
    exact h.mirrored_le_size middle stop hmiddle hsecond
  · intro index stop hindex hstop
    constructor
    · intro hfound
      rcases hfound with ⟨middle, hfirst, hsecond⟩
      have hmiddle := h.le_size index middle hindex hfirst
      exact ⟨size - middle, (hother.iff middle stop hmiddle hstop).1 hsecond,
        (h.iff index middle hindex hmiddle).1 hfirst⟩
    · intro hfound
      rcases hfound with ⟨middle, hfirst, hsecond⟩
      have hmiddle := hother.mirrored_le_size _ middle (by omega) hfirst
      have hback : size - (size - middle) = middle := Nat.sub_sub_self hmiddle
      refine ⟨size - middle, (h.iff index _ hindex (by omega)).2 ?_,
        (hother.iff _ stop (by omega) hstop).2 ?_⟩
      · rw [hback]
        exact hsecond
      · rw [hback]
        exact hfirst

theorem transGen_le (h : ∀ index stop, index ≤ size → relation index stop → stop ≤ size)
    {index stop : Nat} (hindex : index ≤ size) (hsteps : Relation.TransGen relation index stop) :
    stop ≤ size := by
  induction hsteps with
  | single hstep => exact h _ _ hindex hstep
  | tail _ hstep ih => exact h _ _ ih hstep

theorem transGen_mirrored (h : Mirrors size relation mirrored) {index stop : Nat}
    (hindex : index ≤ size) (hsteps : Relation.TransGen relation index stop) :
    Relation.TransGen mirrored (size - stop) (size - index) := by
  induction hsteps with
  | single hstep =>
      have hstop := h.le_size _ _ hindex hstep
      exact Relation.TransGen.single ((h.iff _ _ hindex hstop).1 hstep)
  | tail hsteps hstep ih =>
      have hmiddle := transGen_le h.le_size hindex hsteps
      have hstop := h.le_size _ _ hmiddle hstep
      exact Relation.TransGen.head ((h.iff _ _ hmiddle hstop).1 hstep) ih

theorem transGen (h : Mirrors size relation mirrored) :
    Mirrors size (Relation.TransGen relation) (Relation.TransGen mirrored) where
  le_size _ _ := transGen_le h.le_size
  mirrored_le_size _ _ := transGen_le h.mirrored_le_size
  iff index stop hindex hstop := by
    constructor
    · exact transGen_mirrored h hindex
    · intro hsteps
      have hback := transGen_mirrored h.symm (Nat.sub_le size stop) hsteps
      rwa [Nat.sub_sub_self hindex, Nat.sub_sub_self hstop] at hback

/-- Whatever repetition a quantifier allows keeps relations mirrored. -/
theorem close (h : Mirrors size relation mirrored) (quantifier : Quantifier) :
    Mirrors size (quantifier.close relation) (quantifier.close mirrored) := by
  cases quantifier with
  | once => exact h
  | optional => exact h.either stay
  | zeroOrMore =>
      have hclose : ∀ base : Nat → Nat → Prop, Quantifier.zeroOrMore.close base =
          fun index stop => stop = index ∨ Relation.TransGen base index stop := by
        intro base
        funext index stop
        exact propext Relation.reflTransGen_iff_eq_or_transGen
      rw [hclose, hclose]
      exact stay.either h.transGen
  | oneOrMore => exact h.transGen

end Mirrors

end Motif
