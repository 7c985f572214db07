import Motif.Proofs.Grammar.Balance

/-!
# Branches as a division of their text

Whatever its brackets are, a text is divided at the blanks of depth zero into branches and the gaps
around them, and there is only one such division: it is the one that is computed, for the text
itself as well as for its branches with single spaces between them.
-/

namespace Motif

open Text (isBlank)

namespace Text

/-- The pieces in order, each with the gap behind it. -/
def interleave (pieces gaps : List (List Char)) : List Char :=
  (List.zipWith (· ++ ·) pieces gaps).flatten

@[simp] theorem interleave_nil (gaps : List (List Char)) : interleave [] gaps = [] :=
  rfl

@[simp] theorem interleave_cons (piece gap : List Char) (pieces gaps : List (List Char)) :
    interleave (piece :: pieces) (gap :: gaps) = piece ++ gap ++ interleave pieces gaps :=
  rfl

/-- The text is the pieces in order, with only blanks before the first and behind each of them. -/
structure Spaced (text : List Char) (pieces : List (List Char)) (before : List Char)
    (gaps : List (List Char)) : Prop where
  text_eq : text = before ++ interleave pieces gaps
  length_eq : gaps.length = pieces.length
  blank_before : before.all isBlank = true
  blank_behind : ∀ gap ∈ gaps, gap.all isBlank = true

namespace Spaced

variable {text piece before gap : List Char} {pieces gaps : List (List Char)}

theorem nil (h : gap.all isBlank = true) : Spaced gap [] gap [] :=
  ⟨(List.append_nil gap).symm, rfl, h, by simp⟩

theorem cons (hgap : gap.all isBlank = true) (h : Spaced text pieces before gaps) :
    Spaced (gap ++ (piece ++ text)) (piece :: pieces) gap (before :: gaps) where
  text_eq := by rw [interleave_cons, h.text_eq, List.append_assoc]
  length_eq := by rw [List.length_cons, List.length_cons, h.length_eq]
  blank_before := hgap
  blank_behind := List.forall_mem_cons.2 ⟨h.blank_before, h.blank_behind⟩

theorem exists_of_cons (h : Spaced text (piece :: pieces) before gaps) :
    ∃ rest gap others, gaps = gap :: others ∧ text = before ++ (piece ++ rest) ∧
      Spaced rest pieces gap others := by
  obtain ⟨htext, hlength, hbefore, hbehind⟩ := h
  cases gaps with
  | nil => cases hlength
  | cons gap others =>
      rw [List.forall_mem_cons] at hbehind
      have hothers : others.length = pieces.length := by simpa using hlength
      refine ⟨gap ++ interleave pieces others, gap, others, rfl, ?_,
        ⟨rfl, hothers, hbehind.1, hbehind.2⟩⟩
      rw [htext, interleave_cons, List.append_assoc]

theorem length_le_of_mem (h : Spaced text pieces before gaps) {piece : List Char}
    (hpiece : piece ∈ pieces) : piece.length ≤ text.length := by
  induction pieces generalizing text before gaps with
  | nil => cases hpiece
  | cons first others ih =>
      obtain ⟨rest, gap, gaps, -, rfl, hrest⟩ := h.exists_of_cons
      simp only [List.length_append]
      rcases List.mem_cons.1 hpiece with rfl | hothers
      · omega
      · have hle := ih hrest hothers
        omega

theorem length_le (h : Spaced text pieces before gaps)
    (hpieces : ∀ piece ∈ pieces, piece ≠ []) : pieces.length ≤ text.length := by
  induction pieces generalizing text before gaps with
  | nil => exact Nat.zero_le _
  | cons first others ih =>
      obtain ⟨rest, gap, gaps, -, rfl, hrest⟩ := h.exists_of_cons
      rw [List.forall_mem_cons] at hpieces
      have hfirst := List.length_pos_iff.2 hpieces.1
      have hle := ih hrest hpieces.2
      simp only [List.length_append, List.length_cons]
      omega

end Spaced

end Text

/-! ## Depths -/

/-- The depth behind a text that begins at some depth. -/
def depthOver (depth : Nat) (text : List Char) : Nat :=
  text.foldl depthAfter depth

theorem depthOver_append (depth : Nat) (first second : List Char) :
    depthOver depth (first ++ second) = depthOver (depthOver depth first) second :=
  List.foldl_append

theorem depthAfter_blank {c : Char} (hc : isBlank c = true) (depth : Nat) :
    depthAfter depth c = depth :=
  depthAfter_flat (by simp [Sign.ofChar?_of_isBlank hc])

theorem depthOver_blank {gap : List Char} (h : gap.all isBlank = true) (depth : Nat) :
    depthOver depth gap = depth := by
  induction gap with
  | nil => rfl
  | cons c rest ih =>
      obtain ⟨hc, hrest⟩ := Bool.and_eq_true_iff.1 h
      rw [depthOver, List.foldl_cons, depthAfter_blank hc]
      exact ih hrest

/-- In a text that begins at this depth, no blank stands at depth zero. -/
def Unbroken (depth : Nat) (text : List Char) : Prop :=
  ∀ before c after, text = before ++ c :: after → isBlank c = true →
    0 < depthOver depth before

theorem unbroken_nil (depth : Nat) : Unbroken depth [] := by
  intro before c after h
  simp at h

theorem unbroken_cons_iff {depth : Nat} {c : Char} {rest : List Char} :
    Unbroken depth (c :: rest) ↔
      (isBlank c = true → 0 < depth) ∧ Unbroken (depthAfter depth c) rest := by
  constructor
  · intro h
    refine ⟨h [] c rest rfl, fun before d after heq => ?_⟩
    exact h (c :: before) d after (by rw [heq, List.cons_append])
  · rintro ⟨hfirst, hrest⟩ before d after heq
    cases before with
    | nil =>
        cases heq
        exact hfirst
    | cons e before =>
        cases heq
        exact hrest before d after rfl

theorem branchesFrom_unbroken {text after : List Char} :
    ∀ {depth : Nat} {reversed : List Char}, Unbroken depth text →
      branchesFrom depth reversed (text ++ after) =
        branchesFrom (depthOver depth text) (text.reverse ++ reversed) after := by
  induction text with
  | nil => exact fun _ => rfl
  | cons c rest ih =>
      intro depth reversed h
      obtain ⟨hfirst, hrest⟩ := unbroken_cons_iff.1 h
      have hinside : ¬ (isBlank c && decide (depthAfter depth c = 0)) = true := by
        rw [Bool.and_eq_true, decide_eq_true_eq]
        rintro ⟨hc, hzero⟩
        rw [depthAfter_blank hc] at hzero
        exact absurd hzero (Nat.ne_of_gt (hfirst hc))
      rw [List.cons_append, branchesFrom, if_neg hinside, ih hrest, List.reverse_cons,
        List.append_assoc]
      rfl

/-- A text is unbroken up to its end, or up to a blank at depth zero. -/
theorem exists_unbroken (text : List Char) :
    ∀ depth, ∃ first after, text = first ++ after ∧ Unbroken depth first ∧
      ∀ c, after.head? = some c → isBlank c = true ∧ depthOver depth first = 0 := by
  induction text with
  | nil => exact fun depth => ⟨[], [], rfl, unbroken_nil depth, by simp⟩
  | cons c rest ih =>
      intro depth
      by_cases hcut : isBlank c = true ∧ depth = 0
      · exact ⟨[], c :: rest, rfl, unbroken_nil depth, by simpa [depthOver] using hcut⟩
      · obtain ⟨first, after, rfl, hfirst, hafter⟩ := ih (depthAfter depth c)
        refine ⟨c :: first, after, rfl, unbroken_cons_iff.2 ⟨fun hc => ?_, hfirst⟩, hafter⟩
        exact Nat.pos_of_ne_zero fun hzero => hcut ⟨hc, hzero⟩

/-! ## Divisions -/

/-- More than blanks from its first character on, and without a blank at depth zero. -/
structure IsBranch (part : List Char) : Prop where
  begins : ∃ c rest, part = c :: rest ∧ isBlank c = false
  unbroken : Unbroken 0 part

/--
The text consists of the branches in order and of blanks around them. Only the last branch may leave
brackets open.
-/
inductive Divided : List Char → List (List Char) → Prop
  | blank {gap : List Char} : gap.all isBlank = true → Divided gap []
  | last {gap part : List Char} :
      gap.all isBlank = true → IsBranch part → Divided (gap ++ part) [part]
  | next {gap part rest : List Char} {c : Char} {parts : List (List Char)} :
      gap.all isBlank = true → IsBranch part → depthOver 0 part = 0 → isBlank c = true →
        Divided rest parts → Divided (gap ++ (part ++ c :: rest)) (part :: parts)

theorem branches_append_of_blank {gap : List Char} (h : gap.all isBlank = true)
    (text : List Char) : branches (gap ++ text) = branches text := by
  induction gap with
  | nil => rfl
  | cons c rest ih =>
      obtain ⟨hc, hrest⟩ := Bool.and_eq_true_iff.1 h
      rw [List.cons_append, branches_blank hc, ih hrest]

theorem IsBranch.branches_append {part : List Char} (h : IsBranch part) (after : List Char) :
    branches (part ++ after) = branchesFrom (depthOver 0 part) part.reverse after := by
  rw [branches, branchesFrom_unbroken h.unbroken, List.append_nil]

theorem IsBranch.finishWord_reverse {part : List Char} (h : IsBranch part) :
    Text.finishWord part.reverse = [part] := by
  obtain ⟨c, rest, rfl, -⟩ := h.begins
  rw [Text.finishWord_of_ne_nil (by simp), List.reverse_reverse]

namespace Divided

variable {text : List Char} {parts : List (List Char)}

/-- No text has two divisions, and the one it has is computed. -/
theorem branches_eq (h : Divided text parts) : branches text = parts := by
  induction h with
  | @blank gap hgap => simpa using branches_append_of_blank hgap []
  | @last gap part hgap hpart =>
      have hwhole := hpart.branches_append []
      rw [List.append_nil, branchesFrom, hpart.finishWord_reverse] at hwhole
      rw [branches_append_of_blank hgap, hwhole]
  | @next gap part rest c parts hgap hpart hdepth hc _ ih =>
      rw [branches_append_of_blank hgap, hpart.branches_append, hdepth, branchesFrom,
        if_pos (by simp [hc, depthAfter_blank hc]), hpart.finishWord_reverse,
        depthAfter_blank hc, ← ih]
      rfl

end Divided

theorem exists_divided (text : List Char) : ∃ parts, Divided text parts := by
  -- What comes after a branch and a blank is shorter.
  induction hlength : text.length using Nat.strong_induction_on generalizing text with
  | _ length ih =>
      obtain ⟨gap, htext, hgap⟩ := Text.exists_blank_append_skipBlank text
      cases hskip : Text.skipBlank text with
      | nil =>
          rw [hskip, List.append_nil] at htext
          exact ⟨[], htext ▸ .blank hgap⟩
      | cons c tail =>
          have hc := Text.isBlank_head_skipBlank hskip
          obtain ⟨part, after, hparts, hunbroken, hafter⟩ := exists_unbroken (c :: tail) 0
          rw [hskip, hparts] at htext
          cases part with
          | nil =>
              rw [List.nil_append] at hparts
              rw [(hafter c (by rw [← hparts]; rfl)).1] at hc
              cases hc
          | cons d part =>
              cases hparts
              have hpart : IsBranch (c :: part) := ⟨⟨c, part, rfl, hc⟩, hunbroken⟩
              cases after with
              | nil =>
                  rw [List.append_nil] at htext
                  exact ⟨[c :: part], htext ▸ Divided.last hgap hpart⟩
              | cons e rest =>
                  obtain ⟨he, hdepth⟩ := hafter e rfl
                  have hshorter : rest.length < length := by
                    rw [← hlength, htext]
                    simp only [List.length_append, List.length_cons]
                    omega
                  obtain ⟨parts, hrest⟩ := ih rest.length hshorter rest rfl
                  exact ⟨(c :: part) :: parts,
                    htext ▸ Divided.next hgap hpart hdepth he hrest⟩

theorem divided_branches (text : List Char) : Divided text (branches text) := by
  obtain ⟨parts, hparts⟩ := exists_divided text
  rwa [hparts.branches_eq]

theorem branches_eq_iff_divided {text : List Char} {parts : List (List Char)} :
    branches text = parts ↔ Divided text parts :=
  ⟨fun h => h ▸ divided_branches text, Divided.branches_eq⟩

namespace Divided

variable {text : List Char} {parts : List (List Char)}

theorem isBranch (h : Divided text parts) : ∀ part ∈ parts, IsBranch part := by
  induction h with
  | blank _ => simp
  | last _ hpart => exact List.forall_mem_singleton.2 hpart
  | next _ hpart _ _ _ ih => exact List.forall_mem_cons.2 ⟨hpart, ih⟩

/-- The branches alone, with single spaces between them, are divided into the same branches. -/
theorem joinWith_space (h : Divided text parts) : Divided (Text.joinWith [' '] parts) parts := by
  induction h with
  | blank _ => exact .blank rfl
  | last _ hpart => exact @last [] _ rfl hpart
  | @next gap part rest c parts _ hpart hdepth _ _ ih =>
      cases parts with
      | nil => exact @last [] part rfl hpart
      | cons other more =>
          rw [Text.joinWith, List.append_assoc]
          exact @next [] part _ ' ' _ rfl hpart hdepth (by decide) ih

/--
The gaps of a division: none between two branches is empty, and the depth in front of every branch
is zero.
-/
theorem exists_gaps (h : Divided text parts) :
    ∃ before gaps, Text.Spaced text parts before gaps ∧
      (∀ gap ∈ gaps.dropLast, gap ≠ []) ∧
      ∀ earlier part later, parts = earlier ++ part :: later →
        depthOver 0 (before ++ Text.interleave earlier gaps) = 0 := by
  induction h with
  | @blank gap hgap => exact ⟨gap, [], .nil hgap, by simp, by simp⟩
  | @last gap part hgap hpart =>
      refine ⟨gap, [[]], ?_, by simp, ?_⟩
      · have hspaced : Text.Spaced [] [] [] [] := .nil rfl
        simpa using hspaced.cons hgap
      · intro earlier other later heq
        cases earlier with
        | nil => simpa using depthOver_blank hgap 0
        | cons first earlier => simp at heq
  | @next gap part rest c parts hgap hpart hdepth hc _ ih =>
      obtain ⟨before, gaps, hspaced, hgaps, hstart⟩ := ih
      have hbefore : (c :: before).all isBlank = true := by
        rw [List.all_cons, hc, hspaced.blank_before, Bool.and_self]
      have hrest : Text.Spaced (c :: rest) parts (c :: before) gaps :=
        { hspaced with
          text_eq := by rw [hspaced.text_eq, List.cons_append]
          blank_before := hbefore }
      refine ⟨gap, (c :: before) :: gaps, hrest.cons hgap, ?_, ?_⟩
      · intro other hother
        cases gaps with
        | nil => simp at hother
        | cons next gaps =>
            rw [List.dropLast_cons_cons, List.mem_cons] at hother
            rcases hother with rfl | hother
            · exact List.cons_ne_nil c before
            · exact hgaps other hother
      · intro earlier other later heq
        cases earlier with
        | nil => simpa using depthOver_blank hgap 0
        | cons first earlier =>
            rw [List.cons_append, List.cons.injEq] at heq
            obtain ⟨rfl, heq⟩ := heq
            have hlater := hstart earlier other later heq
            rw [depthOver_append, depthOver_blank hspaced.blank_before] at hlater
            rw [Text.interleave_cons, depthOver_append, depthOver_blank hgap, depthOver_append,
              depthOver_append, hdepth, depthOver_blank hbefore]
            exact hlater

end Divided

/--
Any text, however its brackets stand, is its branches in order with gaps of blanks around them and
none of the gaps between them empty. A branch begins with no blank and has none at depth zero, by
the depth at which it stands in the text. Its branches with single spaces between them are divided
alike, and the branches of a balanced text are balanced.
-/
theorem branches_divide (body : List Char) :
    (∀ part ∈ branches body, ∃ c rest, part = c :: rest ∧ isBlank c = false) ∧
    (∃ before gaps, Text.Spaced body (branches body) before gaps ∧
      (∀ gap ∈ gaps.dropLast, gap ≠ []) ∧
      ∀ earlier part later, branches body = earlier ++ part :: later →
        Unbroken (depthOver 0 (before ++ Text.interleave earlier gaps)) part) ∧
    branches (Text.joinWith [' '] (branches body)) = branches body ∧
    (Balanced body → ∀ part ∈ branches body, Balanced part) := by
  have hdivided := divided_branches body
  obtain ⟨before, gaps, hspaced, hgaps, hstart⟩ := hdivided.exists_gaps
  refine ⟨fun part hpart => (hdivided.isBranch part hpart).begins,
    ⟨before, gaps, hspaced, hgaps, ?_⟩, branches_eq_iff_divided.2 hdivided.joinWith_space,
    fun hbody part hpart => hbody.of_mem_branches hpart⟩
  intro earlier part later heq
  rw [hstart earlier part later heq]
  exact (hdivided.isBranch part (by simp [heq])).unbroken

/-- A bracket that closes nothing counts for nothing, and one left open holds all that follows. -/
example : branches ['}', ' ', 'a', ' ', '(', 'b', ' ', 'c'] =
    [['}'], ['a'], ['(', 'b', ' ', 'c']] := by
  decide

/-- Two blanks in a gap, blanks inside brackets, and two groups with nothing between them. -/
theorem branches_divide_of_inner_blanks :
    let body := [' ', 'a', ' ', '\t', '(', 'b', ' ', 'c', ')', '{', ' ', '}', ' ', '!']
    let part := ['(', 'b', ' ', 'c', ')', '{', ' ', '}']
    (part ∈ branches body ∧ ∃ c rest, part = c :: rest ∧ isBlank c = false) ∧
    (branches body = [['a']] ++ part :: [['!']] ∧
      ∃ before gaps, Text.Spaced body (branches body) before gaps ∧
        Unbroken (depthOver 0 (before ++ Text.interleave [['a']] gaps)) part) ∧
    (Balanced body ∧ Balanced part) := by
  intro body part
  have hpart : part ∈ branches body := by decide
  have hparts : branches body = [['a']] ++ part :: [['!']] := by decide
  have hbalanced : Balanced body := by decide
  obtain ⟨hbegins, ⟨before, gaps, hspaced, -, hunbroken⟩, -, hall⟩ := branches_divide body
  exact ⟨⟨hpart, hbegins part hpart⟩,
    ⟨hparts, before, gaps, hspaced, hunbroken [['a']] part [['!']] hparts⟩,
    hbalanced, hall hbalanced part hpart⟩

end Motif
