import Mathlib.Data.List.Forall2
import Motif.Proofs.Division
import Motif.Proofs.Lexing

/-!
# Branches as parts of their text

The branches of a text are parts of it: they stand in the text in order, each begins with a
character that is no blank, and there are only blanks before, between and after them.
-/

namespace Motif

open Text (isBlank)

/--
The text consists of the parts in order, each from a character that is no blank up to a blank or the
end, and of the blanks around them.
-/
inductive Parted : List Char → List (List Char) → Prop
  | blank {gap : List Char} : gap.all isBlank = true → Parted gap []
  | part {gap : List Char} {c : Char} {tail rest : List Char} {parts : List (List Char)} :
      gap.all isBlank = true → isBlank c = false →
        (∀ d, rest.head? = some d → isBlank d = true) → Parted rest parts →
          Parted (gap ++ (c :: tail ++ rest)) ((c :: tail) :: parts)

namespace Parted

variable {text : List Char} {parts : List (List Char)}

theorem cons_blank {c : Char} (hc : isBlank c = true) (h : Parted text parts) :
    Parted (c :: text) parts := by
  cases h with
  | blank hgap => exact .blank (by rw [List.all_cons, hc, hgap, Bool.and_self])
  | @part gap d tail rest parts hgap hd hrest hparts =>
      have hblank : (c :: gap).all isBlank = true := by
        rw [List.all_cons, hc, hgap, Bool.and_self]
      exact .part hblank hd hrest hparts

theorem all_isBlank_eq_false (h : Parted text parts) :
    ∀ part ∈ parts, part.all isBlank = false := by
  induction h with
  | blank _ => simp
  | part _ hc _ _ ih => exact List.forall_mem_cons.2 ⟨by rw [List.all_cons, hc, Bool.false_and], ih⟩

end Parted

/-- The branches of a division are parts, of which the last may leave brackets open. -/
theorem Divided.parted {text : List Char} {parts : List (List Char)} (h : Divided text parts) :
    Parted text parts := by
  induction h with
  | blank hgap => exact .blank hgap
  | @last gap part hgap hpart =>
      obtain ⟨c, tail, rfl, hc⟩ := hpart.begins
      have hparted := @Parted.part gap c tail [] [] hgap hc (by simp) (.blank rfl)
      rwa [List.append_nil] at hparted
  | next hgap hpart _ hblank _ ih =>
      obtain ⟨c, tail, rfl, hc⟩ := hpart.begins
      exact .part hgap hc (by simp [hblank]) (ih.cons_blank hblank)

theorem parted_branches (text : List Char) : Parted text (branches text) :=
  (divided_branches text).parted

/-! ## The shortest text of given parts -/

theorem Parted.exists_gap {text part : List Char} {parts : List (List Char)}
    (h : Parted text (part :: parts)) (hblank : ∀ d, text.head? = some d → isBlank d = true) :
    ∃ gap, 0 < gap.length ∧ text = gap ++ Text.skipBlank text := by
  obtain ⟨gap, htext, -⟩ := Text.exists_blank_append_skipBlank text
  refine ⟨gap, List.length_pos_iff.2 ?_, htext⟩
  rintro rfl
  cases h with
  | @part before c tail rest _ hbefore hc _ _ =>
      rw [List.nil_append, List.cons_append, Lexeme.skipBlank_append hbefore hc] at htext
      rw [List.cons_append, htext] at hblank
      rw [hblank c rfl] at hc
      cases hc

/-- Without the blanks in front of its first part, a text is as short as its parts allow. -/
theorem Parted.shortest_skipBlank {text : List Char} {parts : List (List Char)}
    (h : Parted text parts) :
    ∀ {written : List (List Char)},
      List.Forall₂ (fun part other => other.length ≤ part.length) parts written →
        (Text.joinWith [' '] written).length ≤ (Text.skipBlank text).length ∧
          (Text.joinWith [' '] written = Text.skipBlank text → written = parts) := by
  induction h with
  | blank hgap =>
      intro written hle
      cases hle
      exact ⟨Nat.zero_le _, fun _ => rfl⟩
  | @part gap c tail rest parts hgap hc hrest hparts ih =>
      intro written hle
      have hskip : Text.skipBlank (gap ++ (c :: tail ++ rest)) = c :: tail ++ rest := by
        rw [List.cons_append]
        exact Lexeme.skipBlank_append hgap hc
      rw [hskip]
      cases hle with
      | @cons _ other _ others hother hothers =>
          obtain ⟨hshort, hsame⟩ := ih hothers
          cases hothers with
          | nil =>
              rw [Text.joinWith, List.length_append]
              refine ⟨by omega, fun heq => ?_⟩
              have hlength := congrArg List.length heq
              rw [List.length_append] at hlength
              have hnil : rest = [] := List.eq_nil_of_length_eq_zero (by omega)
              rw [heq, hnil, List.append_nil]
          | @cons part next parts more hnext hmore =>
              obtain ⟨blanks, hpos, hblanks⟩ := hparts.exists_gap hrest
              have hlength := congrArg List.length hblanks
              rw [Text.joinWith, List.append_assoc]
              simp only [List.length_append, List.length_singleton] at hlength ⊢
              refine ⟨by omega, fun heq => ?_⟩
              have htotal := congrArg List.length heq
              simp only [List.length_append, List.length_singleton] at htotal
              obtain ⟨hown, htail⟩ := List.append_inj heq (by omega)
              rw [hblanks] at htail
              obtain ⟨-, hothers⟩ := List.append_inj htail (by rw [List.length_singleton]; omega)
              rw [hown, hsame hothers]

/--
Texts that are no longer than the parts in their places, joined by single blanks, are no longer than
the text. If they are the same text, they are its parts.
-/
theorem Parted.shortest {text : List Char} {parts written : List (List Char)}
    (h : Parted text parts)
    (hle : List.Forall₂ (fun part other => other.length ≤ part.length) parts written) :
    (Text.joinWith [' '] written).length ≤ text.length ∧
      (Text.joinWith [' '] written = text → written = parts) := by
  obtain ⟨hshort, hsame⟩ := h.shortest_skipBlank hle
  obtain ⟨gap, htext, -⟩ := Text.exists_blank_append_skipBlank text
  have hlength := congrArg List.length htext
  rw [List.length_append] at hlength
  refine ⟨by omega, fun heq => hsame ?_⟩
  have htotal := congrArg List.length heq
  have hgap : gap = [] := List.eq_nil_of_length_eq_zero (by omega)
  rw [hgap, List.nil_append] at htext
  exact heq.trans htext

end Motif
