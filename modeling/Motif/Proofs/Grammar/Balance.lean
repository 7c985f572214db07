import Motif.Proofs.Grammar.Rules

/-!
# Balanced texts

The brackets of a text are balanced if they can be taken for pairs of one kind, one inside or beside
another. Following the stack of open brackets tells whether they are. What is cut out of a balanced
text as the text of a group, or as a branch, is balanced again.
-/

namespace Motif

/-- Neither an opening nor a closing bracket. -/
def IsUnbracketed (c : Char) : Prop :=
  ∀ bracket : Bracket, c ≠ bracket.openChar ∧ c ≠ bracket.closeChar

instance (c : Char) : Decidable (IsUnbracketed c) :=
  decidable_of_iff ((c ≠ '(' ∧ c ≠ ')') ∧ c ≠ '{' ∧ c ≠ '}')
    ⟨fun h bracket => Bracket.casesOn bracket h.1 h.2, fun h => ⟨h .round, h .curly⟩⟩

/-- The brackets of the text are nested properly, each closed by one of its own kind. -/
inductive Balanced : List Char → Prop
  | nil : Balanced []
  | other {c : Char} {rest : List Char} : IsUnbracketed c → Balanced rest → Balanced (c :: rest)
  | group (bracket : Bracket) {body rest : List Char} :
      Balanced body → Balanced rest →
        Balanced (bracket.openChar :: (body ++ bracket.closeChar :: rest))

theorem isUnbracketed_iff {c : Char} :
    IsUnbracketed c ↔ ∀ bracket, Sign.ofChar? c ≠ some (.opening bracket) ∧
      Sign.ofChar? c ≠ some (.closing bracket) := by
  simp only [IsUnbracketed, ne_eq, Sign.ofChar?_eq_opening_iff, Sign.ofChar?_eq_closing_iff]

theorem isUnbracketed_of_sign_eq_none {c : Char} (h : Sign.ofChar? c = none) : IsUnbracketed c := by
  simp [isUnbracketed_iff, h]

theorem bracket_or_unbracketed (c : Char) :
    (∃ bracket : Bracket, c = bracket.openChar) ∨
      (∃ bracket : Bracket, c = bracket.closeChar) ∨ IsUnbracketed c := by
  by_cases hopening : ∃ bracket : Bracket, c = bracket.openChar
  · exact Or.inl hopening
  · by_cases hclosing : ∃ bracket : Bracket, c = bracket.closeChar
    · exact Or.inr (Or.inl hclosing)
    · simp only [not_exists] at hopening hclosing
      exact Or.inr (Or.inr fun bracket => ⟨hopening bracket, hclosing bracket⟩)

/-! ## The stack of open brackets -/

section Stack

variable {stack : List Bracket} {bracket : Bracket} {rest : List Char}

/-- The text closes the open brackets, innermost first, and all that it opens itself. -/
def ClosesText (stack : List Bracket) (text : List Char) : Prop :=
  Closes true stack (text.map Piece.ofChar)

@[simp] theorem closesText_nil : ClosesText stack [] ↔ stack = [] :=
  Iff.rfl

@[simp] theorem closesText_opening :
    ClosesText stack (bracket.openChar :: rest) ↔ ClosesText (bracket :: stack) rest := by
  rw [ClosesText, List.map_cons, Piece.ofChar_sign (Sign.ofChar?_eq_opening_iff.2 rfl),
    closes_opening]
  rfl

@[simp] theorem closesText_closing :
    ClosesText stack (bracket.closeChar :: rest) ↔
      ∃ others, stack = bracket :: others ∧ ClosesText others rest := by
  rw [ClosesText, List.map_cons, Piece.ofChar_sign (Sign.ofChar?_eq_closing_iff.2 rfl),
    closes_closing]
  rfl

theorem closesText_other {c : Char} (h : IsUnbracketed c) :
    ClosesText stack (c :: rest) ↔ ClosesText stack rest := by
  rw [ClosesText, List.map_cons]
  cases hblank : Text.isBlank c with
  | true => simp [Piece.ofChar_blank hblank, ClosesText]
  | false => exact closes_flat (Piece.isFlat_ofChar hblank (isUnbracketed_iff.1 h))

/-- A text that closes the upper part of a stack leaves its lower part to the text after it. -/
theorem closesText_append_iff {upper lower : List Bracket} {first second : List Char}
    (h : ClosesText upper first) :
    ClosesText (upper ++ lower) (first ++ second) ↔ ClosesText lower second := by
  unfold ClosesText
  rw [List.map_append]
  exact closes_append_iff lower (fun _ => Or.inl rfl) h

/-- The bracket that closes an open one parts what is inside it from what comes after it. -/
theorem ClosesText.exists_close {text : List Char} :
    ∀ {above below : List Bracket}, ClosesText (above ++ bracket :: below) text →
      ∃ body after, text = body ++ bracket.closeChar :: after ∧ ClosesText above body ∧
        ClosesText below after := by
  induction text with
  | nil =>
      intro above below h
      exact absurd (closesText_nil.1 h) (by simp)
  | cons c rest ih =>
      intro above below h
      have take : ∀ next : List Bracket, ClosesText (next ++ bracket :: below) rest →
          (∀ body, ClosesText next body → ClosesText above (c :: body)) →
            ∃ body after, c :: rest = body ++ bracket.closeChar :: after ∧
              ClosesText above body ∧ ClosesText below after := by
        intro next hnext hstep
        obtain ⟨body, after, rfl, hbody, hafter⟩ := ih hnext
        exact ⟨c :: body, after, rfl, hstep body hbody, hafter⟩
      rcases bracket_or_unbracketed c with ⟨inner, rfl⟩ | ⟨closed, rfl⟩ | hother
      · exact take (inner :: above) (closesText_opening.1 h) fun body => closesText_opening.2
      · obtain ⟨others, heq, hrest⟩ := closesText_closing.1 h
        cases above with
        | nil =>
            cases heq
            exact ⟨[], rest, rfl, closesText_nil.2 rfl, hrest⟩
        | cons top above =>
            cases heq
            exact take above hrest fun body hbody => closesText_closing.2 ⟨above, rfl, hbody⟩
      · exact take above ((closesText_other hother).1 h) fun body => (closesText_other hother).2

theorem balanced_iff_closesText {text : List Char} : Balanced text ↔ ClosesText [] text := by
  constructor
  · intro h
    induction h with
    | nil => exact closesText_nil.2 rfl
    | other hother _ ih => exact (closesText_other hother).2 ih
    | @group bracket body rest _ _ ihbody ihrest =>
        have hclose : ClosesText [bracket] (bracket.closeChar :: rest) :=
          closesText_closing.2 ⟨[], rfl, ihrest⟩
        exact closesText_opening.2 ((closesText_append_iff ihbody).2 hclose)
  · intro h
    induction hlength : text.length using Nat.strong_induction_on generalizing text with
    | _ length ih =>
        cases text with
        | nil => exact .nil
        | cons c rest =>
            rw [List.length_cons] at hlength
            rcases bracket_or_unbracketed c with ⟨bracket, rfl⟩ | ⟨bracket, rfl⟩ | hother
            · have hopened : ClosesText ([] ++ [bracket]) rest := closesText_opening.1 h
              obtain ⟨body, after, rfl, hbody, hafter⟩ := hopened.exists_close
              rw [List.length_append, List.length_cons] at hlength
              exact .group bracket (ih body.length (by omega) hbody rfl)
                (ih after.length (by omega) hafter rfl)
            · obtain ⟨others, heq, -⟩ := closesText_closing.1 h
              cases heq
            · exact .other hother
                (ih rest.length (by omega) ((closesText_other hother).1 h) rfl)

end Stack

def decidableCloses (spaced : Bool) :
    (stack : List Bracket) → (own : List Piece) → Decidable (Closes spaced stack own)
  | stack, [] => inferInstanceAs (Decidable (stack = []))
  | stack, .sign (.opening bracket) :: rest => decidableCloses spaced (bracket :: stack) rest
  | [], .sign (.closing _) :: _ => isFalse id
  | innermost :: others, .sign (.closing bracket) :: rest =>
      @instDecidableAnd (bracket = innermost) _ _ (decidableCloses spaced others rest)
  | stack, .blank :: rest =>
      @instDecidableAnd (spaced = true ∨ stack ≠ []) _ _ (decidableCloses spaced stack rest)
  | stack, .literal _ :: rest => decidableCloses spaced stack rest
  | stack, .sign .wildcard :: rest => decidableCloses spaced stack rest
  | stack, .sign .boundary :: rest => decidableCloses spaced stack rest
  | stack, .sign .negation :: rest => decidableCloses spaced stack rest
  | stack, .sign (.quantifier _) :: rest => decidableCloses spaced stack rest

instance (text : List Char) : Decidable (Balanced text) :=
  @decidable_of_iff _ _ balanced_iff_closesText.symm
    (decidableCloses true [] (text.map Piece.ofChar))

/-- Each bracket needs one of its own kind, in the right order. -/
example : Balanced ['(', 'a', ' ', '{', ')', '}'] = False ∧
    Balanced ['{', ' ', '(', ')', 'a', '}', '!'] = True := by
  decide

/-! ## Cutting and joining -/

theorem Balanced.append_iff {first second : List Char} (h : Balanced first) :
    Balanced (first ++ second) ↔ Balanced second := by
  rw [balanced_iff_closesText] at h
  rw [balanced_iff_closesText, balanced_iff_closesText]
  exact @closesText_append_iff [] [] first second h

theorem balanced_of_unbracketed {text : List Char} (h : ∀ c ∈ text, IsUnbracketed c) :
    Balanced text := by
  induction text with
  | nil => exact .nil
  | cons c rest ih =>
      exact .other (h c List.mem_cons_self) (ih fun d hd => h d (List.mem_cons_of_mem _ hd))

theorem isUnbracketed_of_isBlank {c : Char} (h : Text.isBlank c = true) : IsUnbracketed c :=
  isUnbracketed_of_sign_eq_none (Sign.ofChar?_of_isBlank h)

theorem balanced_of_blank {gap : List Char} (h : gap.all Text.isBlank = true) : Balanced gap :=
  balanced_of_unbracketed fun c hc => isUnbracketed_of_isBlank (List.all_eq_true.1 h c hc)

/-- A balanced text that begins with an opening bracket has the group that it opens. -/
theorem Balanced.exists_group {bracket : Bracket} {rest : List Char}
    (h : Balanced (bracket.openChar :: rest)) :
    ∃ body after, rest = body ++ bracket.closeChar :: after ∧ Balanced body ∧
      Balanced after := by
  rw [balanced_iff_closesText, closesText_opening] at h
  have hopened : ClosesText ([] ++ [bracket]) rest := h
  obtain ⟨body, after, heq, hbody, hafter⟩ := hopened.exists_close
  exact ⟨body, after, heq, balanced_iff_closesText.2 hbody, balanced_iff_closesText.2 hafter⟩

theorem not_balanced_closing {bracket : Bracket} {rest : List Char} :
    ¬ Balanced (bracket.closeChar :: rest) := by
  intro h
  rw [balanced_iff_closesText] at h
  obtain ⟨others, heq, -⟩ := closesText_closing.1 h
  cases heq

/-- The text of a group goes up to the first closing bracket that leaves nothing open. -/
theorem Lexeme.scanBody_eq_ok_iff_balanced {bracket : Bracket} {text body after : List Char} :
    scanBody bracket [] text = .ok (body, after) ↔
      text = body ++ bracket.closeChar :: after ∧ Balanced body := by
  rw [scanBody_nil_eq_ok_iff, balanced_iff_closesText, ClosesText]

theorem Balanced.of_mem_branches {body part : List Char} (h : Balanced body)
    (hpart : part ∈ branches body) : Balanced part := by
  induction hlength : body.length using Nat.strong_induction_on generalizing body with
  | _ length ih =>
      obtain ⟨first, after, rfl, hfirst, hblank, hafter⟩ :=
        exists_tight_beginning (balanced_iff_closesText.1 h)
      have hrest : Balanced after := balanced_iff_closesText.2 hafter
      rw [List.length_append] at hlength
      cases first with
      | nil =>
          cases after with
          | nil => cases hpart
          | cons c rest =>
              have hc := hblank c rfl
              rw [List.nil_append, branches_blank hc] at hpart
              rw [List.length_cons] at hlength
              have hgap : Balanced [c] := balanced_of_blank (by simp [hc])
              exact ih rest.length (by omega) (hgap.append_iff.1 hrest) hpart rfl
      | cons c tail =>
          rw [branches_append (by simp) hfirst hblank, List.mem_cons] at hpart
          rcases hpart with rfl | hpart
          · exact balanced_iff_closesText.2 hfirst.relax
          · rw [List.length_cons] at hlength
            exact ih after.length (by omega) hrest hpart rfl

/-! ## Texts with the same effect on open brackets -/

/-- In front of whatever comes after them, the two texts leave the same to be closed. -/
def SameNesting (first second : List Char) : Prop :=
  ∀ stack after, ClosesText stack (first ++ after) ↔ ClosesText stack (second ++ after)

namespace SameNesting

variable {first second third : List Char}

theorem refl (text : List Char) : SameNesting text text :=
  fun _ _ => Iff.rfl

theorem trans (h : SameNesting first second) (hnext : SameNesting second third) :
    SameNesting first third :=
  fun stack after => (h stack after).trans (hnext stack after)

theorem symm (h : SameNesting first second) : SameNesting second first :=
  fun stack after => (h stack after).symm

theorem balanced_iff (h : SameNesting first second) : Balanced first ↔ Balanced second := by
  have hiff := h [] []
  rwa [List.append_nil, List.append_nil, ← balanced_iff_closesText, ← balanced_iff_closesText]
    at hiff

theorem closesText_append_congr
    (h : ∀ stack, ClosesText stack first ↔ ClosesText stack second) (text : List Char) :
    ∀ stack, ClosesText stack (text ++ first) ↔ ClosesText stack (text ++ second) := by
  induction text with
  | nil => exact h
  | cons c rest ih =>
      intro stack
      rw [List.cons_append, List.cons_append]
      rcases bracket_or_unbracketed c with ⟨bracket, rfl⟩ | ⟨bracket, rfl⟩ | hother
      · rw [closesText_opening, closesText_opening, ih]
      · simp only [closesText_closing, ih]
      · rw [closesText_other hother, closesText_other hother, ih]

theorem append {fourth : List Char} (h : SameNesting first second)
    (hnext : SameNesting third fourth) : SameNesting (first ++ third) (second ++ fourth) := by
  intro stack after
  rw [List.append_assoc, List.append_assoc, h]
  exact closesText_append_congr (fun stack => hnext stack after) second stack

end SameNesting

theorem Balanced.sameNesting_nil {text : List Char} (h : Balanced text) : SameNesting text [] := by
  intro stack after
  rw [balanced_iff_closesText] at h
  exact @closesText_append_iff [] stack text after h

theorem Balanced.sameNesting {first second : List Char} (hfirst : Balanced first)
    (hsecond : Balanced second) : SameNesting first second :=
  hfirst.sameNesting_nil.trans hsecond.sameNesting_nil.symm

end Motif
