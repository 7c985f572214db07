import Motif.Proofs.Grammar.Piece

/-!
# Nesting

Some pieces close a stack of open brackets if every bracket among them closes the innermost open one
and none is left open at the end. The text of a group is found by following the stack, and the
branches between curly brackets are what lies between the blanks at which the stack is empty.
-/

namespace Motif

def Piece.ofChar (c : Char) : Piece :=
  if Text.isBlank c then
    .blank
  else
    match Sign.ofChar? c with
    | some found => .sign found
    | none => .literal [c]

theorem Piece.ofChar_blank {c : Char} (h : Text.isBlank c = true) : Piece.ofChar c = .blank := by
  rw [ofChar, if_pos h]

theorem Piece.ofChar_sign {c : Char} {sign : Sign} (h : Sign.ofChar? c = some sign) :
    Piece.ofChar c = .sign sign := by
  rw [ofChar, if_neg (by simp [Sign.isBlank_of_ofChar? h]), h]

theorem Piece.ofChar_plain {c : Char} (h : IsPlain c) : Piece.ofChar c = .literal [c] := by
  rw [ofChar, if_neg (by simp [h.1]), h.2]

/--
The pieces close the open brackets, innermost first, and all that they open themselves. Outside all
brackets there is a blank only if it is allowed there.
-/
def Closes (spaced : Bool) : List Bracket → List Piece → Prop
  | stack, [] => stack = []
  | stack, piece :: rest =>
      match piece with
      | .sign (.opening bracket) => Closes spaced (bracket :: stack) rest
      | .sign (.closing bracket) =>
          match stack with
          | [] => False
          | innermost :: others => bracket = innermost ∧ Closes spaced others rest
      | .blank => (spaced = true ∨ stack ≠ []) ∧ Closes spaced stack rest
      | _ => Closes spaced stack rest

section Closes

variable {spaced : Bool} {stack : List Bracket} {bracket : Bracket} {rest : List Piece}

@[simp] theorem closes_nil : Closes spaced stack [] ↔ stack = [] :=
  Iff.rfl

@[simp] theorem closes_blank :
    Closes spaced stack (.blank :: rest) ↔
      (spaced = true ∨ stack ≠ []) ∧ Closes spaced stack rest :=
  Iff.rfl

@[simp] theorem closes_opening :
    Closes spaced stack (.sign (.opening bracket) :: rest) ↔
      Closes spaced (bracket :: stack) rest :=
  Iff.rfl

@[simp] theorem closes_closing :
    Closes spaced stack (.sign (.closing bracket) :: rest) ↔
      ∃ others, stack = bracket :: others ∧ Closes spaced others rest := by
  cases stack with
  | nil => simp [Closes]
  | cons innermost others => simp [Closes, eq_comm]

/-- A piece that is neither a blank nor a bracket. -/
def Piece.IsFlat (piece : Piece) : Prop :=
  piece ≠ .blank ∧ ∀ bracket, piece ≠ .sign (.opening bracket) ∧
    piece ≠ .sign (.closing bracket)

theorem closes_flat {piece : Piece} (h : piece.IsFlat) :
    Closes spaced stack (piece :: rest) ↔ Closes spaced stack rest := by
  cases piece with
  | blank => exact absurd rfl h.1
  | sign sign =>
      cases sign with
      | opening bracket => exact absurd rfl (h.2 bracket).1
      | closing bracket => exact absurd rfl (h.2 bracket).2
      | wildcard | boundary | negation => exact Iff.rfl
      | quantifier quantifier => exact Iff.rfl
  | literal text => exact Iff.rfl

/--
Pieces that close the upper part of a stack leave its lower part to the pieces after them. Blanks
among them may need something below that keeps them inside.
-/
theorem closes_append_iff {inner : Bool} (lower : List Bracket) {second : List Piece}
    (hblank : inner = true → spaced = true ∨ lower ≠ []) {first : List Piece} :
    ∀ {upper : List Bracket}, Closes inner upper first →
      (Closes spaced (upper ++ lower) (first ++ second) ↔ Closes spaced lower second) := by
  induction first with
  | nil =>
      intro upper h
      rw [closes_nil] at h
      rw [h, List.nil_append, List.nil_append]
  | cons piece first ih =>
      intro upper h
      by_cases hflat : piece.IsFlat
      · rw [closes_flat hflat] at h
        rw [List.cons_append, closes_flat hflat, ih h]
      cases piece with
      | blank =>
          obtain ⟨hwhere, hrest⟩ := closes_blank.1 h
          have hinside : spaced = true ∨ upper ++ lower ≠ [] := by
            rcases hwhere with hinner | hupper
            · exact (hblank hinner).imp id fun hlower => List.append_ne_nil_of_right_ne_nil _ hlower
            · exact Or.inr (List.append_ne_nil_of_left_ne_nil hupper _)
          rw [List.cons_append, closes_blank, ih hrest]
          exact and_iff_right hinside
      | literal text => exact absurd ⟨by simp, by simp⟩ hflat
      | sign sign =>
          cases sign with
          | opening bracket =>
              have hopened : Closes inner (bracket :: upper) first := h
              exact ih hopened
          | closing bracket =>
              obtain ⟨others, rfl, hrest⟩ := closes_closing.1 h
              rw [List.cons_append, List.cons_append, closes_closing]
              simp only [List.cons.injEq, true_and, exists_eq_left', ih hrest]
          | wildcard | boundary | negation => exact absurd ⟨by simp, by simp⟩ hflat
          | quantifier quantifier => exact absurd ⟨by simp, by simp⟩ hflat

end Closes

/-! ## Characters and pieces -/

section Texts

variable {vocabulary : Vocabulary} {spaced : Bool} {stack : List Bracket}

theorem Piece.isFlat_ofChar {c : Char} (h : Text.isBlank c = false)
    (hbracket : ∀ bracket, Sign.ofChar? c ≠ some (.opening bracket) ∧
      Sign.ofChar? c ≠ some (.closing bracket)) : (Piece.ofChar c).IsFlat := by
  cases hsign : Sign.ofChar? c with
  | none =>
      rw [Piece.ofChar_plain ⟨h, hsign⟩]
      exact ⟨by simp, by simp⟩
  | some sign =>
      rw [Piece.ofChar_sign hsign]
      refine ⟨by simp, fun bracket => ?_⟩
      have hne := hbracket bracket
      rw [hsign] at hne
      simpa using hne

theorem closes_ofChar_of_isPlain {text rest : List Char} (h : ∀ c ∈ text, IsPlain c) :
    Closes spaced stack ((text ++ rest).map Piece.ofChar) ↔
      Closes spaced stack (rest.map Piece.ofChar) := by
  induction text with
  | nil => exact Iff.rfl
  | cons c text ih =>
      rw [List.cons_append, List.map_cons, Piece.ofChar_plain (h c List.mem_cons_self),
        closes_flat ⟨by simp, by simp⟩]
      exact ih fun d hd => h d (List.mem_cons_of_mem _ hd)

/-- Cutting a text into pieces leaves its blanks and brackets as they are. -/
theorem closes_pieces_iff (hvocabulary : vocabulary.Plain) (text : List Char) :
    ∀ {stack : List Bracket}, Closes spaced stack (pieces vocabulary text) ↔
      Closes spaced stack (text.map Piece.ofChar) := by
  induction text using pieces_induction vocabulary with
  | nil =>
      intro stack
      rw [pieces_nil, List.map_nil]
  | blank c rest hblank ih =>
      intro stack
      rw [pieces_blank hblank, List.map_cons, Piece.ofChar_blank hblank, closes_blank,
        closes_blank, ih]
  | sign c rest sign hsign ih =>
      intro stack
      rw [pieces_sign hsign, List.map_cons, Piece.ofChar_sign hsign]
      cases sign with
      | opening bracket => rw [closes_opening, closes_opening, ih]
      | closing bracket => simp only [closes_closing, ih]
      | wildcard | boundary | negation =>
          rw [closes_flat ⟨by simp, by simp⟩, closes_flat ⟨by simp, by simp⟩, ih]
      | quantifier quantifier =>
          rw [closes_flat ⟨by simp, by simp⟩, closes_flat ⟨by simp, by simp⟩, ih]
  | plain c tail after hplain hliteral ih =>
      intro stack
      have hword : ∀ d ∈ c :: tail, IsPlain d := by
        rw [← hliteral]
        exact hvocabulary.isPlain_of_mem_literalAt hplain
      rw [pieces_plain hplain hliteral, closes_flat ⟨by simp, by simp⟩, ih, ← List.cons_append,
        closes_ofChar_of_isPlain hword]

end Texts

/-! ## The text of a group -/

theorem Lexeme.scanBody_opening {current inner : Bracket} {outer : List Bracket} {c : Char}
    {rest : List Char} (h : Sign.ofChar? c = some (.opening inner)) :
    scanBody current outer (c :: rest) = consBody c (scanBody inner (current :: outer) rest) := by
  rw [scanBody.eq_def]
  simp only [h]

theorem Lexeme.scanBody_flat {current : Bracket} {outer : List Bracket} {c : Char}
    {rest : List Char} (h : ∀ bracket, Sign.ofChar? c ≠ some (.opening bracket) ∧
      Sign.ofChar? c ≠ some (.closing bracket)) :
    scanBody current outer (c :: rest) = consBody c (scanBody current outer rest) := by
  rw [scanBody.eq_def]
  dsimp only
  split
  · rename_i inner hsign
    exact absurd hsign (h inner).1
  · rename_i closed hsign
    exact absurd hsign (h closed).2
  · rfl

theorem Lexeme.scanBody_last {bracket : Bracket} {c : Char} {rest : List Char}
    (h : Sign.ofChar? c = some (.closing bracket)) :
    scanBody bracket [] (c :: rest) = .ok ([], rest) := by
  rw [scanBody.eq_def]
  simp only [h, if_true]

theorem Lexeme.scanBody_closing {current next : Bracket} {others : List Bracket} {c : Char}
    {rest : List Char} (h : Sign.ofChar? c = some (.closing current)) :
    scanBody current (next :: others) (c :: rest) = consBody c (scanBody next others rest) := by
  rw [scanBody.eq_def]
  simp only [h, if_true]

theorem Lexeme.scanBody_mismatch {current closed : Bracket} {outer : List Bracket} {c : Char}
    {rest : List Char} (h : Sign.ofChar? c = some (.closing closed)) (hne : closed ≠ current) :
    scanBody current outer (c :: rest) = .error (.unexpectedClose closed) := by
  rw [scanBody.eq_def]
  simp only [h, if_neg hne]

/--
A character in front of the closing bracket belongs to the text of the group, whatever becomes of
the stack above that bracket.
-/
theorem scan_step {bracket : Bracket} {c : Char} {body rest after : List Char}
    {above next : List Bracket}
    (hend : c = bracket.closeChar → above ≠ [])
    (hstep : ∀ others, Closes true above (Piece.ofChar c :: others) ↔
      Closes true next others) :
    (∃ inner, (rest = inner ++ bracket.closeChar :: after ∧
        Closes true next (inner.map Piece.ofChar)) ∧ body = c :: inner) ↔
      c :: rest = body ++ bracket.closeChar :: after ∧
        Closes true above (body.map Piece.ofChar) := by
  constructor
  · intro h
    rcases h with ⟨inner, ⟨rfl, hcloses⟩, rfl⟩
    exact ⟨rfl, (hstep _).2 hcloses⟩
  · intro h
    rcases h with ⟨heq, hcloses⟩
    cases body with
    | nil =>
        rw [List.nil_append, List.cons.injEq] at heq
        exact absurd hcloses (hend heq.1)
    | cons d inner =>
        rw [List.cons_append, List.cons.injEq] at heq
        obtain ⟨rfl, rfl⟩ := heq
        exact ⟨inner, ⟨rfl, (hstep _).1 hcloses⟩, rfl⟩

theorem scan_stop {bracket : Bracket} {c : Char} {body rest after : List Char}
    (h : Sign.ofChar? c = some (.closing bracket)) :
    [] = body ∧ rest = after ↔
      c :: rest = body ++ bracket.closeChar :: after ∧
        Closes true [] (body.map Piece.ofChar) := by
  cases body with
  | nil => simp [Sign.ofChar?_eq_closing_iff.1 h]
  | cons d inner =>
      refine iff_of_false (by simp) ?_
      intro hboth
      rcases hboth with ⟨heq, hcloses⟩
      rw [List.cons_append, List.cons.injEq] at heq
      rw [List.map_cons, ← heq.1, Piece.ofChar_sign h] at hcloses
      exact hcloses

/-- The bracket that is closed first is the innermost one of the group. -/
theorem innermost_of_scanned {bracket closed : Bracket} {c : Char} {body rest after : List Char}
    {above : List Bracket} (h : Sign.ofChar? c = some (.closing closed))
    (heq : c :: rest = body ++ bracket.closeChar :: after)
    (hcloses : Closes true above (body.map Piece.ofChar)) :
    ∃ others, above ++ [bracket] = closed :: others := by
  cases body with
  | nil =>
      rw [List.nil_append, List.cons.injEq] at heq
      rw [heq.1, Sign.ofChar?_eq_closing_iff.2 rfl] at h
      cases h
      rw [List.map_nil, closes_nil] at hcloses
      exact ⟨[], by rw [hcloses, List.nil_append]⟩
  | cons d inner =>
      rw [List.cons_append, List.cons.injEq] at heq
      rw [List.map_cons, ← heq.1, Piece.ofChar_sign h, closes_closing] at hcloses
      obtain ⟨others, rfl, -⟩ := hcloses
      exact ⟨others ++ [bracket], List.cons_append⟩

/--
Scanning a group stops at the first closing bracket for which the stack above the group is empty.
-/
theorem Lexeme.scanBody_eq_ok_iff {bracket : Bracket} {text : List Char} :
    ∀ {current : Bracket} {above outer : List Bracket} {body after : List Char},
      current :: outer = above ++ [bracket] →
        (scanBody current outer text = .ok (body, after) ↔
          text = body ++ bracket.closeChar :: after ∧
            Closes true above (body.map Piece.ofChar)) := by
  induction text with
  | nil => simp [scanBody]
  | cons c rest ih =>
      intro current above outer body after hstack
      have pass : (∀ kind, Sign.ofChar? c ≠ some (.opening kind) ∧
          Sign.ofChar? c ≠ some (.closing kind)) →
            (consBody c (scanBody current outer rest) = .ok (body, after) ↔
              c :: rest = body ++ bracket.closeChar :: after ∧
                Closes true above (body.map Piece.ofChar)) := by
        intro hbracket
        simp only [consBody_eq_ok_iff, ih hstack]
        apply scan_step
        · intro heq
          subst heq
          exact absurd (Sign.ofChar?_eq_closing_iff.2 rfl) (hbracket bracket).2
        · intro others
          cases hblank : Text.isBlank c with
          | true => simp [Piece.ofChar_blank hblank]
          | false => exact closes_flat (Piece.isFlat_ofChar hblank hbracket)
      cases hsign : Sign.ofChar? c with
      | none =>
          rw [scanBody_flat (by simp [hsign])]
          exact pass (by simp [hsign])
      | some sign =>
          cases sign with
          | opening inner =>
              have hnext : inner :: current :: outer = (inner :: above) ++ [bracket] := by
                rw [hstack, List.cons_append]
              simp only [scanBody_opening hsign, consBody_eq_ok_iff, ih hnext]
              apply scan_step
              · intro heq
                subst heq
                rw [Sign.ofChar?_eq_closing_iff.2 rfl] at hsign
                cases hsign
              · intro others
                rw [Piece.ofChar_sign hsign, closes_opening]
          | closing closed =>
              by_cases hclosed : closed = current
              · subst hclosed
                cases above with
                | nil =>
                    cases hstack
                    simp only [scanBody_last hsign, Except.ok.injEq, Prod.mk.injEq]
                    exact scan_stop hsign
                | cons top above =>
                    rw [List.cons_append, List.cons.injEq] at hstack
                    obtain ⟨rfl, houter⟩ := hstack
                    cases outer with
                    | nil => simp at houter
                    | cons next others =>
                        simp only [scanBody_closing hsign, consBody_eq_ok_iff, ih houter]
                        apply scan_step
                        · simp
                        · intro others
                          simp [Piece.ofChar_sign hsign]
              · rw [scanBody_mismatch hsign hclosed]
                refine iff_of_false (by simp) ?_
                intro h
                obtain ⟨others, hothers⟩ := innermost_of_scanned hsign h.1 h.2
                rw [← hstack, List.cons.injEq] at hothers
                exact hclosed hothers.1.symm
          | wildcard | boundary | negation =>
              rw [scanBody_flat (by simp [hsign])]
              exact pass (by simp [hsign])
          | quantifier quantifier =>
              rw [scanBody_flat (by simp [hsign])]
              exact pass (by simp [hsign])

theorem Lexeme.scanBody_nil_eq_ok_iff {bracket : Bracket} {text body after : List Char} :
    scanBody bracket [] text = .ok (body, after) ↔
      text = body ++ bracket.closeChar :: after ∧ Closes true [] (body.map Piece.ofChar) :=
  scanBody_eq_ok_iff rfl

/-! ## Branches -/

theorem depthAfter_flat {depth : Nat} {c : Char}
    (h : ∀ bracket, Sign.ofChar? c ≠ some (.opening bracket) ∧
      Sign.ofChar? c ≠ some (.closing bracket)) : depthAfter depth c = depth := by
  unfold depthAfter
  split
  · rename_i bracket hsign
    exact absurd hsign (h bracket).1
  · rename_i bracket hsign
    exact absurd hsign (h bracket).2
  · rfl

theorem branchesFrom_append {text after : List Char} :
    ∀ {stack : List Bracket} {reversed : List Char},
      Closes false stack (text.map Piece.ofChar) →
        branchesFrom stack.length reversed (text ++ after) =
          branchesFrom 0 (text.reverse ++ reversed) after := by
  induction text with
  | nil =>
      intro stack reversed h
      rw [List.map_nil, closes_nil] at h
      rw [h]
      rfl
  | cons c text ih =>
      intro stack reversed h
      have take : ∀ next : List Bracket, depthAfter stack.length c = next.length →
          (Text.isBlank c && decide (depthAfter stack.length c = 0)) = false →
            Closes false next (text.map Piece.ofChar) →
              branchesFrom stack.length reversed (c :: text ++ after) =
                branchesFrom 0 ((c :: text).reverse ++ reversed) after := by
        intro next hdepth hinside hcloses
        rw [List.cons_append, branchesFrom, if_neg (by rw [hinside]; simp), hdepth, ih hcloses,
          List.reverse_cons, List.append_assoc, List.singleton_append]
      cases hblank : Text.isBlank c with
      | true =>
          rw [List.map_cons, Piece.ofChar_blank hblank, closes_blank] at h
          have hsign := Sign.ofChar?_of_isBlank hblank
          have hdepth : depthAfter stack.length c = stack.length :=
            depthAfter_flat (by simp [hsign])
          have hne : stack ≠ [] := h.1.resolve_left (by simp)
          exact take stack hdepth (by simp [hdepth, hne]) h.2
      | false =>
          by_cases hbracket : ∀ bracket, Sign.ofChar? c ≠ some (.opening bracket) ∧
              Sign.ofChar? c ≠ some (.closing bracket)
          · rw [List.map_cons, closes_flat (Piece.isFlat_ofChar hblank hbracket)] at h
            exact take stack (depthAfter_flat hbracket) (by simp [hblank]) h
          · cases hsign : Sign.ofChar? c with
            | none => exact absurd (by simp [hsign]) hbracket
            | some sign =>
                rw [List.map_cons, Piece.ofChar_sign hsign] at h
                cases sign with
                | opening bracket =>
                    exact take (bracket :: stack) (by simp [depthAfter, hsign])
                      (by simp [hblank]) h
                | closing bracket =>
                    obtain ⟨others, rfl, hcloses⟩ := closes_closing.1 h
                    exact take others (by simp [depthAfter, hsign]) (by simp [hblank]) hcloses
                | wildcard | boundary | negation => exact absurd (by simp [hsign]) hbracket
                | quantifier quantifier => exact absurd (by simp [hsign]) hbracket

@[simp] theorem branches_nil : branches [] = [] :=
  rfl

theorem branches_blank {c : Char} {rest : List Char} (h : Text.isBlank c = true) :
    branches (c :: rest) = branches rest := by
  have hdepth : depthAfter 0 c = 0 := depthAfter_flat (by simp [Sign.ofChar?_of_isBlank h])
  rw [branches, branchesFrom, if_pos (by simp [h, hdepth]), hdepth]
  rfl

theorem branches_append {text after : List Char} (hne : text ≠ [])
    (h : Closes false [] (text.map Piece.ofChar))
    (hafter : ∀ c, after.head? = some c → Text.isBlank c = true) :
    branches (text ++ after) = text :: branches after := by
  have htext : branchesFrom 0 [] (text ++ after) = branchesFrom 0 (text.reverse ++ []) after :=
    @branchesFrom_append text after [] [] h
  rw [List.append_nil] at htext
  have hfinish : Text.finishWord text.reverse = [text] := by
    rw [Text.finishWord_of_ne_nil (List.reverse_ne_nil_iff.2 hne), List.reverse_reverse]
  rw [branches]
  refine htext.trans ?_
  cases after with
  | nil => rw [branchesFrom, hfinish, branches_nil]
  | cons c rest =>
      have hblank := hafter c rfl
      have hdepth : depthAfter 0 c = 0 :=
        depthAfter_flat (by simp [Sign.ofChar?_of_isBlank hblank])
      rw [branchesFrom, if_pos (by simp [hblank, hdepth]), hfinish, branches_blank hblank, hdepth]
      rfl

/-- What closes a stack begins with a part that has no blank outside all brackets. -/
theorem exists_tight_beginning {text : List Char} :
    ∀ {stack : List Bracket}, Closes true stack (text.map Piece.ofChar) →
      ∃ first after, text = first ++ after ∧
        Closes false stack (first.map Piece.ofChar) ∧
          (∀ c, after.head? = some c → Text.isBlank c = true) ∧
            Closes true [] (after.map Piece.ofChar) := by
  induction text with
  | nil =>
      intro stack h
      exact ⟨[], [], rfl, h, by simp, rfl⟩
  | cons c text ih =>
      intro stack h
      have take : ∀ next : List Bracket, Closes true next (text.map Piece.ofChar) →
          (∀ others, Closes false next others →
            Closes false stack (Piece.ofChar c :: others)) →
            ∃ first after, c :: text = first ++ after ∧
              Closes false stack (first.map Piece.ofChar) ∧
                (∀ c, after.head? = some c → Text.isBlank c = true) ∧
                  Closes true [] (after.map Piece.ofChar) := by
        intro next hnext hstep
        obtain ⟨first, after, rfl, hfirst, hafter, hrest⟩ := ih hnext
        exact ⟨c :: first, after, rfl, hstep _ hfirst, hafter, hrest⟩
      rw [List.map_cons] at h
      cases hblank : Text.isBlank c with
      | true =>
          by_cases hstack : stack = []
          · refine ⟨[], c :: text, rfl, hstack, by simp [hblank], ?_⟩
            rw [List.map_cons, ← hstack]
            exact h
          · rw [Piece.ofChar_blank hblank] at h take
            exact take stack h.2 fun others hothers => ⟨Or.inr hstack, hothers⟩
      | false =>
          cases hsign : Sign.ofChar? c with
          | none =>
              rw [Piece.ofChar_plain ⟨hblank, hsign⟩] at h take
              exact take stack h fun others hothers => hothers
          | some sign =>
              rw [Piece.ofChar_sign hsign] at h take
              cases sign with
              | opening bracket => exact take (bracket :: stack) h fun others => id
              | closing bracket =>
                  obtain ⟨below, rfl, hbelow⟩ := closes_closing.1 h
                  exact take below hbelow fun others hothers => ⟨rfl, hothers⟩
              | wildcard | boundary | negation => exact take stack h fun others => id
              | quantifier quantifier => exact take stack h fun others => id

end Motif
