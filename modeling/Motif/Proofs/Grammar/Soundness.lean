import Motif.Proofs.Grammar.Completeness

/-!
# What is read the grammar derives

A level that is read to its end from the middle still owes something to the grammar: a negation sign
waits for its item, or the last item for its quantifier. `Continues` says what the rest of the text
has to be, and each lexeme keeps it.
-/

namespace Motif

/--
The items of a level that go with the pieces still to be read: they begin a new item, or bring the
quantifier of the last one, or begin with the item for which a negation sign waits.
-/
inductive Continues (spaced : Bool) : List Piece → Level → List Tree → Prop where
  | anew {own : List Piece} {finished tail : List Tree} :
      Derives (.items spaced) own tail →
        Continues spaced own ⟨finished, false⟩ (finished.reverse ++ tail)
  | quantified {gap rest : List Piece} {item : Tree} {earlier tail : List Tree}
      (quantifier : Quantifier) :
      Gap spaced gap → item.mark.quantifier = .once → item.hasBoundary = false →
        Derives (.items spaced) rest tail →
          Continues spaced (gap ++ .sign (.quantifier quantifier) :: rest) ⟨item :: earlier, false⟩
            (earlier.reverse ++ item.quantify quantifier :: tail)
  | negated {gap own rest : List Piece} {item : Tree} {finished items : List Tree} :
      Gap spaced gap → Derives .primary own [item] → item.choices ≠ none →
        Continues spaced rest ⟨item.negate :: finished, false⟩ items →
          Continues spaced (gap ++ (own ++ rest)) ⟨finished, true⟩ items

/-- No blank stands outside all brackets unless it is allowed. -/
def Permits (spaced : Bool) (own : List Piece) : Prop :=
  spaced = true ∨ Closes false [] own

namespace Continues

variable {spaced : Bool} {own rest : List Piece} {level next : Level} {item : Tree}
  {finished items : List Tree}

theorem eq_derives {trees : List Tree} (h : Continues spaced own .start trees) :
    Derives (.items spaced) own trees := by
  cases h with
  | anew hown => exact hown

theorem gap_cons {gap : List Piece} (hspaced : spaced = true) (h : Gap spaced gap) :
    Gap spaced (.blank :: gap) := by
  intro piece hpiece
  rcases List.mem_cons.1 hpiece with rfl | hpiece
  · exact ⟨hspaced, rfl⟩
  · exact h piece hpiece

theorem blank (hspaced : spaced = true) (h : Continues spaced own level items) :
    Continues spaced (.blank :: own) level items := by
  cases h with
  | anew hown =>
      subst hspaced
      exact anew (.blankItem hown)
  | quantified quantifier hgap honce hplain hrest =>
      exact quantified quantifier (gap_cons hspaced hgap) honce hplain hrest
  | negated hgap hown hchoices hrest => exact negated (gap_cons hspaced hgap) hown hchoices hrest

theorem of_signed (hown : Derives (.signed spaced) own [item])
    (h : Continues spaced rest ⟨item :: finished, false⟩ items) :
    Continues spaced (own ++ rest) ⟨finished, false⟩ items := by
  cases h with
  | anew hrest =>
      rw [List.reverse_cons, List.append_assoc, List.singleton_append]
      exact anew (.nextItem (.unrepeated hown) hrest)
  | @quantified gap after _ _ tail quantifier hgap _ hplain hrest =>
      have hitem := Derives.nextItem (.repeated quantifier hown hplain hgap) hrest
      rw [List.append_assoc, List.append_assoc, List.singleton_append] at hitem
      exact anew hitem

theorem of_add (hown : Derives .primary own [item]) (hadd : level.add item = .ok next)
    (h : Continues spaced rest next items) : Continues spaced (own ++ rest) level items := by
  obtain ⟨finished, negating⟩ := level
  rcases Level.add_eq_ok_iff.1 hadd with ⟨hplain, rfl⟩ | ⟨hwaiting, hchoices, rfl⟩
  · subst hplain
    exact of_signed (.unsigned hown) h
  · subst hwaiting
    exact negated (Gap.nil spaced) hown hchoices h

theorem of_negation (hread : level.readNegation = .ok next)
    (h : Continues spaced rest next items) :
    Continues spaced (.sign .negation :: rest) level items := by
  obtain ⟨finished, negating⟩ := level
  cases negating with
  | true => cases hread
  | false =>
      cases hread
      cases h with
      | negated hgap hown hchoices hrest =>
          have hitem := of_signed (.negated hgap hown hchoices) hrest
          rwa [List.cons_append, List.append_assoc] at hitem

theorem of_quantifier {quantifier : Quantifier} (hne : quantifier ≠ .once)
    (hread : level.readQuantifier quantifier = .ok next) (h : Continues spaced rest next items) :
    Continues spaced (.sign (.quantifier quantifier) :: rest) level items := by
  obtain ⟨item, earlier, rfl, honce, hplain, rfl⟩ := Level.readQuantifier_eq_ok_iff.1 hread
  generalize hfinished : item.quantify quantifier :: earlier = finished at h
  cases h with
  | anew hrest =>
      rw [← hfinished, List.reverse_cons, List.append_assoc, List.singleton_append]
      exact quantified quantifier (Gap.nil spaced) honce hplain hrest
  | quantified kind _ hkind =>
      -- An item cannot take a second quantifier.
      rw [List.cons.injEq] at hfinished
      rw [← hfinished.1, Tree.quantify, Tree.mark_withMark] at hkind
      exact absurd hkind hne

end Continues

theorem Permits.of_blank {spaced : Bool} {rest : List Piece}
    (h : Permits spaced (.blank :: rest)) : spaced = true ∧ Permits spaced rest := by
  rcases h with hspaced | hcloses
  · exact ⟨hspaced, Or.inl hspaced⟩
  · exact absurd (closes_blank.1 hcloses).1 (by simp)

theorem Permits.of_append {spaced : Bool} {first rest : List Piece}
    (hfirst : Closes false [] first) (h : Permits spaced (first ++ rest)) : Permits spaced rest :=
  h.imp id fun hcloses => (closes_append_iff [] (by simp) hfirst).1 hcloses

theorem Derives.ne_nil_of_tight {own : List Piece} {items : List Tree}
    (h : Derives (.items false) own items) (hne : own ≠ []) : items ≠ [] := by
  cases h with
  | noItem => exact absurd rfl hne
  | nextItem => simp

section Reading

variable {vocabulary : Vocabulary}

/-- Whatever is read of a text goes with its pieces. -/
def Sound (vocabulary : Vocabulary) (text : List Char) : Prop :=
  ∀ spaced level items, Permits spaced (pieces vocabulary text) →
    Tree.parseLevel vocabulary level text = .ok items →
      Continues spaced (pieces vocabulary text) level items

theorem not_isPlain_of_isBlank {c : Char} (h : Text.isBlank c = true) : ¬ IsPlain c := by
  intro hplain
  rw [hplain.1] at h
  cases h

theorem not_isPlain_closeChar (bracket : Bracket) : ¬ IsPlain bracket.closeChar := by
  intro hplain
  have hsign := Sign.ofChar?_eq_closing_iff.2 (rfl : bracket.closeChar = bracket.closeChar)
  rw [hplain.2] at hsign
  cases hsign

theorem derives_of_parseBranches (hvocabulary : vocabulary.Plain) {bound : Nat}
    (ih : ∀ text, text.length ≤ bound → Sound vocabulary text) :
    ∀ {length : Nat} {body : List Char} {trees : List Tree}, body.length = length →
      length ≤ bound → Closes true [] (body.map Piece.ofChar) →
        Tree.parseBranches vocabulary (branches body) = .ok trees →
          Derives .branches (pieces vocabulary body) trees := by
  intro length
  induction length using Nat.strong_induction_on with
  | _ length ihlength =>
      intro body trees hlength hbound hcloses hread
      obtain ⟨first, after, rfl, hfirst, hblank, hafter⟩ := exists_tight_beginning hcloses
      have hapart : ∀ c, after.head? = some c → ¬ IsPlain c :=
        fun c hc => not_isPlain_of_isBlank (hblank c hc)
      cases first with
      | nil =>
          cases after with
          | nil =>
              rw [List.append_nil, branches_nil, Tree.parseBranches] at hread
              cases hread
              rw [List.append_nil, pieces_nil]
              exact .noBranch
          | cons c rest =>
              have hc := hblank c rfl
              rw [List.nil_append, branches_blank hc] at hread
              rw [List.map_cons, Piece.ofChar_blank hc] at hafter
              rw [List.nil_append, pieces_blank hc]
              rw [List.nil_append, List.length_cons] at hlength
              exact .blankBranch
                (ihlength rest.length (by omega) rfl (by omega) hafter.2 hread)
      | cons c tail =>
          rw [branches_append (by simp) hfirst hblank, Tree.parseBranches] at hread
          obtain ⟨items, hitems, hread⟩ := bind_eq_ok_iff.1 hread
          obtain ⟨others, hothers, heq⟩ := bind_eq_ok_iff.1 hread
          cases heq
          rw [List.length_append, List.length_cons] at hlength
          have htight := (closes_pieces_iff hvocabulary (c :: tail)).2 hfirst
          have hown : Derives (.items false) (pieces vocabulary (c :: tail)) items :=
            (ih (c :: tail) (by rw [List.length_cons]; omega) false .start items
              (Or.inr htight) hitems).eq_derives
          have hne : items ≠ [] := hown.ne_nil_of_tight fun hnil => by
            cases eq_nil_of_pieces hnil
          rw [pieces_append hvocabulary hapart]
          exact .nextBranch hown hne (blank_of_head?_pieces hblank)
            (ihlength after.length (by omega) rfl (by omega) hafter hothers)

theorem derives_of_parseGroup (hvocabulary : vocabulary.Plain) {bracket : Bracket}
    {body : List Char} {item : Tree}
    (ih : ∀ text, text.length ≤ body.length → Sound vocabulary text)
    (hcloses : Closes true [] (body.map Piece.ofChar))
    (hread : Tree.parseGroup vocabulary bracket body = .ok item) :
    Derives .primary (enclosed bracket (pieces vocabulary body)) [item] := by
  cases bracket with
  | round =>
      simp only [Tree.parseGroup] at hread
      obtain ⟨children, hchildren, hread⟩ := bind_eq_ok_iff.1 hread
      split at hread
      · cases hread
      · rename_i hne
        cases hread
        have hinner := (ih body (Nat.le_refl _) true .start children (Or.inl rfl) hchildren)
        exact .round hinner.eq_derives (by simpa using hne)
  | curly =>
      simp only [Tree.parseGroup] at hread
      split at hread
      · cases hread
      · rename_i hne
        obtain ⟨children, hchildren, hread⟩ := bind_eq_ok_iff.1 hread
        cases hread
        have hinner := derives_of_parseBranches hvocabulary ih rfl (Nat.le_refl _) hcloses hchildren
        refine .curly hinner ?_
        intro heq
        subst heq
        cases hparts : branches body with
        | nil => exact hne (by rw [hparts]; rfl)
        | cons part parts =>
            rw [hparts, Tree.parseBranches] at hchildren
            obtain ⟨items, -, hchildren⟩ := bind_eq_ok_iff.1 hchildren
            obtain ⟨others, -, heq⟩ := bind_eq_ok_iff.1 hchildren
            cases heq

theorem parseLevel_sign_error (hvocabulary : vocabulary.Plain) {level : Level} {c : Char}
    {rest : List Char} {sign : Sign} {fault : PatternFault} (hsign : Sign.ofChar? c = some sign)
    (h : Lexeme.ofChar c rest = .error fault) :
    Tree.parseLevel vocabulary level (c :: rest) = .error fault := by
  apply Tree.parseLevel_of_error
  rw [Lexeme.readFirst_sign hvocabulary hsign, h]
  rfl

theorem quantifier_ne_once {c : Char} {quantifier : Quantifier}
    (h : Sign.ofChar? c = some (.quantifier quantifier)) : quantifier ≠ .once := by
  intro heq
  subst heq
  unfold Sign.ofChar? at h
  split at h <;> cases h

theorem sound_group (hvocabulary : vocabulary.Plain) {bracket : Bracket} {rest : List Char}
    (ih : ∀ text, text.length ≤ rest.length → Sound vocabulary text) :
    Sound vocabulary (bracket.openChar :: rest) := by
  intro spaced level items hpermits hread
  have hsign := Sign.ofChar?_eq_opening_iff.2 (rfl : bracket.openChar = bracket.openChar)
  cases hscan : Lexeme.scanBody bracket [] rest with
  | error fault =>
      have hlexeme : Lexeme.ofChar bracket.openChar rest = .error fault := by
        rw [Lexeme.ofChar, hsign]
        simp only [hscan]
      rw [parseLevel_sign_error hvocabulary hsign hlexeme] at hread
      cases hread
  | ok found =>
      obtain ⟨body, after⟩ := found
      obtain ⟨rfl, hcloses⟩ := Lexeme.scanBody_nil_eq_ok_iff.1 hscan
      have hbody := (closes_pieces_iff hvocabulary body).2 hcloses
      have hapart : ∀ c, (bracket.closeChar :: after).head? = some c → ¬ IsPlain c := by
        intro c hc
        cases hc
        exact not_isPlain_closeChar bracket
      have hgroup : pieces vocabulary (bracket.openChar :: (body ++ bracket.closeChar :: after)) =
          enclosed bracket (pieces vocabulary body) ++ pieces vocabulary after := by
        rw [pieces_sign hsign, pieces_append hvocabulary hapart,
          pieces_sign (Sign.ofChar?_eq_closing_iff.2 rfl), enclosed, List.cons_append,
          List.append_assoc, List.singleton_append]
      rw [hgroup] at hpermits ⊢
      rw [Tree.parseLevel_group hvocabulary hbody] at hread
      obtain ⟨next, hnext, hrest⟩ := bind_eq_ok_iff.1 hread
      obtain ⟨item, hitem, hadd⟩ := bind_eq_ok_iff.1 hnext
      rw [List.length_append, List.length_cons] at ih
      have hown := derives_of_parseGroup hvocabulary
        (fun text htext => ih text (by omega)) hcloses hitem
      exact Continues.of_add hown hadd (ih after (by omega) spaced next items
        (Permits.of_append hown.closes hpermits) hrest)

theorem sound_sign (hvocabulary : vocabulary.Plain) {c : Char} {rest : List Char} {sign : Sign}
    (hsign : Sign.ofChar? c = some sign)
    (ih : ∀ text, text.length ≤ rest.length → Sound vocabulary text) :
    Sound vocabulary (c :: rest) := by
  intro spaced level items hpermits hread
  -- Every sign but a bracket is a lexeme by itself.
  have flat : ∀ {lexeme : Lexeme}, Closes false [] [Piece.sign sign] →
      Lexeme.ofChar c rest = .ok (lexeme, rest) →
        ∃ next, Tree.absorb vocabulary level lexeme = .ok next ∧
          Continues spaced (pieces vocabulary rest) next items := by
    intro lexeme hcloses hlexeme
    rw [pieces_sign hsign] at hpermits
    rw [Tree.parseLevel_sign hvocabulary hsign hlexeme] at hread
    obtain ⟨next, hnext, hrest⟩ := bind_eq_ok_iff.1 hread
    exact ⟨next, hnext, ih rest (Nat.le_refl _) spaced next items
      (Permits.of_append hcloses hpermits) hrest⟩
  cases sign with
  | wildcard =>
      obtain ⟨next, hnext, hrest⟩ := flat rfl (by rw [Lexeme.ofChar, hsign])
      rw [Tree.absorb] at hnext
      rw [pieces_sign hsign]
      exact Continues.of_add .wildcard hnext hrest
  | boundary =>
      obtain ⟨next, hnext, hrest⟩ := flat rfl (by rw [Lexeme.ofChar, hsign])
      rw [Tree.absorb] at hnext
      rw [pieces_sign hsign]
      exact Continues.of_add .boundary hnext hrest
  | negation =>
      obtain ⟨next, hnext, hrest⟩ := flat rfl (by rw [Lexeme.ofChar, hsign])
      rw [Tree.absorb] at hnext
      rw [pieces_sign hsign]
      exact Continues.of_negation hnext hrest
  | quantifier quantifier =>
      obtain ⟨next, hnext, hrest⟩ := flat rfl (by rw [Lexeme.ofChar, hsign])
      rw [Tree.absorb] at hnext
      rw [pieces_sign hsign]
      exact Continues.of_quantifier (quantifier_ne_once hsign) hnext hrest
  | closing bracket =>
      rw [parseLevel_sign_error hvocabulary hsign (by rw [Lexeme.ofChar, hsign])] at hread
      cases hread
  | opening bracket =>
      rw [Sign.ofChar?_eq_opening_iff.1 hsign] at hpermits hread ⊢
      exact sound_group hvocabulary ih spaced level items hpermits hread

/-- Every text is read soundly. -/
theorem sound (hvocabulary : vocabulary.Plain) (text : List Char) : Sound vocabulary text := by
  induction hlength : text.length using Nat.strong_induction_on generalizing text with
  | _ length ih =>
      have shorter : ∀ bound, bound < length →
          ∀ text, text.length ≤ bound → Sound vocabulary text :=
        fun bound hbound text htext => ih text.length (by omega) text rfl
      cases text with
      | nil =>
          intro spaced level items _ hread
          rw [Tree.parseLevel_nil] at hread
          obtain ⟨finished, negating⟩ := level
          cases negating with
          | true => cases hread
          | false =>
              cases hread
              have hempty : Continues spaced [] ⟨finished, false⟩ (finished.reverse ++ []) :=
                .anew .noItem
              rw [pieces_nil]
              rwa [List.append_nil] at hempty
      | cons c rest =>
          rw [List.length_cons] at hlength
          cases hblank : Text.isBlank c with
          | true =>
              intro spaced level items hpermits hread
              rw [pieces_blank hblank] at hpermits ⊢
              rw [Tree.parseLevel_blank hblank] at hread
              obtain ⟨hspaced, hrest⟩ := hpermits.of_blank
              exact (shorter rest.length (by omega) rest (Nat.le_refl _)
                spaced level items hrest hread).blank hspaced
          | false =>
              cases hsign : Sign.ofChar? c with
              | some sign =>
                  exact sound_sign hvocabulary hsign (shorter rest.length (by omega))
              | none =>
                  intro spaced level items hpermits hread
                  obtain ⟨tail, after, rfl, hliteral⟩ := vocabulary.exists_literalAt_eq c rest
                  rw [List.length_append] at hlength
                  rw [pieces_plain ⟨hblank, hsign⟩ hliteral] at hpermits ⊢
                  rw [Tree.parseLevel_plain ⟨hblank, hsign⟩ hliteral] at hread
                  obtain ⟨next, hnext, hrest⟩ := bind_eq_ok_iff.1 hread
                  have hword : Closes false [] [.literal (c :: tail)] := rfl
                  have hafter := shorter after.length (by omega) after (Nat.le_refl _) spaced next
                    items (Permits.of_append hword hpermits) hrest
                  exact Continues.of_add (.literal (c :: tail)) hnext hafter

end Reading

end Motif
