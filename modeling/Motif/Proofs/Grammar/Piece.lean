import Mathlib.Data.List.MinMax
import Motif.Pattern.Parse

/-!
# Pieces of a pattern text

A pattern text cut from left to right, without regard to brackets: a blank and a sign are a piece
each, and whatever else comes next is the longest declared symbol that stands there or, if there is
none, a single character. A vocabulary is plain if no symbol holds a blank or a sign; then no piece
reaches across either, and reading level by level meets the same pieces.
-/

namespace Motif

inductive Piece where
  | blank
  | sign (sign : Sign)
  /-- A declared symbol or a single character. -/
  | literal (text : List Char)
deriving DecidableEq

/-- Neither a blank nor a character with a meaning of its own. -/
def IsPlain (c : Char) : Prop :=
  Text.isBlank c = false ∧ Sign.ofChar? c = none

instance (c : Char) : Decidable (IsPlain c) :=
  inferInstanceAs (Decidable (_ ∧ _))

namespace Vocabulary

/-- No symbol holds a blank or a character with a meaning of its own. -/
def Plain (vocabulary : Vocabulary) : Prop :=
  ∀ symbol ∈ vocabulary.symbols, ∀ c ∈ symbol, IsPlain c

instance (vocabulary : Vocabulary) : Decidable vocabulary.Plain :=
  @List.decidableBAll _ _ (List.decidableBAll IsPlain) vocabulary.symbols

/-- The longest symbol with which a text begins. -/
def longest? (vocabulary : Vocabulary) (text : List Char) : Option (List Char) :=
  (vocabulary.symbols.filter fun symbol => symbol.isPrefixOf text).argmax List.length

/-- The literal that begins with a character: the longest symbol there, or else the character. -/
def literalAt (vocabulary : Vocabulary) (c : Char) (rest : List Char) : List Char :=
  (vocabulary.longest? (c :: rest)).getD [c]

end Vocabulary

def pieces (vocabulary : Vocabulary) : List Char → List Piece
  | [] => []
  | c :: rest =>
      if Text.isBlank c then
        .blank :: pieces vocabulary rest
      else
        match Sign.ofChar? c with
        | some sign => .sign sign :: pieces vocabulary rest
        | none =>
            let text := vocabulary.literalAt c rest
            .literal text :: pieces vocabulary (rest.drop (text.length - 1))
termination_by text => text.length
decreasing_by
  · exact Nat.lt_succ_self _
  · exact Nat.lt_succ_self _
  · simp only [List.length_drop, List.length_cons]
    omega

/-! ## Signs and blanks -/

theorem Sign.isBlank_of_ofChar? {c : Char} {sign : Sign} (h : Sign.ofChar? c = some sign) :
    Text.isBlank c = false := by
  unfold Sign.ofChar? at h
  split at h <;> first | decide | cases h

theorem Sign.ofChar?_of_isBlank {c : Char} (h : Text.isBlank c = true) :
    Sign.ofChar? c = none := by
  cases hsign : Sign.ofChar? c with
  | none => rfl
  | some sign =>
      rw [Sign.isBlank_of_ofChar? hsign] at h
      cases h

namespace Vocabulary

variable {vocabulary : Vocabulary} {text other symbol : List Char}

/-! ## The longest symbol -/

theorem length_le_width (text : List Char) : text.length ≤ width text := by
  induction text with
  | nil => exact Nat.le_refl 0
  | cons c rest ih =>
      have hpos := Char.utf8Size_pos c
      rw [width, List.length_cons]
      omega

theorem width_append (first second : List Char) :
    width (first ++ second) = width first + width second := by
  induction first with
  | nil => simp [width]
  | cons c rest ih => rw [List.cons_append, width, width, ih, Nat.add_assoc]

theorem length_le_of_width_le (htext : symbol <+: text) (hother : other <+: text)
    (hwidth : width other ≤ width symbol) : other.length ≤ symbol.length := by
  apply Nat.le_of_not_lt
  intro hlt
  obtain ⟨suffix, rfl⟩ := List.prefix_of_prefix_length_le htext hother (Nat.le_of_lt hlt)
  have hsuffix := length_le_width suffix
  simp only [width_append, List.length_append] at *
  omega

theorem longest?_eq_some_iff :
    vocabulary.longest? text = some symbol ↔
      symbol ∈ vocabulary.symbols ∧ symbol <+: text ∧
        ∀ other ∈ vocabulary.symbols, other <+: text →
          other.length ≤ symbol.length := by
  unfold longest?
  rw [List.argmax_eq_some_iff]
  simp only [List.mem_filter, List.isPrefixOf_iff_prefix, and_imp, and_assoc]
  constructor
  · intro h
    rcases h with ⟨hmem, hbegins, hle, -⟩
    exact ⟨hmem, hbegins, hle⟩
  · intro h
    rcases h with ⟨hmem, hbegins, hle⟩
    refine ⟨hmem, hbegins, hle, ?_⟩
    intro other hother hotherPrefix hlength
    have heq : other = symbol := by
      apply List.IsPrefix.eq_of_length_le _ hlength
      exact List.prefix_of_prefix_length_le hotherPrefix hbegins (hle other hother hotherPrefix)
    rw [heq]

/-- The first symbol that stands somewhere is the longest one, as the widest come first. -/
theorem leadingSymbol?_eq_longest? (vocabulary : Vocabulary) (text : List Char) :
    Lexeme.leadingSymbol? vocabulary.symbols text = vocabulary.longest? text := by
  cases hfind : Lexeme.leadingSymbol? vocabulary.symbols text with
  | none =>
      have hnone := List.find?_eq_none.1 hfind
      rw [longest?, List.filter_eq_nil_iff.2 hnone, List.argmax_nil]
  | some symbol =>
      symm
      obtain ⟨hbegins, earlier, later, hsymbols, hearlier⟩ := List.find?_eq_some_iff_append.1 hfind
      rw [List.isPrefixOf_iff_prefix] at hbegins
      have hwidest := vocabulary.widestFirst
      rw [hsymbols, List.pairwise_append, List.pairwise_cons] at hwidest
      rw [longest?_eq_some_iff]
      refine ⟨List.mem_of_find?_eq_some hfind, hbegins, ?_⟩
      intro other hother hotherPrefix
      rw [hsymbols, List.mem_append, List.mem_cons] at hother
      rcases hother with hother | rfl | hother
      · have hno := hearlier other hother
        rw [Bool.not_eq_true', ← Bool.not_eq_true, List.isPrefixOf_iff_prefix] at hno
        exact absurd hotherPrefix hno
      · exact Nat.le_refl _
      · exact length_le_of_width_le hbegins hotherPrefix (hwidest.2.1.1 other hother)

theorem longest?_congr
    (h : ∀ symbol ∈ vocabulary.symbols, (symbol <+: text ↔ symbol <+: other)) :
    vocabulary.longest? text = vocabulary.longest? other := by
  unfold longest?
  congr 1
  apply List.filter_congr
  intro symbol hsymbol
  rw [Bool.eq_iff_iff, List.isPrefixOf_iff_prefix, List.isPrefixOf_iff_prefix]
  exact h symbol hsymbol

theorem longest?_eq_none_iff :
    vocabulary.longest? text = none ↔
      ∀ symbol ∈ vocabulary.symbols, ¬ symbol <+: text := by
  rw [longest?, List.argmax_eq_none, List.filter_eq_nil_iff]
  simp only [List.isPrefixOf_iff_prefix]

end Vocabulary

variable {vocabulary : Vocabulary} {c : Char} {rest : List Char}

/-! ## One piece at a time -/

@[simp] theorem pieces_nil : pieces vocabulary [] = [] := by
  rw [pieces]

theorem pieces_blank (h : Text.isBlank c = true) :
    pieces vocabulary (c :: rest) = .blank :: pieces vocabulary rest := by
  rw [pieces, if_pos h]

theorem pieces_sign {sign : Sign} (h : Sign.ofChar? c = some sign) :
    pieces vocabulary (c :: rest) = .sign sign :: pieces vocabulary rest := by
  rw [pieces, if_neg (by simp [Sign.isBlank_of_ofChar? h]), h]

/-- A literal is the beginning of the text, and at least one character of it. -/
theorem Vocabulary.exists_eq_literalAt (vocabulary : Vocabulary) (c : Char) (rest : List Char) :
    ∃ tail, vocabulary.literalAt c rest = c :: tail ∧ tail <+: rest := by
  unfold literalAt
  cases hlongest : vocabulary.longest? (c :: rest) with
  | none => exact ⟨[], rfl, List.nil_prefix⟩
  | some symbol =>
      obtain ⟨hmem, hbegins, -⟩ := longest?_eq_some_iff.1 hlongest
      cases symbol with
      | nil => exact absurd rfl (vocabulary.ne_nil_of_mem [] hmem)
      | cons head tail =>
          obtain ⟨rfl, htail⟩ := List.cons_prefix_cons.1 hbegins
          exact ⟨tail, rfl, htail⟩

theorem Vocabulary.exists_literalAt_eq (vocabulary : Vocabulary) (c : Char) (rest : List Char) :
    ∃ tail after, rest = tail ++ after ∧
      vocabulary.literalAt c (tail ++ after) = c :: tail := by
  obtain ⟨tail, hliteral, after, rfl⟩ := vocabulary.exists_eq_literalAt c rest
  exact ⟨tail, after, rfl, hliteral⟩

theorem pieces_plain {tail after : List Char} (h : IsPlain c)
    (hliteral : vocabulary.literalAt c (tail ++ after) = c :: tail) :
    pieces vocabulary (c :: (tail ++ after)) =
      .literal (c :: tail) :: pieces vocabulary after := by
  rw [pieces, if_neg (by simp [h.1]), h.2]
  simp only [hliteral, List.length_cons, Nat.add_sub_cancel, List.drop_left]

theorem Vocabulary.Plain.isPlain_of_mem_literalAt (hvocabulary : vocabulary.Plain)
    (h : IsPlain c) : ∀ d ∈ vocabulary.literalAt c rest, IsPlain d := by
  intro d hd
  unfold literalAt at hd
  cases hlongest : vocabulary.longest? (c :: rest) with
  | none =>
      rw [hlongest, Option.getD_none, List.mem_singleton] at hd
      exact hd ▸ h
  | some symbol =>
      rw [hlongest, Option.getD_some] at hd
      exact hvocabulary symbol (longest?_eq_some_iff.1 hlongest).1 d hd

/--
What holds of the empty text, and of a text if it holds of what comes after its first piece, holds
of every text.
-/
theorem pieces_induction (vocabulary : Vocabulary) {motive : List Char → Prop} (nil : motive [])
    (blank : ∀ c rest, Text.isBlank c = true → motive rest → motive (c :: rest))
    (sign : ∀ c rest sign, Sign.ofChar? c = some sign → motive rest → motive (c :: rest))
    (plain : ∀ c tail after, IsPlain c → vocabulary.literalAt c (tail ++ after) = c :: tail →
      motive after → motive (c :: (tail ++ after))) :
    ∀ text, motive text := by
  intro text
  induction hlength : text.length using Nat.strong_induction_on generalizing text with
  | _ length ih =>
      cases text with
      | nil => exact nil
      | cons c rest =>
          rw [List.length_cons] at hlength
          cases hblank : Text.isBlank c with
          | true => exact blank c rest hblank (ih rest.length (by omega) rest rfl)
          | false =>
              cases hsign : Sign.ofChar? c with
              | some found => exact sign c rest found hsign (ih rest.length (by omega) rest rfl)
              | none =>
                  obtain ⟨tail, after, rfl, hliteral⟩ := vocabulary.exists_literalAt_eq c rest
                  rw [List.length_append] at hlength
                  exact plain c tail after ⟨hblank, hsign⟩ hliteral
                    (ih after.length (by omega) after rfl)

theorem eq_nil_of_pieces {text : List Char} (h : pieces vocabulary text = []) : text = [] := by
  induction text using pieces_induction vocabulary with
  | nil => rfl
  | blank c rest hblank _ =>
      rw [pieces_blank hblank] at h
      cases h
  | sign c rest sign hsign _ =>
      rw [pieces_sign hsign] at h
      cases h
  | plain c tail after hplain hliteral _ =>
      rw [pieces_plain hplain hliteral] at h
      cases h

/-! ## Cutting and joining texts -/

/-- A literal stays what it is if the text is cut off somewhere after it. -/
theorem Vocabulary.literalAt_of_append {tail before after : List Char}
    (h : vocabulary.literalAt c (tail ++ (before ++ after)) = c :: tail) :
    vocabulary.literalAt c (tail ++ before) = c :: tail := by
  have hshorter : c :: (tail ++ before) <+: c :: (tail ++ (before ++ after)) :=
    ⟨after, by simp⟩
  unfold literalAt at *
  cases hlongest : vocabulary.longest? (c :: (tail ++ (before ++ after))) with
  | none =>
      rw [hlongest] at h
      have hnone : vocabulary.longest? (c :: (tail ++ before)) = none :=
        longest?_eq_none_iff.2 fun symbol hsymbol hbegins =>
          longest?_eq_none_iff.1 hlongest symbol hsymbol (hbegins.trans hshorter)
      rw [hnone]
      exact h
  | some symbol =>
      rw [hlongest, Option.getD_some] at h
      obtain ⟨hmem, -, hle⟩ := longest?_eq_some_iff.1 hlongest
      subst h
      have hsome : vocabulary.longest? (c :: (tail ++ before)) = some (c :: tail) :=
        longest?_eq_some_iff.2 ⟨hmem, ⟨before, by simp⟩, fun other hother hbegins =>
          hle other hother (hbegins.trans hshorter)⟩
      rw [hsome, Option.getD_some]

theorem exists_append_of_pieces {text : List Char} :
    ∀ {first second : List Piece}, pieces vocabulary text = first ++ second →
      ∃ before after, text = before ++ after ∧ pieces vocabulary before = first ∧
        pieces vocabulary after = second := by
  have hempty : ∀ {text : List Char} {second : List Piece},
      pieces vocabulary text = [] ++ second →
        ∃ before after, text = before ++ after ∧ pieces vocabulary before = [] ∧
          pieces vocabulary after = second := by
    intro text second h
    exact ⟨[], text, rfl, pieces_nil, h⟩
  induction text using pieces_induction vocabulary with
  | nil =>
      intro first second h
      rw [pieces_nil] at h
      obtain ⟨rfl, rfl⟩ := List.append_eq_nil_iff.1 h.symm
      exact ⟨[], [], rfl, pieces_nil, pieces_nil⟩
  | blank c rest hblank ih =>
      intro first second h
      cases first with
      | nil => exact hempty h
      | cons piece first =>
          rw [pieces_blank hblank, List.cons_append, List.cons.injEq] at h
          obtain ⟨rfl, hrest⟩ := h
          obtain ⟨before, after, rfl, rfl, rfl⟩ := ih hrest
          exact ⟨c :: before, after, rfl, pieces_blank hblank, rfl⟩
  | sign c rest sign hsign ih =>
      intro first second h
      cases first with
      | nil => exact hempty h
      | cons piece first =>
          rw [pieces_sign hsign, List.cons_append, List.cons.injEq] at h
          obtain ⟨rfl, hrest⟩ := h
          obtain ⟨before, after, rfl, rfl, rfl⟩ := ih hrest
          exact ⟨c :: before, after, rfl, pieces_sign hsign, rfl⟩
  | plain c tail after hplain hliteral ih =>
      intro first second h
      cases first with
      | nil => exact hempty h
      | cons piece first =>
          rw [pieces_plain hplain hliteral, List.cons_append, List.cons.injEq] at h
          obtain ⟨rfl, hrest⟩ := h
          obtain ⟨before, after, rfl, rfl, rfl⟩ := ih hrest
          refine ⟨c :: (tail ++ before), after, by simp, ?_, rfl⟩
          exact pieces_plain hplain (Vocabulary.literalAt_of_append hliteral)

/-- Text that is plain throughout does not reach into what begins with a blank or a sign. -/
theorem prefix_append_iff_of_isPlain {symbol text after : List Char}
    (hsymbol : ∀ c ∈ symbol, IsPlain c)
    (hafter : ∀ c, after.head? = some c → ¬ IsPlain c) :
    symbol <+: text ++ after ↔ symbol <+: text := by
  constructor
  · intro hbegins
    rcases List.prefix_or_prefix_of_prefix hbegins (List.prefix_append text after) with
      hle | ⟨tail, rfl⟩
    · exact hle
    · rw [List.prefix_append_right_inj] at hbegins
      cases tail with
      | nil => simp
      | cons c tail =>
          obtain ⟨more, rfl⟩ := hbegins
          exact absurd (hsymbol c (by simp)) (hafter c rfl)
  · exact fun hbegins => hbegins.trans (List.prefix_append text after)

/-- In front of a blank or a sign a text has the pieces that it has alone. -/
theorem pieces_append (hvocabulary : vocabulary.Plain) {after : List Char}
    (hafter : ∀ c, after.head? = some c → ¬ IsPlain c) (text : List Char) :
    pieces vocabulary (text ++ after) = pieces vocabulary text ++ pieces vocabulary after := by
  induction text using pieces_induction vocabulary with
  | nil => rw [pieces_nil, List.nil_append, List.nil_append]
  | blank c rest hblank ih =>
      rw [List.cons_append, pieces_blank hblank, pieces_blank hblank, ih, List.cons_append]
  | sign c rest sign hsign ih =>
      rw [List.cons_append, pieces_sign hsign, pieces_sign hsign, ih, List.cons_append]
  | plain c tail between hplain hliteral ih =>
      have hlonger : vocabulary.literalAt c (tail ++ (between ++ after)) = c :: tail := by
        rw [← hliteral, Vocabulary.literalAt, Vocabulary.literalAt,
          Vocabulary.longest?_congr fun symbol hsymbol => ?_]
        rw [← List.append_assoc, ← List.cons_append]
        exact prefix_append_iff_of_isPlain (hvocabulary symbol hsymbol) hafter
      rw [List.cons_append, List.append_assoc, pieces_plain hplain hlonger,
        pieces_plain hplain hliteral, ih, List.cons_append]

/-! ## Reading the first lexeme -/

theorem Lexeme.readFirst_blank {symbols : List (List Char)} (h : Text.isBlank c = true) :
    readFirst symbols (c :: rest) = readFirst symbols rest := by
  have hskip : Text.skipBlank (c :: rest) = Text.skipBlank rest := by
    rw [Text.skipBlank, List.dropWhile_cons_of_pos h, Text.skipBlank]
  rw [readFirst, hskip, readFirst]

theorem Lexeme.skipBlank_of_not_blank (h : Text.isBlank c = false) :
    Text.skipBlank (c :: rest) = c :: rest := by
  rw [Text.skipBlank, List.dropWhile_cons_of_neg (by simp [h])]

theorem Lexeme.readFirst_sign (hvocabulary : vocabulary.Plain) {sign : Sign}
    (h : Sign.ofChar? c = some sign) :
    readFirst vocabulary.symbols (c :: rest) = (ofChar c rest).map some := by
  have hnone : vocabulary.longest? (c :: rest) = none := by
    rw [Vocabulary.longest?_eq_none_iff]
    intro symbol hsymbol hbegins
    cases symbol with
    | nil => exact vocabulary.ne_nil_of_mem [] hsymbol rfl
    | cons head tail =>
        obtain ⟨rfl, -⟩ := List.cons_prefix_cons.1 hbegins
        have hplain := (hvocabulary _ hsymbol head List.mem_cons_self).2
        rw [h] at hplain
        cases hplain
  rw [readFirst, skipBlank_of_not_blank (Sign.isBlank_of_ofChar? h)]
  simp only [Vocabulary.leadingSymbol?_eq_longest?, hnone]
  cases ofChar c rest <;> rfl

theorem Lexeme.readFirst_plain {tail after : List Char} (h : IsPlain c)
    (hliteral : vocabulary.literalAt c (tail ++ after) = c :: tail) :
    readFirst vocabulary.symbols (c :: (tail ++ after)) =
      .ok (some (symbol (c :: tail), after)) := by
  rw [readFirst, skipBlank_of_not_blank h.1]
  simp only [Vocabulary.leadingSymbol?_eq_longest?]
  unfold Vocabulary.literalAt at hliteral
  cases hlongest : vocabulary.longest? (c :: (tail ++ after)) with
  | none =>
      rw [hlongest, Option.getD_none, List.cons.injEq] at hliteral
      obtain ⟨-, rfl⟩ := hliteral
      simp only [ofChar, h.2, List.nil_append]
  | some found =>
      rw [hlongest, Option.getD_some] at hliteral
      subst hliteral
      simp only [← List.cons_append, List.drop_left]

end Motif
