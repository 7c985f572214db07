import Mathlib.Data.List.TakeWhile
import Motif.Pattern.Render
import Motif.Proofs.Grammar.Balance

/-!
# Lexemes and their source

Every lexeme that is read stands in the text as its source, after some blanks. What is read there
depends on whether a declared symbol stands at the place: if none does, a character speaks for
itself, and a group takes a text whose brackets are balanced.
-/

namespace Motif

theorem Tree.bracket_append (bracket : Bracket) (text after : List Char) :
    Tree.bracket bracket text ++ after =
      bracket.openChar :: (text ++ bracket.closeChar :: after) := by
  rw [Tree.bracket, List.cons_append, List.append_assoc, List.singleton_append]

namespace Lexeme

/-- The text as which a lexeme stands in a pattern. -/
def source : Lexeme → List Char
  | symbol text => text
  | wildcard => ['.']
  | boundary => ['#']
  | negation => ['!']
  | quantifier kind => kind.suffix
  | group bracket body => Tree.bracket bracket body

/-- A lexeme that can be read where no declared symbol stands. -/
def Bare : Lexeme → Prop
  | symbol text => ∃ c, text = [c] ∧ Sign.ofChar? c = none
  | wildcard => True
  | boundary => True
  | negation => True
  | quantifier kind => kind ≠ .once
  | group _ body => Balanced body

/--
What is read where the source of the lexeme stands before some other text: the declared symbol that
begins there, or, if there is none, what the text says by itself.
-/
def Leads (symbols : List (List Char)) (lexeme : Lexeme) (after : List Char) : Prop :=
  match leadingSymbol? symbols (lexeme.source ++ after) with
  | some text => lexeme = symbol text
  | none => lexeme.Bare

variable {symbols : List (List Char)} {lexeme : Lexeme} {c : Char} {text rest after : List Char}

/-- What is read at a character that no declared symbol covers is bare, and its source is there. -/
theorem bare_of_ofChar (h : ofChar c rest = .ok (lexeme, after)) :
    lexeme.Bare ∧ c :: rest = lexeme.source ++ after := by
  cases hsign : Sign.ofChar? c with
  | none =>
      simp only [ofChar, hsign, Except.ok.injEq, Prod.mk.injEq] at h
      obtain ⟨rfl, rfl⟩ := h
      exact ⟨⟨c, rfl, hsign⟩, rfl⟩
  | some sign =>
      cases sign with
      | opening bracket =>
          simp only [ofChar, hsign] at h
          split at h
          · rename_i body rest' hscan
            cases h
            obtain ⟨rfl, hbody⟩ := scanBody_eq_ok_iff_balanced.1 hscan
            rw [Sign.ofChar?_eq_opening_iff.1 hsign, source, Tree.bracket_append]
            exact ⟨hbody, rfl⟩
          · cases h
      | closing bracket => simp [ofChar, hsign] at h
      | wildcard | boundary | negation =>
          simp only [ofChar, hsign, Except.ok.injEq, Prod.mk.injEq] at h
          obtain ⟨rfl, rfl⟩ := h
          unfold Sign.ofChar? at hsign
          split at hsign <;> cases hsign
          exact ⟨trivial, rfl⟩
      | quantifier kind =>
          simp only [ofChar, hsign, Except.ok.injEq, Prod.mk.injEq] at h
          obtain ⟨rfl, rfl⟩ := h
          unfold Sign.ofChar? at hsign
          split at hsign <;> cases hsign <;> exact ⟨by simp [Bare], rfl⟩

/-- Where no declared symbol stands, a bare lexeme is read from its source. -/
theorem ofChar_of_bare (hbare : lexeme.Bare) (h : c :: rest = lexeme.source ++ after) :
    ofChar c rest = .ok (lexeme, after) := by
  cases lexeme with
  | symbol text =>
      obtain ⟨d, rfl, hsign⟩ := hbare
      cases h
      simp only [ofChar, hsign]
      rfl
  | wildcard | boundary | negation =>
      cases h
      rfl
  | quantifier kind =>
      cases kind with
      | once => exact absurd rfl hbare
      | optional | zeroOrMore | oneOrMore =>
          cases h
          rfl
  | group bracket body =>
      rw [source, Tree.bracket_append, List.cons.injEq] at h
      obtain ⟨rfl, rfl⟩ := h
      have hscan : scanBody bracket [] (body ++ bracket.closeChar :: after) = .ok (body, after) :=
        scanBody_eq_ok_iff_balanced.2 ⟨rfl, hbare⟩
      have hsign : Sign.ofChar? bracket.openChar = some (.opening bracket) :=
        Sign.ofChar?_eq_opening_iff.2 rfl
      simp only [ofChar, hsign, hscan]

theorem prefix_of_leadingSymbol? {declared : List Char}
    (h : leadingSymbol? symbols text = some declared) : declared <+: text :=
  List.isPrefixOf_iff_prefix.1
    (List.find?_some (p := fun symbol : List Char => symbol.isPrefixOf text) h)

theorem eq_nil_of_skipBlank (h : Text.skipBlank text = []) : text.all Text.isBlank = true := by
  obtain ⟨gap, htext, hgap⟩ := Text.exists_blank_append_skipBlank text
  rw [h, List.append_nil] at htext
  exact htext ▸ hgap

theorem skipBlank_append {gap : List Char} (hgap : gap.all Text.isBlank = true)
    (hc : Text.isBlank c = false) : Text.skipBlank (gap ++ c :: rest) = c :: rest := by
  rw [Text.skipBlank, List.dropWhile_append_of_pos (List.all_eq_true.1 hgap)]
  exact skipBlank_of_not_blank hc

theorem readFirst_eq_none_iff :
    readFirst symbols text = .ok none ↔ text.all Text.isBlank = true := by
  constructor
  · intro h
    unfold readFirst at h
    split at h
    · rename_i hskip
      exact eq_nil_of_skipBlank hskip
    · split at h
      · cases h
      · split at h <;> cases h
  · intro h
    have hskip : Text.skipBlank text = [] :=
      List.dropWhile_eq_nil_iff.2 (List.all_eq_true.1 h)
    rw [readFirst, hskip]

/--
The first lexeme of a text stands there as its source, after some blanks, and all that comes after
it is left.
-/
theorem readFirst_eq_some_iff :
    readFirst symbols text = .ok (some (lexeme, after)) ↔
      ∃ gap c rest, gap.all Text.isBlank = true ∧ text = gap ++ c :: rest ∧
        c :: rest = lexeme.source ++ after ∧ Text.isBlank c = false ∧
          lexeme.Leads symbols after := by
  constructor
  · intro h
    obtain ⟨gap, htext, hgap⟩ := Text.exists_blank_append_skipBlank text
    unfold readFirst at h
    split at h
    · cases h
    · rename_i c rest hskip
      have hc := Text.isBlank_head_skipBlank hskip
      rw [hskip] at htext
      suffices c :: rest = lexeme.source ++ after ∧ lexeme.Leads symbols after from
        ⟨gap, c, rest, hgap, htext, this.1, hc, this.2⟩
      split at h
      · rename_i declared hdeclared
        cases h
        have hsource : c :: rest = declared ++ (c :: rest).drop declared.length :=
          (List.prefix_iff_eq_append.1 (prefix_of_leadingSymbol? hdeclared)).symm
        refine ⟨hsource, ?_⟩
        rw [Leads, source, ← hsource, hdeclared]
      · rename_i hnone
        split at h
        · rename_i found hfound
          cases h
          obtain ⟨hbare, hsource⟩ := bare_of_ofChar hfound
          refine ⟨hsource, ?_⟩
          rw [Leads, ← hsource, hnone]
          exact hbare
        · cases h
  · intro h
    rcases h with ⟨gap, c, rest, hgap, rfl, hsource, hc, hleads⟩
    rw [readFirst, skipBlank_append hgap hc]
    rw [Leads, ← hsource] at hleads
    cases hdeclared : leadingSymbol? symbols (c :: rest) with
    | some declared =>
        rw [hdeclared] at hleads
        dsimp only at hleads
        subst hleads
        rw [source] at hsource
        simp only [hdeclared]
        rw [hsource, List.drop_left]
    | none =>
        rw [hdeclared] at hleads
        simp only [hdeclared, ofChar_of_bare hleads hsource]

theorem Leads.declared_or_bare (h : lexeme.Leads symbols after) :
    (∃ text ∈ symbols, lexeme = symbol text) ∨ lexeme.Bare := by
  unfold Leads at h
  split at h
  · rename_i declared hdeclared
    exact Or.inl ⟨declared, List.mem_of_find?_eq_some hdeclared, h⟩
  · exact Or.inr h

theorem Bare.source_ne_nil (h : lexeme.Bare) : lexeme.source ≠ [] := by
  cases lexeme with
  | symbol text =>
      obtain ⟨c, rfl, -⟩ := h
      exact List.cons_ne_nil c []
  | wildcard | boundary | negation => exact List.cons_ne_nil _ []
  | quantifier kind =>
      cases kind with
      | once => exact absurd rfl h
      | optional | zeroOrMore | oneOrMore => exact List.cons_ne_nil _ []
  | group bracket body => exact List.cons_ne_nil _ _

theorem Leads.source_ne_nil (hsymbols : ∀ text ∈ symbols, text ≠ [])
    (h : lexeme.Leads symbols after) : lexeme.source ≠ [] := by
  rcases h.declared_or_bare with ⟨text, hmem, rfl⟩ | hbare
  · exact hsymbols text hmem
  · exact hbare.source_ne_nil

/-- The lexemes of a text, one after another up to its end. -/
inductive Reads (symbols : List (List Char)) : List Char → List Lexeme → Prop
  | done {text : List Char} : readFirst symbols text = .ok none → Reads symbols text []
  | next {text rest : List Char} {lexeme : Lexeme} {lexemes : List Lexeme} :
      readFirst symbols text = .ok (some (lexeme, rest)) → Reads symbols rest lexemes →
        Reads symbols text (lexeme :: lexemes)

/-! ## Lexemes that can be read -/

/-- A declared symbol or a bare lexeme, of which the first character is no blank. -/
def Readable (vocabulary : Vocabulary) (lexeme : Lexeme) : Prop :=
  ((∃ text ∈ vocabulary.symbols, lexeme = symbol text) ∨ lexeme.Bare) ∧
    ∃ c rest, lexeme.source = c :: rest ∧ Text.isBlank c = false

section Readable

variable {vocabulary : Vocabulary}

theorem readable_of_readFirst
    (h : readFirst vocabulary.symbols text = .ok (some (lexeme, after))) :
    lexeme.Readable vocabulary := by
  obtain ⟨-, c, rest, -, -, hsource, hc, hleads⟩ := readFirst_eq_some_iff.1 h
  obtain ⟨d, tail, heq⟩ :=
    List.exists_cons_of_ne_nil (hleads.source_ne_nil vocabulary.ne_nil_of_mem)
  rw [heq, List.cons_append, List.cons.injEq] at hsource
  exact ⟨hleads.declared_or_bare, d, tail, heq, hsource.1 ▸ hc⟩

theorem Readable.ne_once (h : lexeme.Readable vocabulary) : lexeme ≠ quantifier .once := by
  rintro rfl
  obtain ⟨-, c, rest, heq, -⟩ := h
  cases heq

theorem Readable.balanced {bracket : Bracket} {body : List Char}
    (h : (group bracket body).Readable vocabulary) : Balanced body := by
  rcases h.1 with ⟨text, -, heq⟩ | hbare
  · cases heq
  · exact hbare

theorem readable_group {bracket : Bracket} {body : List Char} (h : Balanced body) :
    (group bracket body).Readable vocabulary :=
  ⟨Or.inr h, bracket.openChar, _, rfl, by cases bracket <;> decide⟩

theorem Reads.readable {lexemes : List Lexeme} (h : Reads vocabulary.symbols text lexemes) :
    ∀ lexeme ∈ lexemes, lexeme.Readable vocabulary := by
  induction h with
  | done _ => simp
  | next hfirst _ ih => exact List.forall_mem_cons.2 ⟨readable_of_readFirst hfirst, ih⟩

theorem Reads.unread_lt {lexemes : List Lexeme} (h : Reads vocabulary.symbols text lexemes) :
    ∀ lexeme ∈ lexemes, lexeme.unread < text.length := by
  induction h with
  | done _ => simp
  | next hfirst _ ih =>
      obtain ⟨hshorter, hunread⟩ := length_lt_of_readFirst vocabulary.ne_nil_of_mem hfirst
      exact List.forall_mem_cons.2
        ⟨hunread, fun lexeme hmem => Nat.lt_trans (ih lexeme hmem) hshorter⟩

end Readable

end Lexeme

namespace Tree

variable {vocabulary : Vocabulary}

/-- The items that are put together from the lexemes of a level, from left to right. -/
def itemsOf (vocabulary : Vocabulary) (lexemes : List Lexeme) :
    Except PatternFault (List Tree) := do
  let last ← lexemes.foldlM (absorb vocabulary) .start
  last.close

theorem parseLevel_eq_ok_iff_foldlM {text : List Char} {items : List Tree} :
    ∀ {level : Level}, parseLevel vocabulary level text = .ok items ↔
      ∃ lexemes last, Lexeme.Reads vocabulary.symbols text lexemes ∧
        lexemes.foldlM (absorb vocabulary) level = .ok last ∧ last.close = .ok items := by
  intro level
  constructor
  · intro h
    induction hlength : text.length using Nat.strong_induction_on generalizing text level with
    | _ length ih =>
        cases hfirst : Lexeme.readFirst vocabulary.symbols text with
        | error fault =>
            rw [parseLevel_of_error hfirst] at h
            cases h
        | ok found =>
            cases found with
            | none =>
                rw [parseLevel_of_none hfirst] at h
                exact ⟨[], level, .done hfirst, rfl, h⟩
            | some found =>
                obtain ⟨lexeme, rest⟩ := found
                have hshorter := Lexeme.length_lt_of_readFirst vocabulary.ne_nil_of_mem hfirst
                rw [parseLevel_of_some hfirst] at h
                obtain ⟨next, hnext, hrest⟩ := bind_eq_ok_iff.1 h
                obtain ⟨lexemes, last, hreads, hfold, hclose⟩ :=
                  ih rest.length (by omega) hrest rfl
                refine ⟨lexeme :: lexemes, last, .next hfirst hreads, ?_, hclose⟩
                rw [List.foldlM_cons, hnext]
                exact hfold
  · intro h
    rcases h with ⟨lexemes, last, hreads, hfold, hclose⟩
    induction hreads generalizing level with
    | done hfirst =>
        cases hfold
        rw [parseLevel_of_none hfirst, hclose]
    | @next text rest lexeme lexemes hfirst _ ih =>
        rw [List.foldlM_cons] at hfold
        obtain ⟨next, hnext, hrest⟩ := bind_eq_ok_iff.1 hfold
        rw [parseLevel_of_some hfirst, hnext]
        exact ih hrest

/-- A text is read in two steps: its lexemes, and the items for them. -/
theorem parseLevel_eq_ok_iff_itemsOf {text : List Char} {items : List Tree} :
    parseLevel vocabulary .start text = .ok items ↔
      ∃ lexemes, Lexeme.Reads vocabulary.symbols text lexemes ∧
        itemsOf vocabulary lexemes = .ok items := by
  simp only [parseLevel_eq_ok_iff_foldlM, itemsOf, bind_eq_ok_iff, exists_and_left]

end Tree

end Motif
