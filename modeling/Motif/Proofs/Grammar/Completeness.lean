import Motif.Proofs.Grammar.Rules
import Motif.Proofs.Items

/-!
# What the grammar derives is read

A level is read piece by piece, and a group as one step. From that, by induction on a derivation,
reading a text yields the trees that its pieces derive.
-/

namespace Motif

variable {vocabulary : Vocabulary}

namespace Tree

/-! ## Reading piece by piece -/

theorem parseLevel_nil {level : Level} : parseLevel vocabulary level [] = level.close :=
  parseLevel_of_none rfl

theorem parseLevel_blank {level : Level} {c : Char} {rest : List Char}
    (h : Text.isBlank c = true) :
    parseLevel vocabulary level (c :: rest) = parseLevel vocabulary level rest := by
  have hfirst : Lexeme.readFirst vocabulary.symbols (c :: rest) =
      Lexeme.readFirst vocabulary.symbols rest := Lexeme.readFirst_blank h
  cases hrest : Lexeme.readFirst vocabulary.symbols rest with
  | error fault => rw [parseLevel_of_error (hfirst.trans hrest), parseLevel_of_error hrest]
  | ok found =>
      cases found with
      | none => rw [parseLevel_of_none (hfirst.trans hrest), parseLevel_of_none hrest]
      | some found => rw [parseLevel_of_some (hfirst.trans hrest), parseLevel_of_some hrest]

theorem parseLevel_plain {level : Level} {c : Char} {tail after : List Char} (h : IsPlain c)
    (hliteral : vocabulary.literalAt c (tail ++ after) = c :: tail) :
    parseLevel vocabulary level (c :: (tail ++ after)) =
      level.add (.leaf (.literal (c :: tail)) .plain) >>= fun level =>
        parseLevel vocabulary level after := by
  rw [parseLevel_of_some (Lexeme.readFirst_plain h hliteral), absorb]

theorem parseLevel_sign (hvocabulary : vocabulary.Plain) {level : Level} {c : Char}
    {rest after : List Char} {sign : Sign} {lexeme : Lexeme} (hsign : Sign.ofChar? c = some sign)
    (h : Lexeme.ofChar c rest = .ok (lexeme, after)) :
    parseLevel vocabulary level (c :: rest) =
      absorb vocabulary level lexeme >>= fun level => parseLevel vocabulary level after := by
  apply parseLevel_of_some
  rw [Lexeme.readFirst_sign hvocabulary hsign, h]
  rfl

theorem parseLevel_group (hvocabulary : vocabulary.Plain) {level : Level} {bracket : Bracket}
    {body after : List Char} (h : Closes true [] (pieces vocabulary body)) :
    parseLevel vocabulary level (bracket.openChar :: (body ++ bracket.closeChar :: after)) =
      (parseGroup vocabulary bracket body >>= level.add) >>= fun level =>
        parseLevel vocabulary level after := by
  have hsign := Sign.ofChar?_eq_opening_iff.2 (rfl : bracket.openChar = bracket.openChar)
  have hscan : Lexeme.scanBody bracket [] (body ++ bracket.closeChar :: after) =
      .ok (body, after) :=
    Lexeme.scanBody_nil_eq_ok_iff.2 ⟨rfl, (closes_pieces_iff hvocabulary body).1 h⟩
  have hlexeme : Lexeme.ofChar bracket.openChar (body ++ bracket.closeChar :: after) =
      .ok (.group bracket body, after) := by
    rw [Lexeme.ofChar, hsign]
    simp only [hscan]
  rw [parseLevel_sign hvocabulary hsign hlexeme, absorb]

end Tree

/-! ## The text of some pieces -/

theorem pieces_eq_cons {text : List Char} {piece : Piece} {rest : List Piece}
    (h : pieces vocabulary text = piece :: rest) :
    (∃ c after, text = c :: after ∧ Text.isBlank c = true ∧ piece = .blank ∧
        pieces vocabulary after = rest) ∨
      (∃ c after sign, text = c :: after ∧ Sign.ofChar? c = some sign ∧ piece = .sign sign ∧
        pieces vocabulary after = rest) ∨
      ∃ c tail after, text = c :: (tail ++ after) ∧ IsPlain c ∧
        vocabulary.literalAt c (tail ++ after) = c :: tail ∧ piece = .literal (c :: tail) ∧
          pieces vocabulary after = rest := by
  induction text using pieces_induction vocabulary with
  | nil =>
      rw [pieces_nil] at h
      cases h
  | blank c after hblank _ =>
      rw [pieces_blank hblank, List.cons.injEq] at h
      exact Or.inl ⟨c, after, rfl, hblank, h.1.symm, h.2⟩
  | sign c after sign hsign _ =>
      rw [pieces_sign hsign, List.cons.injEq] at h
      exact Or.inr (Or.inl ⟨c, after, sign, rfl, hsign, h.1.symm, h.2⟩)
  | plain c tail after hplain hliteral _ =>
      rw [pieces_plain hplain hliteral, List.cons.injEq] at h
      exact Or.inr (Or.inr ⟨c, tail, after, rfl, hplain, hliteral, h.1.symm, h.2⟩)

theorem exists_of_pieces_blank {text : List Char} {rest : List Piece}
    (h : pieces vocabulary text = .blank :: rest) :
    ∃ c after, text = c :: after ∧ Text.isBlank c = true ∧
      pieces vocabulary after = rest := by
  rcases pieces_eq_cons h with ⟨c, after, htext, hblank, -, hafter⟩ | ⟨_, _, _, _, _, heq, _⟩ |
    ⟨_, _, _, _, _, _, heq, _⟩
  · exact ⟨c, after, htext, hblank, hafter⟩
  · cases heq
  · cases heq

theorem exists_of_pieces_sign {text : List Char} {sign : Sign} {rest : List Piece}
    (h : pieces vocabulary text = .sign sign :: rest) :
    ∃ c after, text = c :: after ∧ Sign.ofChar? c = some sign ∧
      pieces vocabulary after = rest := by
  rcases pieces_eq_cons h with ⟨_, _, _, _, heq, _⟩ | ⟨c, after, found, htext, hsign, heq, hafter⟩ |
    ⟨_, _, _, _, _, _, heq, _⟩
  · cases heq
  · cases heq
    exact ⟨c, after, htext, hsign, hafter⟩
  · cases heq

theorem exists_of_pieces_literal {text word : List Char} {rest : List Piece}
    (h : pieces vocabulary text = .literal word :: rest) :
    ∃ c tail after, text = c :: (tail ++ after) ∧ IsPlain c ∧ word = c :: tail ∧
      vocabulary.literalAt c (tail ++ after) = c :: tail ∧ pieces vocabulary after = rest := by
  rcases pieces_eq_cons h with ⟨_, _, _, _, heq, _⟩ | ⟨_, _, _, _, _, heq, _⟩ |
    ⟨c, tail, after, htext, hplain, hliteral, heq, hafter⟩
  · cases heq
  · cases heq
  · cases heq
    exact ⟨c, tail, after, htext, hplain, rfl, hliteral, hafter⟩

theorem blank_of_head?_pieces {text : List Char}
    (h : ∀ c, text.head? = some c → Text.isBlank c = true) :
    ∀ piece, (pieces vocabulary text).head? = some piece → piece = .blank := by
  intro piece hpiece
  cases text with
  | nil =>
      rw [pieces_nil] at hpiece
      cases hpiece
  | cons c rest =>
      rw [pieces_blank (h c rfl)] at hpiece
      cases hpiece
      rfl

theorem isBlank_of_head?_pieces {text : List Char}
    (h : ∀ piece, (pieces vocabulary text).head? = some piece → piece = .blank) :
    ∀ c, text.head? = some c → Text.isBlank c = true := by
  intro c hc
  induction text using pieces_induction vocabulary with
  | nil => cases hc
  | blank d after hblank _ =>
      cases hc
      exact hblank
  | sign d after sign hsign _ =>
      rw [pieces_sign hsign] at h
      cases h _ rfl
  | plain d tail after hplain hliteral _ =>
      rw [pieces_plain hplain hliteral] at h
      cases h _ rfl

namespace Tree

theorem exists_after_gap {spaced : Bool} {gap rest : List Piece} (hgap : Gap spaced gap) :
    ∀ {text : List Char}, pieces vocabulary text = gap ++ rest →
      ∃ after, pieces vocabulary after = rest ∧
        ∀ level, parseLevel vocabulary level text = parseLevel vocabulary level after := by
  induction gap with
  | nil =>
      intro text h
      exact ⟨text, h, fun _ => rfl⟩
  | cons piece gap ih =>
      intro text h
      obtain ⟨-, rfl⟩ := hgap piece List.mem_cons_self
      obtain ⟨c, between, rfl, hblank, hbetween⟩ := exists_of_pieces_blank h
      obtain ⟨after, hafter, hlevel⟩ :=
        ih (fun other hmem => hgap other (List.mem_cons_of_mem _ hmem)) hbetween
      exact ⟨after, hafter, fun level => (parseLevel_blank hblank).trans (hlevel level)⟩

end Tree

/-! ## Phrases that are read -/

/--
Reading a phrase yields its trees: a single item is added to the level on which it stands, and a
text with no other pieces than those of the phrase is read to its end.
-/
def Accepted (vocabulary : Vocabulary) : Form → List Piece → List Tree → Prop
  | .primary => fun own trees =>
      ∃ item, trees = [item] ∧ item.mark = .plain ∧
        ∀ text rest, pieces vocabulary text = own ++ rest →
          ∃ after, pieces vocabulary after = rest ∧ ∀ level,
            Tree.parseLevel vocabulary level text =
              level.add item >>= fun level => Tree.parseLevel vocabulary level after
  | .signed _ => fun own trees =>
      ∃ item, trees = [item] ∧ item.mark.quantifier = .once ∧
        ∀ text rest, pieces vocabulary text = own ++ rest →
          ∃ after, pieces vocabulary after = rest ∧ ∀ finished,
            Tree.parseLevel vocabulary ⟨finished, false⟩ text =
              Tree.parseLevel vocabulary ⟨item :: finished, false⟩ after
  | .item _ => fun own trees =>
      ∃ item, trees = [item] ∧
        ∀ text rest, pieces vocabulary text = own ++ rest →
          ∃ after, pieces vocabulary after = rest ∧ ∀ finished,
            Tree.parseLevel vocabulary ⟨finished, false⟩ text =
              Tree.parseLevel vocabulary ⟨item :: finished, false⟩ after
  | .items _ => fun own trees =>
      ∀ text, pieces vocabulary text = own → ∀ finished,
        Tree.parseLevel vocabulary ⟨finished, false⟩ text = .ok (finished.reverse ++ trees)
  | .branches => fun own trees =>
      ∀ text, pieces vocabulary text = own →
        Tree.parseBranches vocabulary (branches text) = .ok trees

theorem accepted_literal (text : List Char) :
    Accepted vocabulary .primary [.literal text] [.leaf (.literal text) .plain] := by
  refine ⟨_, rfl, rfl, fun source rest h => ?_⟩
  obtain ⟨c, tail, after, rfl, hplain, rfl, hliteral, hafter⟩ := exists_of_pieces_literal h
  exact ⟨after, hafter, fun level => Tree.parseLevel_plain hplain hliteral⟩

theorem accepted_wildcard (hvocabulary : vocabulary.Plain) :
    Accepted vocabulary .primary [.sign .wildcard] [.leaf .wildcard .plain] := by
  refine ⟨_, rfl, rfl, fun source rest h => ?_⟩
  obtain ⟨c, after, rfl, hsign, hafter⟩ := exists_of_pieces_sign h
  refine ⟨after, hafter, fun level => ?_⟩
  rw [Tree.parseLevel_sign hvocabulary hsign (by rw [Lexeme.ofChar, hsign]), Tree.absorb]

theorem accepted_boundary (hvocabulary : vocabulary.Plain) :
    Accepted vocabulary .primary [.sign .boundary] [.leaf .boundary .plain] := by
  refine ⟨_, rfl, rfl, fun source rest h => ?_⟩
  obtain ⟨c, after, rfl, hsign, hafter⟩ := exists_of_pieces_sign h
  refine ⟨after, hafter, fun level => ?_⟩
  rw [Tree.parseLevel_sign hvocabulary hsign (by rw [Lexeme.ofChar, hsign]), Tree.absorb]

theorem accepted_enclosed (hvocabulary : vocabulary.Plain) {bracket : Bracket}
    {inner : List Piece} {item : Tree} (hmark : item.mark = .plain) (hcloses : Closes true [] inner)
    (h : ∀ body, pieces vocabulary body = inner →
      Tree.parseGroup vocabulary bracket body = .ok item) :
    Accepted vocabulary .primary (enclosed bracket inner) [item] := by
  refine ⟨item, rfl, hmark, fun text rest htext => ?_⟩
  rw [enclosed, List.cons_append, List.append_assoc] at htext
  obtain ⟨c, tail, rfl, hopening, htail⟩ := exists_of_pieces_sign htext
  obtain ⟨body, closed, rfl, hbody, hclosed⟩ := exists_append_of_pieces htail
  obtain ⟨d, after, rfl, hclosing, hafter⟩ := exists_of_pieces_sign hclosed
  rw [Sign.ofChar?_eq_opening_iff.1 hopening, Sign.ofChar?_eq_closing_iff.1 hclosing]
  refine ⟨after, hafter, fun level => ?_⟩
  rw [Tree.parseLevel_group hvocabulary (hbody ▸ hcloses), h body hbody]
  rfl

theorem accepted_round (hvocabulary : vocabulary.Plain) {inner : List Piece}
    {children : List Tree} (hcloses : Closes true [] inner) (hne : children ≠ [])
    (h : Accepted vocabulary (.items true) inner children) :
    Accepted vocabulary .primary (enclosed .round inner) [.sequence children .plain] := by
  apply accepted_enclosed hvocabulary rfl hcloses
  intro body hbody
  have hchildren : Tree.parseLevel vocabulary .start body = .ok children := h body hbody []
  rw [Tree.parseGroup, hchildren]
  cases children with
  | nil => exact absurd rfl hne
  | cons child rest => rfl

theorem accepted_curly (hvocabulary : vocabulary.Plain) {inner : List Piece}
    {children : List Tree} (hcloses : Closes true [] inner) (hne : children ≠ [])
    (h : Accepted vocabulary .branches inner children) :
    Accepted vocabulary .primary (enclosed .curly inner) [.alternation children .plain] := by
  apply accepted_enclosed hvocabulary rfl hcloses
  intro body hbody
  have hchildren := h body hbody
  have hbranches : (branches body).isEmpty = false := by
    cases hparts : branches body with
    | nil =>
        rw [hparts, Tree.parseBranches] at hchildren
        exact absurd (Except.ok.inj hchildren).symm hne
    | cons part parts => rfl
  simp only [Tree.parseGroup, hbranches, hchildren, Bool.false_eq_true, if_false]
  rfl

theorem accepted_unsigned {spaced : Bool} {own : List Piece} {item : Tree}
    (h : Accepted vocabulary .primary own [item]) :
    Accepted vocabulary (.signed spaced) own [item] := by
  obtain ⟨item, heq, hmark, hread⟩ := h
  refine ⟨item, heq, by rw [hmark]; rfl, fun text rest htext => ?_⟩
  obtain ⟨after, hafter, hlevel⟩ := hread text rest htext
  exact ⟨after, hafter, fun finished => (hlevel ⟨finished, false⟩).trans rfl⟩

theorem accepted_negated (hvocabulary : vocabulary.Plain) {spaced : Bool} {gap own : List Piece}
    {item : Tree} (hgap : Gap spaced gap) (hchoices : item.choices ≠ none)
    (h : Accepted vocabulary .primary own [item]) :
    Accepted vocabulary (.signed spaced) (.sign .negation :: (gap ++ own)) [item.negate] := by
  obtain ⟨item, heq, hmark, hread⟩ := h
  cases heq
  refine ⟨item.negate, rfl, by simp [Tree.negate, hmark, Mark.plain], fun text rest htext => ?_⟩
  rw [List.cons_append, List.append_assoc] at htext
  obtain ⟨c, first, rfl, hsign, hfirst⟩ := exists_of_pieces_sign htext
  obtain ⟨second, hsecond, hskip⟩ := Tree.exists_after_gap hgap hfirst
  obtain ⟨after, hafter, hlevel⟩ := hread second rest hsecond
  refine ⟨after, hafter, fun finished => ?_⟩
  calc
    Tree.parseLevel vocabulary ⟨finished, false⟩ (c :: first) =
        Tree.parseLevel vocabulary ⟨finished, true⟩ first := by
      rw [Tree.parseLevel_sign hvocabulary hsign (by rw [Lexeme.ofChar, hsign]), Tree.absorb]
      rfl
    _ = Level.add ⟨finished, true⟩ item >>= fun level =>
        Tree.parseLevel vocabulary level after := (hskip _).trans (hlevel _)
    _ = Tree.parseLevel vocabulary ⟨item.negate :: finished, false⟩ after := by
      rw [Level.add_eq_ok_iff.2 (Or.inr ⟨rfl, hchoices, rfl⟩)]
      rfl

theorem accepted_unrepeated {spaced : Bool} {own : List Piece} {item : Tree}
    (h : Accepted vocabulary (.signed spaced) own [item]) :
    Accepted vocabulary (.item spaced) own [item] := by
  obtain ⟨item, heq, -, hread⟩ := h
  exact ⟨item, heq, hread⟩

theorem accepted_repeated (hvocabulary : vocabulary.Plain) {spaced : Bool} {own gap : List Piece}
    {item : Tree} (quantifier : Quantifier) (hplain : item.hasBoundary = false)
    (hgap : Gap spaced gap) (h : Accepted vocabulary (.signed spaced) own [item]) :
    Accepted vocabulary (.item spaced) (own ++ (gap ++ [.sign (.quantifier quantifier)]))
      [item.quantify quantifier] := by
  obtain ⟨item, heq, hmark, hread⟩ := h
  cases heq
  refine ⟨item.quantify quantifier, rfl, fun text rest htext => ?_⟩
  rw [List.append_assoc, List.append_assoc] at htext
  obtain ⟨first, hfirst, hitem⟩ := hread text _ htext
  obtain ⟨second, hsecond, hskip⟩ := Tree.exists_after_gap hgap hfirst
  obtain ⟨c, after, rfl, hsign, hafter⟩ := exists_of_pieces_sign hsecond
  refine ⟨after, hafter, fun finished => ?_⟩
  rw [hitem, hskip, Tree.parseLevel_sign hvocabulary hsign (by rw [Lexeme.ofChar, hsign]),
    Tree.absorb, Level.readQuantifier_eq_ok_iff.2 ⟨item, finished, rfl, hmark, hplain, rfl⟩]
  rfl

theorem accepted_nextItem {spaced : Bool} {own rest : List Piece} {item : Tree}
    {items : List Tree} (hown : Accepted vocabulary (.item spaced) own [item])
    (hrest : Accepted vocabulary (.items spaced) rest items) :
    Accepted vocabulary (.items spaced) (own ++ rest) (item :: items) := by
  intro text htext finished
  obtain ⟨item, heq, hread⟩ := hown
  cases heq
  obtain ⟨after, hafter, hitem⟩ := hread text rest htext
  rw [hitem, hrest after hafter, List.reverse_cons, List.append_assoc, List.singleton_append]

theorem accepted_nextBranch (hvocabulary : vocabulary.Plain) {own rest : List Piece}
    {items others : List Tree} (hcloses : Closes false [] own) (hne : items ≠ [])
    (hblank : ∀ piece, rest.head? = some piece → piece = .blank)
    (hown : Accepted vocabulary (.items false) own items)
    (hrest : Accepted vocabulary .branches rest others) :
    Accepted vocabulary .branches (own ++ rest) (Tree.ofBranch items :: others) := by
  intro text htext
  obtain ⟨branch, after, rfl, rfl, rfl⟩ := exists_append_of_pieces htext
  have hitems : Tree.parseLevel vocabulary .start branch = .ok items := hown branch rfl []
  have hbranch : branch ≠ [] := by
    intro heq
    subst heq
    rw [Tree.parseLevel_nil] at hitems
    exact hne (Except.ok.inj hitems).symm
  rw [branches_append hbranch ((closes_pieces_iff hvocabulary branch).1 hcloses)
    (isBlank_of_head?_pieces hblank), Tree.parseBranches, hitems, hrest after rfl]
  rfl

/-- What the grammar derives from the pieces of a text is what reading the text yields. -/
theorem Derives.accepted (hvocabulary : vocabulary.Plain) {form : Form} {own : List Piece}
    {trees : List Tree} (h : Derives form own trees) : Accepted vocabulary form own trees := by
  induction h with
  | literal text => exact accepted_literal text
  | wildcard => exact accepted_wildcard hvocabulary
  | boundary => exact accepted_boundary hvocabulary
  | round h hne ih => exact accepted_round hvocabulary h.closes hne ih
  | curly h hne ih => exact accepted_curly hvocabulary h.closes hne ih
  | unsigned _ ih => exact accepted_unsigned ih
  | negated hgap _ hchoices ih => exact accepted_negated hvocabulary hgap hchoices ih
  | unrepeated _ ih => exact accepted_unrepeated ih
  | repeated quantifier _ hplain hgap ih =>
      exact accepted_repeated hvocabulary quantifier hplain hgap ih
  | noItem =>
      intro text htext finished
      rw [eq_nil_of_pieces htext, Tree.parseLevel_nil, List.append_nil]
      rfl
  | blankItem _ ih =>
      intro text htext finished
      obtain ⟨c, after, rfl, hblank, hafter⟩ := exists_of_pieces_blank htext
      rw [Tree.parseLevel_blank hblank, ih after hafter]
  | nextItem _ _ ihown ihrest => exact accepted_nextItem ihown ihrest
  | noBranch =>
      intro text htext
      rw [eq_nil_of_pieces htext, branches_nil, Tree.parseBranches]
  | blankBranch _ ih =>
      intro text htext
      obtain ⟨c, after, rfl, hblank, hafter⟩ := exists_of_pieces_blank htext
      rw [branches_blank hblank, ih after hafter]
  | nextBranch hown hne hblank _ ihown ihrest =>
      exact accepted_nextBranch hvocabulary hown.closes hne hblank ihown ihrest

end Motif
