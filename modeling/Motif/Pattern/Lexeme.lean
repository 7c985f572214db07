import Motif.Pattern.Sign
import Motif.Text

/-!
# Lexemes

The units of one nesting level of a pattern. A bracketed group is one lexeme that holds its text
unread; that text is a level of its own. Reading a lexeme either fails, or finds nothing but blanks,
or yields the lexeme and the rest of the text.
-/

namespace Motif

inductive Lexeme where
  /-- A declared symbol or a single character. -/
  | symbol (text : List Char)
  | wildcard
  | boundary
  | negation
  | quantifier (quantifier : Quantifier)
  /-- A bracketed group, without its brackets. -/
  | group (bracket : Bracket) (body : List Char)
deriving DecidableEq

namespace Lexeme

/--
How much text a lexeme leaves to be read: for a group its body and one bracket, for any other
nothing.
-/
def unread : Lexeme → Nat
  | group _ body => body.length + 1
  | _ => 0

/-- The result with one more character at the front of its first part. -/
def consBody (c : Char) :
    Except PatternFault (List Char × List Char) → Except PatternFault (List Char × List Char)
  | .ok (body, rest) => .ok (c :: body, rest)
  | .error fault => .error fault

/--
The text up to the bracket that closes the group `current`, and the text after that bracket. The
groups around `current` that were opened on the way are `outer`, innermost first. Every bracket has
to close the innermost open group, which is the one at fault if the text ends first.
-/
def scanBody (current : Bracket) (outer : List Bracket) :
    List Char → Except PatternFault (List Char × List Char)
  | [] => .error (.unclosedGroup current)
  | c :: rest =>
      match Sign.ofChar? c with
      | some (.opening inner) => consBody c (scanBody inner (current :: outer) rest)
      | some (.closing closed) =>
          if closed = current then
            match outer with
            | [] => .ok ([], rest)
            | next :: others => consBody c (scanBody next others rest)
          else
            .error (.unexpectedClose closed)
      | _ => consBody c (scanBody current outer rest)

def leadingSymbol? (symbols : List (List Char)) (text : List Char) : Option (List Char) :=
  symbols.find? fun symbol => symbol.isPrefixOf text

/--
The lexeme that begins with a character that no declared symbol covers, and the text after it.
-/
def ofChar (c : Char) (rest : List Char) : Except PatternFault (Lexeme × List Char) :=
  match Sign.ofChar? c with
  | some .wildcard => .ok (wildcard, rest)
  | some .boundary => .ok (boundary, rest)
  | some .negation => .ok (negation, rest)
  | some (.quantifier kind) => .ok (quantifier kind, rest)
  | some (.opening bracket) =>
      match scanBody bracket [] rest with
      | .ok (body, after) => .ok (group bracket body, after)
      | .error fault => .error fault
  | some (.closing bracket) => .error (.unexpectedClose bracket)
  | none => .ok (symbol [c], rest)

/--
The first lexeme of a text and what comes after it, or nothing if only blanks are left. A declared
symbol wins over the character that it begins with, reserved or not, and among the symbols the first
in the list wins.
-/
def readFirst (symbols : List (List Char)) (text : List Char) :
    Except PatternFault (Option (Lexeme × List Char)) :=
  match Text.skipBlank text with
  | [] => .ok none
  | c :: rest =>
      match leadingSymbol? symbols (c :: rest) with
      | some text => .ok (some (symbol text, (c :: rest).drop text.length))
      | none =>
          match ofChar c rest with
          | .ok found => .ok (some found)
          | .error fault => .error fault

/--
At most `limit` lexemes of a text, in order. A fault takes the place of a lexeme and is not passed
over: the list ends with it, or, if `retry` says so, goes on by reading again from the same place.
-/
def readUpTo (symbols : List (List Char)) (retry : Bool) :
    (limit : Nat) → List Char → List (Except PatternFault Lexeme)
  | 0, _ => []
  | limit + 1, text =>
      match readFirst symbols text with
      | .ok none => []
      | .ok (some (lexeme, rest)) => .ok lexeme :: readUpTo symbols retry limit rest
      | .error fault => .error fault :: if retry then readUpTo symbols retry limit text else []

theorem consBody_eq_ok_iff {c : Char}
    {result : Except PatternFault (List Char × List Char)} {body rest : List Char} :
    consBody c result = .ok (body, rest) ↔
      ∃ inner, result = .ok (inner, rest) ∧ body = c :: inner := by
  cases result with
  | error fault => simp [consBody]
  | ok found =>
      cases found
      simp only [consBody, Except.ok.injEq, Prod.mk.injEq]
      constructor
      · rintro ⟨rfl, rfl⟩
        exact ⟨_, ⟨rfl, rfl⟩, rfl⟩
      · rintro ⟨inner, ⟨rfl, rfl⟩, rfl⟩
        exact ⟨rfl, rfl⟩

/-- A scanned group, its closing bracket and the rest are the whole text. -/
theorem eq_append_of_scanBody {text : List Char} :
    ∀ {current : Bracket} {outer : List Bracket} {body rest : List Char},
      scanBody current outer text = .ok (body, rest) →
        ∃ closing : Bracket, text = body ++ closing.closeChar :: rest := by
  induction text with
  | nil =>
      intro current outer body rest h
      simp [scanBody] at h
  | cons c tail ih =>
      intro current outer body rest h
      have inside : ∀ {current : Bracket} {outer : List Bracket},
          consBody c (scanBody current outer tail) = .ok (body, rest) →
            ∃ closing : Bracket, c :: tail = body ++ closing.closeChar :: rest := by
        intro current outer h
        obtain ⟨inner, hinner, rfl⟩ := consBody_eq_ok_iff.1 h
        obtain ⟨closing, rfl⟩ := ih hinner
        exact ⟨closing, rfl⟩
      rw [scanBody.eq_def] at h
      dsimp only at h
      split at h
      · exact inside h
      · rename_i closed hclosed
        split at h
        · split at h
          · injection h with h
            injection h with hbody hrest
            subst hbody
            subst hrest
            exact ⟨closed, by rw [← Sign.ofChar?_eq_closing_iff.1 hclosed]; rfl⟩
          · exact inside h
        · cases h
      · exact inside h

/--
A lexeme takes at least its first character, and leaves less unread than what it was read from.
-/
theorem length_lt_of_ofChar {c : Char} {rest after : List Char} {lexeme : Lexeme}
    (h : ofChar c rest = .ok (lexeme, after)) :
    after.length < (c :: rest).length ∧ lexeme.unread < (c :: rest).length := by
  have simple : ∀ {plain : Lexeme},
      (.ok (plain, rest) : Except PatternFault (Lexeme × List Char)) = .ok (lexeme, after) →
        plain.unread = 0 →
          after.length < (c :: rest).length ∧ lexeme.unread < (c :: rest).length := by
    intro plain heq hplain
    cases heq
    exact ⟨by simp, by simp [hplain]⟩
  unfold ofChar at h
  split at h
  · exact simple h rfl
  · exact simple h rfl
  · exact simple h rfl
  · exact simple h rfl
  · split at h
    · rename_i body _ hscan
      cases h
      obtain ⟨closing, rfl⟩ := eq_append_of_scanBody hscan
      exact ⟨by simp; omega, by simp [unread]⟩
    · cases h
  · cases h
  · exact simple h rfl

/--
If no symbol is empty, a lexeme takes at least one character and leaves less unread than the text.
-/
theorem length_lt_of_readFirst {symbols : List (List Char)} {text after : List Char}
    {lexeme : Lexeme}
    (hsymbols : ∀ symbol ∈ symbols, symbol ≠ [])
    (h : readFirst symbols text = .ok (some (lexeme, after))) :
    after.length < text.length ∧ lexeme.unread < text.length := by
  have hskip := Text.skipBlank_length_le text
  unfold readFirst at h
  split at h
  · cases h
  · rename_i c rest htext
    rw [htext] at hskip
    split at h
    · rename_i found hfound
      cases h
      have hne := hsymbols found (List.mem_of_find?_eq_some hfound)
      have hpos : 0 < found.length := List.length_pos_iff.2 hne
      simp only [List.length_drop, List.length_cons, unread] at *
      omega
    · split at h
      · rename_i found hfound
        cases h
        obtain ⟨hafter, hunread⟩ := length_lt_of_ofChar hfound
        omega
      · cases h

end Lexeme

end Motif
