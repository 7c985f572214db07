import Motif.Text

/-!
# Tokens

What a pattern needs to know about the tokens of an input, and the two kinds of token there are:
single characters, and whitespace-separated symbols. An input is an array of tokens; a literal or an
expansion is a list of them.
-/

namespace Motif

/-- What patterns need to know about a kind of token. -/
class Token (α : Type) where
  /-- Whether the token is a boundary marker written inside an input. -/
  isBoundary : α → Bool
  /-- The tokens that a literal text stands for. -/
  ofLiteral : List Char → List α
  /-- The written form of a token sequence. -/
  render : List α → List Char

/-- Characters as tokens: each character of a literal is one token. -/
instance : Token Char where
  isBoundary c := c == '#'
  ofLiteral text := text
  render tokens := tokens

/-- One atomic symbol of an input, however many characters it is written with. -/
structure Segment where
  symbol : List Char
deriving DecidableEq

/-- Symbols as tokens: a literal is read word by word and written with single spaces. -/
instance : Token Segment where
  isBoundary segment := segment.symbol == ['#']
  ofLiteral text := (Text.words text).map Segment.mk
  render tokens := Text.joinWith [' '] (tokens.map Segment.symbol)

namespace Token

variable {α : Type} [DecidableEq α] [Token α]

/-- Whether the input has a boundary marker at `index`; there is none past the end. -/
def hasBoundaryAt (input : Array α) (index : Nat) : Bool :=
  input[index]?.any isBoundary

/--
Whether the tokens of `input` from `index` on begin with `wanted`; false for an index past the end.
-/
def occursAt (input : Array α) : (index : Nat) → (wanted : List α) → Bool
  | index, [] => index ≤ input.size
  | index, token :: rest => input[index]? = some token && occursAt input (index + 1) rest

/-- Whether there is a token at `index` that is no boundary marker. -/
def isOrdinaryAt (input : Array α) (index : Nat) : Bool :=
  index < input.size && !hasBoundaryAt input index

omit [Token α] in
theorem occursAt_iff {input : Array α} {index : Nat} {wanted : List α} :
    occursAt input index wanted = true ↔
      index ≤ input.size ∧ wanted <+: input.toList.drop index := by
  induction wanted generalizing index with
  | nil => simp [occursAt]
  | cons token rest ih =>
      by_cases hindex : index < input.size
      · have hdrop : input.toList.drop index =
            input[index] :: input.toList.drop (index + 1) := by
          rw [List.drop_eq_getElem_cons (by simpa using hindex)]
          simp
        rw [hdrop]
        simp only [occursAt, Bool.and_eq_true, decide_eq_true_eq, ih,
          Array.getElem?_eq_getElem hindex, Option.some.injEq, List.cons_prefix_cons]
        constructor
        · rintro ⟨rfl, _, h⟩
          exact ⟨by omega, rfl, h⟩
        · rintro ⟨_, rfl, h⟩
          exact ⟨rfl, hindex, h⟩
      · have hnone : input[index]? = none := by simp; omega
        have hdrop : input.toList.drop index = [] := by simp; omega
        simp [occursAt, hnone, hdrop]

omit [Token α] in
theorem add_length_le_of_occursAt {input : Array α} {index : Nat} {wanted : List α}
    (h : occursAt input index wanted = true) :
    index + wanted.length ≤ input.size := by
  obtain ⟨hindex, hprefix⟩ := occursAt_iff.1 h
  have hlength := hprefix.length_le
  simp at hlength
  omega

end Token

end Motif
