/-!
# Blanks, words and lines

Which characters are blank, and the ways in which a text is cut: into its words, without its outer
blanks, at a separator and into its lines. A line ends at a line feed. A carriage return right
before it belongs to the line's end; any other one belongs to the line. Text after the last line
feed is a line of its own unless it is empty.
-/

namespace Motif

namespace Text

/-- The code points with the Unicode property `White_Space`, as closed ranges. -/
def blankRanges : List (Nat × Nat) :=
  [(0x9, 0xD), (0x20, 0x20), (0x85, 0x85), (0xA0, 0xA0), (0x1680, 0x1680),
    (0x2000, 0x200A), (0x2028, 0x2029), (0x202F, 0x202F), (0x205F, 0x205F),
    (0x3000, 0x3000)]

def isBlank (c : Char) : Bool :=
  blankRanges.any fun range => range.1 ≤ c.toNat && c.toNat ≤ range.2

def skipBlank (text : List Char) : List Char :=
  text.dropWhile isBlank

def trim (text : List Char) : List Char :=
  (skipBlank (skipBlank text).reverse).reverse

/-- A finished word, or nothing when no character has been collected. -/
def finishWord : List Char → List (List Char)
  | [] => []
  | c :: reversed => [(c :: reversed).reverse]

/-- The words of a text after the characters `reversed` of an unfinished word, latest first. -/
def wordsFrom (reversed : List Char) : List Char → List (List Char)
  | [] => finishWord reversed
  | c :: rest =>
      if isBlank c then
        finishWord reversed ++ wordsFrom [] rest
      else
        wordsFrom (c :: reversed) rest

/-- The maximal runs of characters that are not blank, in order. -/
def words (text : List Char) : List (List Char) :=
  wordsFrom [] text

def joinWith (separator : List Char) : List (List Char) → List Char
  | [] => []
  | [text] => text
  | text :: next :: rest => text ++ separator ++ joinWith separator (next :: rest)

/--
The maximal runs without `separator`, empty ones included: one more than there are separators.
-/
def splitOn (separator : Char) : List Char → List (List Char)
  | [] => [[]]
  | c :: rest =>
      match splitOn separator rest with
      | [] => [[c]]
      | field :: fields =>
          if c = separator then [] :: field :: fields else (c :: field) :: fields

/-- A line that a line feed ends, given backwards. -/
def finishLine : List Char → List Char
  | '\r' :: reversed => reversed.reverse
  | reversed => reversed.reverse

def linesFrom (reversed : List Char) : List Char → List (List Char)
  | [] => finishWord reversed
  | '\n' :: rest => finishLine reversed :: linesFrom [] rest
  | c :: rest => linesFrom (c :: reversed) rest

def lines (text : List Char) : List (List Char) :=
  linesFrom [] text

/-- The lines of a text given as bytes, unless the bytes are no text. -/
def linesOfBytes? (bytes : ByteArray) : Option (List (List Char)) :=
  (String.fromUTF8? bytes).map fun text => lines text.toList

theorem finishWord_of_ne_nil {reversed : List Char} (h : reversed ≠ []) :
    finishWord reversed = [reversed.reverse] := by
  cases reversed with
  | nil => exact absurd rfl h
  | cons c rest => rfl

theorem skipBlank_length_le (text : List Char) :
    (skipBlank text).length ≤ text.length :=
  (List.dropWhile_sublist isBlank).length_le

theorem exists_blank_append_skipBlank (text : List Char) :
    ∃ gap, text = gap ++ skipBlank text ∧ gap.all isBlank = true :=
  ⟨text.takeWhile isBlank, List.takeWhile_append_dropWhile.symm, List.all_takeWhile⟩

theorem isBlank_head_skipBlank {text rest : List Char} {c : Char}
    (h : skipBlank text = c :: rest) : isBlank c = false := by
  have hhead := List.head?_dropWhile_not isBlank text
  rw [show text.dropWhile isBlank = c :: rest from h] at hhead
  simpa using hhead

end Text

end Motif
