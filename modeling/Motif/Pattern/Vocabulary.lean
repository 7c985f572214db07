/-!
# Vocabulary

The texts that a pattern keeps whole: declared symbols and the keys of macros. They are kept each
once, widest first, and in the order of their declaration among those of one width, so that the
first one found at a place is the greediest.
-/

namespace Motif

namespace Vocabulary

/-- The width of a text: the number of bytes it takes in UTF-8. -/
def width : List Char → Nat
  | [] => 0
  | c :: rest => c.utf8Size + width rest

/-- Put a symbol after all that are at least as wide. -/
def place (symbol : List Char) : List (List Char) → List (List Char)
  | [] => [symbol]
  | head :: rest =>
      if width symbol ≤ width head then head :: place symbol rest else symbol :: head :: rest

theorem mem_place {symbol other : List Char} {symbols : List (List Char)} :
    other ∈ place symbol symbols ↔ other = symbol ∨ other ∈ symbols := by
  induction symbols with
  | nil => simp [place]
  | cons head rest ih =>
      rw [place]
      split
      · simp only [List.mem_cons, ih, or_left_comm]
      · simp

theorem nodup_place {symbol : List Char} {symbols : List (List Char)} (hnew : ¬ symbol ∈ symbols)
    (h : symbols.Nodup) : (place symbol symbols).Nodup := by
  induction symbols with
  | nil => simp [place]
  | cons head rest ih =>
      have hparts := List.nodup_cons.1 h
      rw [place]
      split
      · refine List.nodup_cons.2 ⟨?_, ih (fun hmem => hnew (List.mem_cons_of_mem _ hmem)) hparts.2⟩
        intro hmem
        cases mem_place.1 hmem with
        | inl heq => exact hnew (heq ▸ List.mem_cons_self)
        | inr hmem => exact hparts.1 hmem
      · exact List.nodup_cons.2 ⟨hnew, h⟩

theorem pairwise_place {symbol : List Char} {symbols : List (List Char)}
    (h : symbols.Pairwise fun left right => width right ≤ width left) :
    (place symbol symbols).Pairwise fun left right => width right ≤ width left := by
  induction symbols with
  | nil => simp [place]
  | cons head rest ih =>
      have hparts := List.pairwise_cons.1 h
      rw [place]
      split
      · rename_i hle
        refine List.pairwise_cons.2 ⟨?_, ih hparts.2⟩
        intro other hother
        cases mem_place.1 hother with
        | inl heq => exact heq ▸ hle
        | inr hmem => exact hparts.1 other hmem
      · rename_i hlt
        refine List.pairwise_cons.2 ⟨?_, h⟩
        intro other hother
        cases List.mem_cons.1 hother with
        | inl heq => subst heq; omega
        | inr hmem =>
            have hle := hparts.1 other hmem
            omega

end Vocabulary

/-- Declared symbols: none of them empty, each once, and the widest first. -/
structure Vocabulary where
  symbols : List (List Char)
  ne_nil_of_mem : ∀ symbol ∈ symbols, symbol ≠ []
  nodup : symbols.Nodup
  widestFirst : symbols.Pairwise fun left right => Vocabulary.width right ≤ Vocabulary.width left

namespace Vocabulary

def empty : Vocabulary where
  symbols := []
  ne_nil_of_mem := by simp
  nodup := List.nodup_nil
  widestFirst := List.Pairwise.nil

instance : EmptyCollection Vocabulary :=
  ⟨empty⟩

instance : Inhabited Vocabulary :=
  ⟨∅⟩

/-- Declare one more symbol. The empty text and a symbol declared before change nothing. -/
def declare (vocabulary : Vocabulary) (symbol : List Char) : Vocabulary :=
  if h : symbol = [] ∨ symbol ∈ vocabulary.symbols then
    vocabulary
  else
    { symbols := place symbol vocabulary.symbols
      ne_nil_of_mem := by
        intro other hother
        cases mem_place.1 hother with
        | inl heq => exact fun hnil => h (Or.inl (heq ▸ hnil))
        | inr hmem => exact vocabulary.ne_nil_of_mem other hmem
      nodup := nodup_place (fun hmem => h (Or.inr hmem)) vocabulary.nodup
      widestFirst := pairwise_place vocabulary.widestFirst }

def ofList (declared : List (List Char)) : Vocabulary :=
  declared.foldl declare ∅

@[simp] theorem symbols_empty : (∅ : Vocabulary).symbols = [] :=
  rfl

theorem mem_symbols_declare {vocabulary : Vocabulary} {symbol other : List Char} :
    other ∈ (vocabulary.declare symbol).symbols ↔
      other ∈ vocabulary.symbols ∨ other = symbol ∧ symbol ≠ [] := by
  unfold declare
  split
  · rename_i h
    constructor
    · exact Or.inl
    · rintro (hmem | ⟨rfl, hne⟩)
      · exact hmem
      · exact h.resolve_left hne
  · rename_i h
    rw [mem_place]
    constructor
    · rintro (rfl | hmem)
      · exact Or.inr ⟨rfl, fun hnil => h (Or.inl hnil)⟩
      · exact Or.inl hmem
    · rintro (hmem | ⟨rfl, -⟩)
      · exact Or.inr hmem
      · exact Or.inl rfl

theorem mem_symbols_foldl_declare {declared : List (List Char)} {symbol : List Char} :
    ∀ {vocabulary : Vocabulary},
      symbol ∈ (declared.foldl declare vocabulary).symbols ↔
        symbol ∈ vocabulary.symbols ∨ symbol ∈ declared ∧ symbol ≠ [] := by
  induction declared with
  | nil => simp
  | cons head rest ih =>
      intro vocabulary
      rw [List.foldl_cons, ih, mem_symbols_declare, List.mem_cons, or_assoc]
      refine or_congr Iff.rfl ?_
      constructor
      · rintro (⟨rfl, hne⟩ | ⟨hmem, hne⟩)
        · exact ⟨Or.inl rfl, hne⟩
        · exact ⟨Or.inr hmem, hne⟩
      · rintro ⟨rfl | hmem, hne⟩
        · exact Or.inl ⟨rfl, hne⟩
        · exact Or.inr ⟨hmem, hne⟩

/-- The symbols of a vocabulary are the texts declared for it, the empty one apart. -/
theorem mem_symbols_ofList {declared : List (List Char)} {symbol : List Char} :
    symbol ∈ (ofList declared).symbols ↔ symbol ∈ declared ∧ symbol ≠ [] := by
  rw [ofList, mem_symbols_foldl_declare]
  simp

end Vocabulary

end Motif
