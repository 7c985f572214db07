import Mathlib.Data.List.Chain
import Motif.Proofs.Boundaries
import Motif.Proofs.Grammar.Nesting

/-!
# The grammar of patterns

What the pieces of a text derive, one rule for each way to put items together. Blanks may stand
between any two pieces at the top and between round brackets; between curly brackets they tell the
branches apart.
-/

namespace Motif

/-- The kinds of phrases; in a `spaced` one blanks may stand outside all brackets. -/
inductive Form where
  /-- An item without its negation sign and its quantifier. -/
  | primary
  /-- An item without its quantifier. -/
  | signed (spaced : Bool)
  | item (spaced : Bool)
  | items (spaced : Bool)
  | branches

/-- Blanks, if they are allowed. -/
def Gap (spaced : Bool) (gap : List Piece) : Prop :=
  ∀ piece ∈ gap, spaced = true ∧ piece = .blank

def enclosed (bracket : Bracket) (inner : List Piece) : List Piece :=
  .sign (.opening bracket) :: (inner ++ [.sign (.closing bracket)])

/--
The trees that the pieces of a phrase derive: one for a phrase that is a single item, and one for
each item or branch of the others.
-/
inductive Derives : Form → List Piece → List Tree → Prop where
  | literal (text : List Char) :
      Derives .primary [.literal text] [.leaf (.literal text) .plain]
  | wildcard : Derives .primary [.sign .wildcard] [.leaf .wildcard .plain]
  | boundary : Derives .primary [.sign .boundary] [.leaf .boundary .plain]
  | round {inner : List Piece} {children : List Tree} :
      Derives (.items true) inner children → children ≠ [] →
        Derives .primary (enclosed .round inner) [.sequence children .plain]
  | curly {inner : List Piece} {children : List Tree} :
      Derives .branches inner children → children ≠ [] →
        Derives .primary (enclosed .curly inner) [.alternation children .plain]
  | unsigned {spaced : Bool} {own : List Piece} {item : Tree} :
      Derives .primary own [item] → Derives (.signed spaced) own [item]
  | negated {spaced : Bool} {gap own : List Piece} {item : Tree} :
      Gap spaced gap → Derives .primary own [item] → item.choices ≠ none →
        Derives (.signed spaced) (.sign .negation :: (gap ++ own)) [item.negate]
  | unrepeated {spaced : Bool} {own : List Piece} {item : Tree} :
      Derives (.signed spaced) own [item] → Derives (.item spaced) own [item]
  | repeated {spaced : Bool} {own gap : List Piece} {item : Tree} (quantifier : Quantifier) :
      Derives (.signed spaced) own [item] → item.hasBoundary = false → Gap spaced gap →
        Derives (.item spaced) (own ++ (gap ++ [.sign (.quantifier quantifier)]))
          [item.quantify quantifier]
  | noItem {spaced : Bool} : Derives (.items spaced) [] []
  | blankItem {rest : List Piece} {items : List Tree} :
      Derives (.items true) rest items → Derives (.items true) (.blank :: rest) items
  | nextItem {spaced : Bool} {own rest : List Piece} {item : Tree} {items : List Tree} :
      Derives (.item spaced) own [item] → Derives (.items spaced) rest items →
        Derives (.items spaced) (own ++ rest) (item :: items)
  | noBranch : Derives .branches [] []
  | blankBranch {rest : List Piece} {branches : List Tree} :
      Derives .branches rest branches → Derives .branches (.blank :: rest) branches
  | nextBranch {own rest : List Piece} {items branches : List Tree} :
      Derives (.items false) own items → items ≠ [] →
        (∀ piece, rest.head? = some piece → piece = .blank) →
          Derives .branches rest branches →
            Derives .branches (own ++ rest) (Tree.ofBranch items :: branches)

/-! ## Phrases and brackets -/

def Form.spaced : Form → Bool
  | primary => false
  | signed spaced => spaced
  | item spaced => spaced
  | items spaced => spaced
  | branches => true

theorem Gap.nil (spaced : Bool) : Gap spaced [] := by
  simp [Gap]

theorem Gap.closes {spaced : Bool} {gap : List Piece} (h : Gap spaced gap) :
    Closes spaced [] gap := by
  induction gap with
  | nil => rfl
  | cons piece gap ih =>
      obtain ⟨hspaced, rfl⟩ := h piece List.mem_cons_self
      exact ⟨Or.inl hspaced, ih fun other hmem => h other (List.mem_cons_of_mem _ hmem)⟩

/-- Where blanks are allowed outside all brackets, it does no harm that there are none. -/
theorem Closes.relax {spaced : Bool} {stack : List Bracket} {own : List Piece}
    (h : Closes false stack own) : Closes spaced stack own := by
  have hiff : Closes spaced (stack ++ []) (own ++ []) ↔ Closes spaced [] [] :=
    closes_append_iff [] (by simp) h
  rw [List.append_nil, List.append_nil, closes_nil] at hiff
  exact hiff.2 rfl

theorem Closes.append {spaced : Bool} {first second : List Piece} (hfirst : Closes spaced [] first)
    (hsecond : Closes spaced [] second) : Closes spaced [] (first ++ second) :=
  (closes_append_iff [] Or.inl hfirst).2 hsecond

theorem closes_enclosed {spaced : Bool} {bracket : Bracket} {inner : List Piece}
    (h : Closes true [] inner) : Closes spaced [] (enclosed bracket inner) := by
  have hiff : Closes spaced [bracket] (inner ++ [.sign (.closing bracket)]) ↔
      Closes spaced [bracket] [.sign (.closing bracket)] :=
    closes_append_iff [bracket] (fun _ => Or.inr (by simp)) h
  exact hiff.2 (by simp)

theorem Derives.closes {form : Form} {own : List Piece} {trees : List Tree}
    (h : Derives form own trees) : Closes form.spaced [] own := by
  induction h with
  | literal text => rfl
  | wildcard => rfl
  | boundary => rfl
  | round _ _ ih => exact closes_enclosed ih
  | curly _ _ ih => exact closes_enclosed ih
  | unsigned _ ih => exact ih.relax
  | negated hgap _ _ ih => exact hgap.closes.append ih.relax
  | unrepeated _ ih => exact ih
  | repeated quantifier _ _ hgap ih => exact ih.append (hgap.closes.append rfl)
  | noItem => rfl
  | blankItem _ ih => exact ⟨Or.inl rfl, ih⟩
  | nextItem _ _ ihown ihrest => exact ihown.append ihrest
  | noBranch => rfl
  | blankBranch _ ih => exact ⟨Or.inl rfl, ih⟩
  | nextBranch _ _ _ _ ihown ihrest => exact ihown.relax.append ihrest

/-! ## Neighbours -/

/-- A piece may stand right after another one. -/
def Follows (left right : Piece) : Prop :=
  (left = .sign .negation → right ≠ .sign .negation ∧ right ≠ .sign .boundary) ∧
    (left = .sign .negation ∨ left = .sign .boundary ∨
        (∃ kind, left = .sign (.quantifier kind)) →
      ∀ kind, right ≠ .sign (.quantifier kind))

theorem adjacencyFault_cons {c : Char} {rest : List Char}
    (h : ∀ d, rest.head? = some d → pairFault c d = none) :
    adjacencyFault (c :: rest) = adjacencyFault rest := by
  cases rest with
  | nil => rfl
  | cons d rest => rw [adjacencyFault, h d rfl]

theorem pairFault_of_left {left right : Char} (h : Sign.ofChar? left = none) :
    pairFault left right = none := by
  rw [pairFault, h]

theorem pairFault_of_right {left right : Char} (h : Sign.ofChar? right = none) :
    pairFault left right = none := by
  unfold pairFault
  rw [h]
  cases Sign.ofChar? left with
  | none => rfl
  | some sign => cases sign <;> rfl

/-- Text without signs causes no fault with what comes after it. -/
theorem adjacencyFault_append {text rest : List Char}
    (h : ∀ c ∈ text, Sign.ofChar? c = none) :
    adjacencyFault (text ++ rest) = adjacencyFault rest := by
  induction text with
  | nil => rfl
  | cons c text ih =>
      rw [List.cons_append, adjacencyFault_cons fun d _ => pairFault_of_left
        (h c List.mem_cons_self), ih fun d hd => h d (List.mem_cons_of_mem _ hd)]

theorem pairFault_of_follows {left right : Char} {before after : Sign}
    (hleft : Sign.ofChar? left = some before) (hright : Sign.ofChar? right = some after)
    (h : Follows (.sign before) (.sign after)) : pairFault left right = none := by
  unfold pairFault
  rw [hleft, hright]
  obtain ⟨hnegation, hquantifier⟩ := h
  cases before <;> cases after <;> simp_all

/-- If every piece may follow the one before it, no pair of characters is at fault. -/
theorem adjacencyFault_of_isChain {vocabulary : Vocabulary} (hvocabulary : vocabulary.Plain)
    {text : List Char} (h : (pieces vocabulary text).IsChain Follows) :
    adjacencyFault text = none := by
  induction text using pieces_induction vocabulary with
  | nil => rfl
  | blank c rest hblank ih =>
      rw [pieces_blank hblank] at h
      rw [adjacencyFault_cons fun d _ => pairFault_of_left (Sign.ofChar?_of_isBlank hblank)]
      exact ih h.of_cons
  | sign c rest sign hsign ih =>
      rw [pieces_sign hsign] at h
      rw [adjacencyFault_cons, ih h.of_cons]
      intro d hd
      cases rest with
      | nil => cases hd
      | cons e rest =>
          cases hd
          cases hnext : Sign.ofChar? d with
          | none => exact pairFault_of_right hnext
          | some next =>
              rw [pieces_sign hnext, List.isChain_cons_cons] at h
              exact pairFault_of_follows hsign hnext h.1
  | plain c tail after hplain hliteral ih =>
      rw [pieces_plain hplain hliteral] at h
      have hword : ∀ d ∈ c :: tail, Sign.ofChar? d = none := by
        rw [← hliteral]
        exact fun d hd => (hvocabulary.isPlain_of_mem_literalAt hplain d hd).2
      rw [← List.cons_append, adjacencyFault_append hword]
      exact ih h.of_cons

/-- What the pieces of a phrase may be put next to. -/
structure Joinable (own : List Piece) : Prop where
  chain : own.IsChain Follows
  head : ∀ piece, own.head? = some piece → ∀ kind, piece ≠ .sign (.quantifier kind)
  last : ∀ piece, own.getLast? = some piece → piece ≠ .sign .negation

theorem follows_of_ne {left right : Piece} (hleft : left ≠ .sign .negation)
    (hright : ∀ kind, right ≠ .sign (.quantifier kind)) : Follows left right :=
  ⟨fun h => absurd h hleft, fun _ => hright⟩

theorem Joinable.nil : Joinable [] :=
  ⟨List.isChain_nil, by simp, by simp⟩

theorem Joinable.append {first second : List Piece} (hfirst : Joinable first)
    (hsecond : Joinable second) : Joinable (first ++ second) := by
  refine ⟨?_, ?_, ?_⟩
  · refine List.isChain_append.2 ⟨hfirst.chain, hsecond.chain, ?_⟩
    intro left hleft right hright
    exact follows_of_ne (hfirst.last left hleft) (hsecond.head right hright)
  · intro piece hpiece
    rw [List.head?_append, Option.or_eq_some_iff] at hpiece
    rcases hpiece with hpiece | ⟨-, hpiece⟩
    · exact hfirst.head piece hpiece
    · exact hsecond.head piece hpiece
  · intro piece hpiece
    rw [List.getLast?_append, Option.or_eq_some_iff] at hpiece
    rcases hpiece with hpiece | ⟨-, hpiece⟩
    · exact hsecond.last piece hpiece
    · exact hfirst.last piece hpiece

theorem Joinable.single {piece : Piece} (hhead : ∀ kind, piece ≠ .sign (.quantifier kind))
    (hlast : piece ≠ .sign .negation) : Joinable [piece] := by
  refine ⟨List.isChain_singleton piece, ?_, ?_⟩
  · intro other hother
    cases hother
    exact hhead
  · intro other hother
    cases hother
    exact hlast

theorem Joinable.enclosed {inner : List Piece} (h : Joinable inner) (bracket : Bracket) :
    Joinable (enclosed bracket inner) :=
  (single (by simp) (by simp)).append (h.append (single (by simp) (by simp)))

theorem Gap.joinable {spaced : Bool} {gap : List Piece} (h : Gap spaced gap) : Joinable gap := by
  induction gap with
  | nil => exact Joinable.nil
  | cons piece gap ih =>
      obtain ⟨-, rfl⟩ := h piece List.mem_cons_self
      exact (Joinable.single (by simp) (by simp)).append
        (ih fun other hmem => h other (List.mem_cons_of_mem _ hmem))

theorem follows_of_flat {left right : Piece} (hnegation : left ≠ .sign .negation)
    (hboundary : left ≠ .sign .boundary)
    (hquantifier : ∀ kind, left ≠ .sign (.quantifier kind)) : Follows left right := by
  refine ⟨fun h => absurd h hnegation, ?_⟩
  intro hcase
  rcases hcase with h | h | ⟨kind, h⟩
  · exact absurd h hnegation
  · exact absurd h hboundary
  · exact absurd h (hquantifier kind)

theorem ne_nil_of_primary {own : List Piece} {item : Tree} (h : Derives .primary own [item]) :
    own ≠ [] := by
  cases h <;> simp [enclosed]

theorem ne_nil_of_signed {spaced : Bool} {own : List Piece} {item : Tree}
    (h : Derives (.signed spaced) own [item]) : own ≠ [] := by
  cases h with
  | unsigned hown => exact ne_nil_of_primary hown
  | negated => simp

theorem head?_of_primary {own : List Piece} {item : Tree} {piece : Piece}
    (h : Derives .primary own [item]) (hpiece : own.head? = some piece) :
    piece ≠ .sign .negation ∧ (piece = .sign .boundary → item.choices = none) := by
  cases h with
  | literal text =>
      cases hpiece
      exact ⟨by simp, by simp⟩
  | wildcard =>
      cases hpiece
      exact ⟨by simp, by simp⟩
  | boundary =>
      cases hpiece
      exact ⟨by simp, fun _ => rfl⟩
  | round | curly =>
      cases hpiece
      exact ⟨by simp, by simp⟩

theorem getLast?_of_primary {own : List Piece} {item : Tree} {piece : Piece}
    (h : Derives .primary own [item]) (hpiece : own.getLast? = some piece) :
    (∀ kind, piece ≠ .sign (.quantifier kind)) ∧
      (piece = .sign .boundary → item.hasBoundary = true) := by
  have henclosed : ∀ {bracket : Bracket} {inner : List Piece},
      (enclosed bracket inner).getLast? = some (.sign (.closing bracket)) := by
    intro bracket inner
    rw [enclosed, ← List.cons_append, List.getLast?_concat]
  cases h with
  | literal text =>
      cases hpiece
      exact ⟨by simp, by simp⟩
  | wildcard =>
      cases hpiece
      exact ⟨by simp, by simp⟩
  | boundary =>
      cases hpiece
      exact ⟨by simp, fun _ => rfl⟩
  | round | curly =>
      rw [henclosed] at hpiece
      cases hpiece
      exact ⟨by simp, by simp⟩

theorem getLast?_of_signed {spaced : Bool} {own : List Piece} {item : Tree} {piece : Piece}
    (h : Derives (.signed spaced) own [item]) (hpiece : own.getLast? = some piece) :
    (∀ kind, piece ≠ .sign (.quantifier kind)) ∧
      (piece = .sign .boundary → item.hasBoundary = true) := by
  cases h with
  | unsigned hown => exact getLast?_of_primary hown hpiece
  | @negated _ gap own item _ hown _ =>
      rw [← List.cons_append, List.getLast?_append, Option.or_eq_some_iff] at hpiece
      rcases hpiece with hpiece | ⟨hnone, -⟩
      · rw [Tree.negate, Tree.hasBoundary_withMark]
        exact getLast?_of_primary hown hpiece
      · exact absurd (List.getLast?_eq_none_iff.1 hnone) (ne_nil_of_primary hown)

theorem joinable_negated {spaced : Bool} {gap own : List Piece} {item : Tree}
    (hgap : Gap spaced gap) (hown : Derives .primary own [item]) (hchoices : item.choices ≠ none)
    (h : Joinable own) : Joinable (.sign .negation :: (gap ++ own)) := by
  have hrest : Joinable (gap ++ own) := hgap.joinable.append h
  refine ⟨?_, ?_, ?_⟩
  · refine List.isChain_cons.2 ⟨?_, hrest.chain⟩
    intro right hright
    refine ⟨fun _ => ?_, fun _ => hrest.head right hright⟩
    rw [Option.mem_def, List.head?_append, Option.or_eq_some_iff] at hright
    rcases hright with hright | ⟨-, hright⟩
    · obtain ⟨-, rfl⟩ := hgap right (List.mem_of_head? hright)
      simp
    · obtain ⟨hnegation, hboundary⟩ := head?_of_primary hown hright
      exact ⟨hnegation, fun heq => hchoices (hboundary heq)⟩
  · intro piece hpiece
    cases hpiece
    simp
  · intro piece hpiece
    rw [List.getLast?_cons_of_ne_nil (by simp [ne_nil_of_primary hown])] at hpiece
    exact hrest.last piece hpiece

theorem joinable_repeated {spaced : Bool} {own gap : List Piece} {item : Tree}
    (quantifier : Quantifier) (hown : Derives (.signed spaced) own [item])
    (hplain : item.hasBoundary = false) (hgap : Gap spaced gap) (h : Joinable own) :
    Joinable (own ++ (gap ++ [.sign (.quantifier quantifier)])) := by
  refine ⟨?_, ?_, ?_⟩
  · refine List.isChain_append.2 ⟨h.chain, List.isChain_append.2 ⟨hgap.joinable.chain,
      List.isChain_singleton _, ?_⟩, ?_⟩
    · intro left hleft right _
      obtain ⟨-, rfl⟩ := hgap left (List.mem_of_getLast? hleft)
      exact follows_of_flat (by simp) (by simp) (by simp)
    · intro left hleft right _
      obtain ⟨hquantifier, hboundary⟩ := getLast?_of_signed hown hleft
      refine follows_of_flat (h.last left hleft) (fun heq => ?_) hquantifier
      rw [hboundary heq] at hplain
      cases hplain
  · intro piece hpiece
    rw [List.head?_append, Option.or_eq_some_iff] at hpiece
    rcases hpiece with hpiece | ⟨hnone, -⟩
    · exact h.head piece hpiece
    · exact absurd (List.head?_eq_none_iff.1 hnone) (ne_nil_of_signed hown)
  · intro piece hpiece
    rw [← List.append_assoc, List.getLast?_concat] at hpiece
    cases hpiece
    simp

/-- The pieces of a phrase may stand next to each other, and next to those of another phrase. -/
theorem Derives.joinable {form : Form} {own : List Piece} {trees : List Tree}
    (h : Derives form own trees) : Joinable own := by
  induction h with
  | literal text => exact Joinable.single (by simp) (by simp)
  | wildcard => exact Joinable.single (by simp) (by simp)
  | boundary => exact Joinable.single (by simp) (by simp)
  | round _ _ ih => exact ih.enclosed .round
  | curly _ _ ih => exact ih.enclosed .curly
  | unsigned _ ih => exact ih
  | negated hgap hown hchoices ih => exact joinable_negated hgap hown hchoices ih
  | unrepeated _ ih => exact ih
  | repeated quantifier hown hplain hgap ih =>
      exact joinable_repeated quantifier hown hplain hgap ih
  | noItem => exact Joinable.nil
  | blankItem _ ih => exact (Joinable.single (by simp) (by simp)).append ih
  | nextItem _ _ ihown ihrest => exact ihown.append ihrest
  | noBranch => exact Joinable.nil
  | blankBranch _ ih => exact (Joinable.single (by simp) (by simp)).append ih
  | nextBranch _ _ _ _ ihown ihrest => exact ihown.append ihrest

end Motif
