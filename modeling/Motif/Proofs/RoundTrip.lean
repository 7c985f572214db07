import Motif.Pattern.Render
import Motif.Proofs.Grammar.Language

/-!
# Patterns and their written form

Without declared symbols the trees that can be read are the well-formed ones, and each of them is
read again from its written form.
-/

namespace Motif

namespace Tree

/--
What holds of every item that is read: a literal is one plain character, a group has content, what
is negated is a choice of literals, and what is repeated holds no end of the input.
-/
structure Lawful (item : Tree) : Prop where
  literal : ∀ text mark, item = .leaf (.literal text) mark →
    ∃ c, text = [c] ∧ IsPlain c
  ne_epsilon : ∀ mark, item ≠ .leaf .epsilon mark
  children_ne_nil : item.isLeaf = false → item.children ≠ []
  choices_of_negated : item.mark.negated = true → item.choices ≠ none
  edgeless_of_repeated : item.mark.quantifier ≠ .once → item.hasEdge = false

/--
A tree with a written form that is read as the same tree: nothing at all, or lawful items with every
end of the input resolved and in its place.
-/
def WellFormed (tree : Tree) : Prop :=
  tree = .leaf .epsilon .plain ∨
    tree.All Lawful ∧ tree.hasBoundary = false ∧ tree.Placed true true

/-! ## Lawful items -/

theorem isLeaf_blur (tree : Tree) : tree.blur.isLeaf = tree.isLeaf := by
  cases tree <;> rfl

theorem blur_eq_leaf_iff {tree : Tree} {content : Leaf} {mark : Mark}
    (hcontent : content ≠ .boundary ∧ content ≠ .inputStart ∧ content ≠ .inputEnd) :
    tree.blur = .leaf content mark ↔ tree = .leaf content mark := by
  cases tree with
  | leaf own mark' => cases own <;> cases content <;> simp_all [blur, Leaf.blur]
  | sequence children mark' => simp [blur]
  | alternation children mark' => simp [blur]

/-- Whether an item is lawful does not depend on which end of the input is meant. -/
theorem lawful_blur_iff {item : Tree} : item.blur.Lawful ↔ item.Lawful := by
  have hliteral : ∀ text mark, item.blur = .leaf (.literal text) mark ↔
      item = .leaf (.literal text) mark := fun text mark => blur_eq_leaf_iff (by simp)
  have hepsilon : ∀ mark, item.blur = .leaf .epsilon mark ↔ item = .leaf .epsilon mark :=
    fun mark => blur_eq_leaf_iff (by simp)
  have hchildren : item.blur.children ≠ [] ↔ item.children ≠ [] := by
    rw [children_blur, ne_eq, List.map_eq_nil_iff]
  constructor
  · intro h
    rcases h with ⟨literal, epsilon, children, choices, edgeless⟩
    simp only [hliteral, ne_eq, hepsilon, isLeaf_blur, mark_blur, choices_blur,
      hasEdge_blur] at literal epsilon children choices edgeless
    exact ⟨literal, epsilon, fun hleaf => hchildren.1 (children hleaf), choices, edgeless⟩
  · intro h
    rcases h with ⟨literal, epsilon, children, choices, edgeless⟩
    refine ⟨?_, ?_, ?_, ?_, ?_⟩
    · simpa only [hliteral] using literal
    · simpa only [ne_eq, hepsilon] using epsilon
    · rw [isLeaf_blur]
      exact fun hleaf => hchildren.2 (children hleaf)
    · simpa only [mark_blur, choices_blur] using choices
    · simpa only [mark_blur, hasEdge_blur] using edgeless

end Tree

/-! ## Pieces without declared symbols -/

theorem plain_empty : (∅ : Vocabulary).Plain := by
  intro symbol hsymbol
  cases hsymbol

theorem pieces_empty (text : List Char) : pieces ∅ text = text.map Piece.ofChar := by
  induction text using pieces_induction ∅ with
  | nil => rw [pieces_nil, List.map_nil]
  | blank c rest hblank ih => rw [pieces_blank hblank, List.map_cons, Piece.ofChar_blank hblank, ih]
  | sign c rest sign hsign ih => rw [pieces_sign hsign, List.map_cons, Piece.ofChar_sign hsign, ih]
  | plain c tail after hplain hliteral ih =>
      have htail : tail = [] := by
        have hnone : (∅ : Vocabulary).longest? (c :: (tail ++ after)) = none := rfl
        rw [Vocabulary.literalAt, hnone, Option.getD_none, List.cons.injEq] at hliteral
        exact hliteral.2.symm
      rw [pieces_plain hplain hliteral, htail, List.nil_append, List.map_cons,
        Piece.ofChar_plain hplain, ih]

namespace Tree

/-! ## What is written the grammar derives -/

theorem map_ofChar_bracket (bracket : Bracket) (text : List Char) :
    (Tree.bracket bracket text).map Piece.ofChar = enclosed bracket (text.map Piece.ofChar) := by
  rw [Tree.bracket, List.map_cons, List.map_append, List.map_singleton,
    Piece.ofChar_sign (Sign.ofChar?_eq_opening_iff.2 rfl),
    Piece.ofChar_sign (Sign.ofChar?_eq_closing_iff.2 rfl), enclosed]

theorem derives_surround {spaced : Bool} {item : Tree} {text : List Char}
    (h : Derives .primary (text.map Piece.ofChar) [item.withMark .plain])
    (hnegated : item.mark.negated = true → item.choices ≠ none)
    (hrepeated : item.mark.quantifier ≠ .once → item.hasBoundary = false) :
    Derives (.item spaced) ((item.mark.surround text).map Piece.ofChar) [item] := by
  have hsigned : Derives (.signed spaced) ((item.mark.sign ++ text).map Piece.ofChar)
      [item.withMark ⟨item.mark.negated, .once⟩] := by
    cases hmark : item.mark.negated with
    | false =>
        rw [Mark.sign, hmark]
        exact .unsigned h
    | true =>
        have hchoices := hnegated hmark
        rw [← choices_withMark .plain] at hchoices
        have hnegate := Derives.negated (Gap.nil spaced) h hchoices
        rw [negate, mark_withMark, withMark_withMark] at hnegate
        rw [Mark.sign, hmark]
        exact hnegate
  rw [Mark.surround, List.map_append]
  by_cases honce : item.mark.quantifier = .once
  · rw [honce, Quantifier.suffix, List.map_nil, List.append_nil]
    rw [← honce, withMark_mark] at hsigned
    exact .unrepeated hsigned
  · have hplain := hrepeated honce
    rw [← hasBoundary_withMark ⟨item.mark.negated, .once⟩] at hplain
    have hitem := Derives.repeated item.mark.quantifier hsigned hplain (Gap.nil spaced)
    rw [quantify, mark_withMark, withMark_withMark, withMark_mark] at hitem
    have hsuffix : item.mark.quantifier.suffix.map Piece.ofChar =
        [.sign (.quantifier item.mark.quantifier)] := by
      cases hquantifier : item.mark.quantifier with
      | once => exact absurd hquantifier honce
      | optional | zeroOrMore | oneOrMore => rfl
    rw [hsuffix]
    exact hitem

section Written

variable {children : List Tree}

theorem derives_renderSequence {spaced : Bool}
    (h : ∀ child ∈ children,
      Derives (.item spaced) ((renderAt false child).map Piece.ofChar) [child]) :
    Derives (.items spaced) ((renderSequence children).map Piece.ofChar) children := by
  induction children with
  | nil => exact .noItem
  | cons child rest ih =>
      rw [renderSequence, List.map_append]
      exact .nextItem (h child List.mem_cons_self)
        (ih fun other hmem => h other (List.mem_cons_of_mem _ hmem))

theorem ofBranch_of_long (h : 1 < children.length) :
    ofBranch children = .sequence children .plain := by
  rcases children with _ | ⟨child, _ | ⟨next, rest⟩⟩
  · simp at h
  · simp at h
  · rfl

/-- A tree that stands alone is written as a branch of the grammar. -/
def WrittenAlone (tree : Tree) : Prop :=
  ∃ items, items ≠ [] ∧ ofBranch items = tree ∧ ∀ spaced,
    Derives (.items spaced) ((renderAt true tree).map Piece.ofChar) items

theorem derives_branch {child : Tree} {rest : List Tree} (hchild : WrittenAlone child)
    (hrest : Derives .branches ((renderFollowing rest).map Piece.ofChar) rest) :
    Derives .branches ((renderAt true child ++ renderFollowing rest).map Piece.ofChar)
      (child :: rest) := by
  obtain ⟨items, hne, heq, hitems⟩ := hchild
  have hblank : ∀ piece, ((renderFollowing rest).map Piece.ofChar).head? = some piece →
      piece = .blank := by
    intro piece hpiece
    cases rest with
    | nil => cases hpiece
    | cons next rest =>
        cases hpiece
        rfl
  have hbranch := Derives.nextBranch (hitems false) hne hblank hrest
  rwa [heq, ← List.map_append] at hbranch

theorem derives_renderFollowing (h : ∀ child ∈ children, WrittenAlone child) :
    Derives .branches ((renderFollowing children).map Piece.ofChar) children := by
  induction children with
  | nil => exact .noBranch
  | cons child rest ih =>
      have hrest := ih fun other hmem => h other (List.mem_cons_of_mem _ hmem)
      rw [renderFollowing, List.map_cons, Piece.ofChar_blank (by decide)]
      exact .blankBranch (derives_branch (h child List.mem_cons_self) hrest)

theorem derives_renderBranches (h : ∀ child ∈ children, WrittenAlone child) :
    Derives .branches ((renderBranches children).map Piece.ofChar) children := by
  cases children with
  | nil => exact .noBranch
  | cons child rest =>
      rw [renderBranches]
      exact derives_branch (h child List.mem_cons_self)
        (derives_renderFollowing fun other hmem => h other (List.mem_cons_of_mem _ hmem))

end Written

theorem blur_of_mem {children : List Tree} (h : blurEach children = children) :
    ∀ child ∈ children, child.blur = child := by
  rw [blurEach_eq_map] at h
  exact List.map_inj_left.1 (h.trans (List.map_id children).symm)

theorem Lawful.hasBoundary_of_repeated {item : Tree} (h : item.Lawful) (hblur : item.blur = item) :
    item.mark.quantifier ≠ .once → item.hasBoundary = false := by
  intro hrepeated
  have hedge := h.edgeless_of_repeated hrepeated
  rwa [hasEdge, hblur] at hedge

/--
An item whose boundaries are unresolved is written as an item of the grammar, and as a branch if it
stands alone.
-/
theorem derives_render {tree : Tree} (hlawful : tree.All Lawful) (hblur : tree.blur = tree) :
    (∀ spaced, Derives (.item spaced) ((renderAt false tree).map Piece.ofChar) [tree]) ∧
      WrittenAlone tree := by
  -- An item that is written in the same way with and without neighbours is a branch of one item.
  have alone : ∀ {tree : Tree}, renderAt true tree = renderAt false tree →
      (∀ spaced, Derives (.item spaced) ((renderAt false tree).map Piece.ofChar) [tree]) →
        (∀ spaced, Derives (.item spaced) ((renderAt false tree).map Piece.ofChar) [tree]) ∧
          WrittenAlone tree := by
    intro tree hsame hitem
    refine ⟨hitem, [tree], by simp, rfl, fun spaced => ?_⟩
    have hrow := Derives.nextItem (hitem spaced) .noItem
    rwa [List.append_nil, ← hsame] at hrow
  induction tree with
  | leaf content mark =>
      have hown := (all_iff.1 hlawful).1
      refine alone rfl fun spaced => ?_
      refine derives_surround ?_ hown.choices_of_negated
        (hown.hasBoundary_of_repeated hblur)
      cases content with
      | literal text =>
          obtain ⟨c, rfl, hplain⟩ := hown.literal text mark rfl
          rw [Leaf.render, List.map_singleton, Piece.ofChar_plain hplain]
          exact .literal [c]
      | wildcard => exact .wildcard
      | boundary => exact .boundary
      | inputStart => cases hblur
      | inputEnd => cases hblur
      | epsilon => exact absurd rfl (hown.ne_epsilon mark)
  | sequence children mark ih =>
      obtain ⟨hown, hchildren⟩ := all_iff.1 hlawful
      rw [blur, Tree.sequence.injEq] at hblur
      have hitems : ∀ spaced,
          Derives (.items spaced) ((renderSequence children).map Piece.ofChar) children :=
        fun spaced => derives_renderSequence fun child hmem =>
          (ih child hmem (hchildren child hmem) (blur_of_mem hblur.1 child hmem)).1 spaced
      have hitem : ∀ spaced, Derives (.item spaced)
          ((renderAt false (.sequence children mark)).map Piece.ofChar)
            [.sequence children mark] := by
        intro spaced
        rw [renderAt, if_neg (by simp)]
        refine derives_surround ?_ hown.choices_of_negated
          (hown.hasBoundary_of_repeated (by rw [blur, hblur.1]))
        rw [map_ofChar_bracket]
        exact .round (hitems true) (hown.children_ne_nil rfl)
      by_cases hbare : mark = .plain ∧ 1 < children.length
      · obtain ⟨rfl, hlong⟩ := hbare
        refine ⟨hitem, children, hown.children_ne_nil rfl, ofBranch_of_long hlong, fun spaced => ?_⟩
        rw [renderAt, if_pos (by simp [hlong])]
        exact hitems spaced
      · refine alone ?_ hitem
        rw [renderAt, renderAt, if_neg (by simpa using hbare), if_neg (by simp)]
  | alternation children mark ih =>
      obtain ⟨hown, hchildren⟩ := all_iff.1 hlawful
      rw [blur, Tree.alternation.injEq] at hblur
      refine alone (by rw [renderAt, renderAt]) fun spaced => ?_
      rw [renderAt]
      refine derives_surround ?_ hown.choices_of_negated
        (hown.hasBoundary_of_repeated (by rw [blur, hblur.1]))
      rw [map_ofChar_bracket]
      refine .curly (derives_renderBranches fun child hmem => ?_) (hown.children_ne_nil rfl)
      exact (ih child hmem (hchildren child hmem) (blur_of_mem hblur.1 child hmem)).2

theorem renderAt_blur {tree : Tree} :
    ∀ {alone : Bool}, renderAt alone tree.blur = renderAt alone tree := by
  induction tree with
  | leaf content mark =>
      intro alone
      cases content <;> rfl
  | sequence children mark ih =>
      intro alone
      have heach : renderSequence (blurEach children) = renderSequence children := by
        induction children with
        | nil => rfl
        | cons child rest ihrest =>
            rw [blurEach, renderSequence, renderSequence, ih child List.mem_cons_self,
              ihrest fun other hmem => ih other (List.mem_cons_of_mem _ hmem)]
      have hlength : (blurEach children).length = children.length := by
        rw [blurEach_eq_map, List.length_map]
      rw [blur, renderAt, renderAt, heach, hlength]
  | alternation children mark ih =>
      intro alone
      have hfollowing : ∀ {children : List Tree},
          (∀ child ∈ children, ∀ {alone : Bool},
            renderAt alone child.blur = renderAt alone child) →
          renderFollowing (blurEach children) = renderFollowing children := by
        intro children ih
        induction children with
        | nil => rfl
        | cons child rest ihrest =>
            rw [blurEach, renderFollowing, renderFollowing, ih child List.mem_cons_self,
              ihrest fun other hmem => ih other (List.mem_cons_of_mem _ hmem)]
      have heach : renderBranches (blurEach children) = renderBranches children := by
        cases children with
        | nil => rfl
        | cons child rest =>
            rw [blurEach, renderBranches, renderBranches, ih child List.mem_cons_self,
              hfollowing fun other hmem => ih other (List.mem_cons_of_mem _ hmem)]
      rw [blur, renderAt, renderAt, heach]

theorem ofItems_of_ne_nil {items : List Tree} (h : items ≠ []) :
    ofItems items = ofBranch items := by
  cases items with
  | nil => exact absurd rfl h
  | cons item rest => rfl

/-- A well-formed tree is read from its written form. -/
theorem parse_render {tree : Tree} (h : tree.WellFormed) :
    parse ∅ .forward tree.render = .ok tree := by
  rw [parse_eq_ok_iff plain_empty]
  rcases h with rfl | ⟨hlawful, hresolved, hplaced⟩
  · refine ⟨[], ?_, rfl⟩
    rw [pieces_empty]
    exact .noItem
  · have hresolve := resolve_blur hresolved hplaced
    obtain ⟨-, items, hne, hitems, hderives⟩ :=
      derives_render ((all_blur_iff fun _ => lawful_blur_iff).2 hlawful) (blur_blur tree)
    refine ⟨items, ?_, ?_⟩
    · rw [pieces_empty, render, ← renderAt_blur]
      exact hderives true
    · rw [settle_eq_ok_iff, ofItems_of_ne_nil hne, hitems, ← hasBoundary_resolve_iff, hresolve]
      exact ⟨hresolved, rfl⟩

/-! ## What is read is well formed -/

theorem lawful_leaf {content : Leaf} (hepsilon : content ≠ .epsilon)
    (hliteral : ∀ text, content = .literal text → ∃ c, text = [c] ∧ IsPlain c) :
    (Tree.leaf content .plain).Lawful where
  literal text mark heq := hliteral text (Tree.leaf.inj heq).1
  ne_epsilon mark heq := hepsilon (Tree.leaf.inj heq).1
  children_ne_nil hleaf := by cases hleaf
  choices_of_negated hnegated := by cases hnegated
  edgeless_of_repeated hrepeated := absurd rfl hrepeated

theorem lawful_sequence {children : List Tree} (h : children ≠ []) :
    (Tree.sequence children .plain).Lawful where
  literal text mark heq := by cases heq
  ne_epsilon mark heq := by cases heq
  children_ne_nil _ := h
  choices_of_negated hnegated := by cases hnegated
  edgeless_of_repeated hrepeated := absurd rfl hrepeated

theorem lawful_alternation {children : List Tree} (h : children ≠ []) :
    (Tree.alternation children .plain).Lawful where
  literal text mark heq := by cases heq
  ne_epsilon mark heq := by cases heq
  children_ne_nil _ := h
  choices_of_negated hnegated := by cases hnegated
  edgeless_of_repeated hrepeated := absurd rfl hrepeated

theorem Lawful.withMark {item : Tree} (h : item.Lawful) {mark : Mark}
    (hnegated : mark.negated = true → item.choices ≠ none)
    (hrepeated : mark.quantifier ≠ .once → item.hasEdge = false) :
    (item.withMark mark).Lawful := by
  refine ⟨?_, ?_, ?_, ?_, ?_⟩
  · intro text other heq
    cases item with
    | leaf content own =>
        rw [Tree.withMark, Tree.leaf.injEq] at heq
        exact h.literal text own (by rw [heq.1])
    | sequence children own => cases heq
    | alternation children own => cases heq
  · intro other heq
    cases item with
    | leaf content own =>
        rw [Tree.withMark, Tree.leaf.injEq] at heq
        exact h.ne_epsilon own (by rw [heq.1])
    | sequence children own => cases heq
    | alternation children own => cases heq
  · rw [children_withMark]
    intro hleaf
    apply h.children_ne_nil
    cases item <;> first | rfl | exact hleaf
  · rwa [mark_withMark, choices_withMark]
  · rwa [mark_withMark, hasEdge_withMark]

/-- What the grammar derives: lawful items whose boundaries are not yet resolved. -/
def Raw (tree : Tree) : Prop :=
  tree.All Lawful ∧ tree.blur = tree

theorem Raw.withMark {item : Tree} (h : item.Raw) {mark : Mark}
    (hnegated : mark.negated = true → item.choices ≠ none)
    (hrepeated : mark.quantifier ≠ .once → item.hasEdge = false) : (item.withMark mark).Raw := by
  obtain ⟨hown, hchildren⟩ := all_iff.1 h.1
  refine ⟨all_iff.2 ⟨hown.withMark hnegated hrepeated, ?_⟩, ?_⟩
  · rwa [children_withMark]
  · rw [blur_withMark, h.2]

theorem blurEach_of_raw {children : List Tree} (h : ∀ child ∈ children, child.Raw) :
    blurEach children = children := by
  rw [blurEach_eq_map]
  exact (List.map_congr_left fun child hmem => (h child hmem).2).trans (List.map_id children)

theorem raw_sequence {children : List Tree} (hne : children ≠ [])
    (h : ∀ child ∈ children, child.Raw) : (Tree.sequence children .plain).Raw :=
  ⟨all_iff.2 ⟨lawful_sequence hne, fun child hmem => (h child hmem).1⟩,
    by rw [blur, blurEach_of_raw h]⟩

theorem raw_alternation {children : List Tree} (hne : children ≠ [])
    (h : ∀ child ∈ children, child.Raw) : (Tree.alternation children .plain).Raw :=
  ⟨all_iff.2 ⟨lawful_alternation hne, fun child hmem => (h child hmem).1⟩,
    by rw [blur, blurEach_of_raw h]⟩

theorem raw_ofBranch {items : List Tree} (hne : items ≠ [])
    (h : ∀ item ∈ items, item.Raw) : (ofBranch items).Raw := by
  rcases items with _ | ⟨item, _ | ⟨next, rest⟩⟩
  · exact absurd rfl hne
  · exact h item List.mem_cons_self
  · exact raw_sequence hne h

theorem raw_of_derives {form : Form} {own : List Piece} {trees : List Tree}
    (h : Derives form own trees) :
    (∀ text, Piece.literal text ∈ own → ∃ c, text = [c] ∧ IsPlain c) →
      ∀ tree ∈ trees, tree.Raw := by
  induction h with
  | literal text =>
      intro hliteral
      rw [List.forall_mem_singleton]
      refine ⟨lawful_leaf (by simp) fun other heq => ?_, rfl⟩
      cases heq
      exact hliteral text List.mem_cons_self
  | wildcard =>
      intro _
      rw [List.forall_mem_singleton]
      exact ⟨lawful_leaf (by simp) (by simp), rfl⟩
  | boundary =>
      intro _
      rw [List.forall_mem_singleton]
      exact ⟨lawful_leaf (by simp) (by simp), rfl⟩
  | round _ hne ih =>
      intro hliteral
      rw [List.forall_mem_singleton]
      exact raw_sequence hne (ih fun text hmem => hliteral text (by simp [enclosed, hmem]))
  | curly _ hne ih =>
      intro hliteral
      rw [List.forall_mem_singleton]
      exact raw_alternation hne (ih fun text hmem => hliteral text (by simp [enclosed, hmem]))
  | unsigned _ ih => exact ih
  | negated _ _ hchoices ih =>
      intro hliteral
      rw [List.forall_mem_singleton]
      have hown := ih (fun text hmem => hliteral text (by simp [hmem])) _ List.mem_cons_self
      exact hown.withMark (fun _ => hchoices) (all_iff.1 hown.1).1.edgeless_of_repeated
  | unrepeated _ ih => exact ih
  | repeated quantifier _ hplain _ ih =>
      intro hliteral
      rw [List.forall_mem_singleton]
      have hown := ih (fun text hmem => hliteral text (by simp [hmem])) _ List.mem_cons_self
      refine hown.withMark (all_iff.1 hown.1).1.choices_of_negated fun _ => ?_
      rw [hasEdge, hown.2, hplain]
  | noItem => exact fun _ tree hmem => by cases hmem
  | blankItem _ ih => exact fun hliteral => ih fun text hmem => hliteral text (by simp [hmem])
  | nextItem _ _ ihown ihrest =>
      intro hliteral
      rw [List.forall_mem_cons]
      exact ⟨ihown (fun text hmem => hliteral text (by simp [hmem])) _ List.mem_cons_self,
        ihrest fun text hmem => hliteral text (by simp [hmem])⟩
  | noBranch => exact fun _ tree hmem => by cases hmem
  | blankBranch _ ih => exact fun hliteral => ih fun text hmem => hliteral text (by simp [hmem])
  | nextBranch _ hne _ _ ihown ihrest =>
      intro hliteral
      rw [List.forall_mem_cons]
      exact ⟨raw_ofBranch hne (ihown fun text hmem => hliteral text (by simp [hmem])),
        ihrest fun text hmem => hliteral text (by simp [hmem])⟩

theorem plain_of_mem_pieces {text word : List Char} (h : Piece.literal word ∈ pieces ∅ text) :
    ∃ c, word = [c] ∧ IsPlain c := by
  rw [pieces_empty, List.mem_map] at h
  obtain ⟨c, -, hc⟩ := h
  unfold Piece.ofChar at hc
  split at hc
  · cases hc
  · rename_i hblank
    split at hc
    · cases hc
    · rename_i hsign
      cases hc
      exact ⟨c, rfl, Bool.eq_false_iff.2 hblank, hsign⟩

/-- Whatever is read without declared symbols is well formed. -/
theorem wellFormed_of_parse {text : List Char} {tree : Tree}
    (h : parse ∅ .forward text = .ok tree) : tree.WellFormed := by
  obtain ⟨items, hderives, hsettle⟩ := (parse_eq_ok_iff plain_empty).1 h
  obtain ⟨hedges, rfl⟩ := settle_eq_ok_iff.1 hsettle
  by_cases hne : items = []
  · subst hne
    exact Or.inl rfl
  · have hraw := raw_ofBranch hne (raw_of_derives hderives fun word => plain_of_mem_pieces)
    rw [ofItems_of_ne_nil hne] at hedges ⊢
    refine Or.inr ⟨?_, hasBoundary_resolve_iff.2 hedges, placed_resolve hraw.2⟩
    rw [orient, ← all_blur_iff fun _ => lawful_blur_iff, blur_resolve, hraw.2]
    exact hraw.1

/--
Without declared symbols the well-formed trees are exactly those that are read from some text, and
each of them is read from its written form.
-/
theorem wellFormed_round_trip :
    (∀ text tree, parse ∅ .forward text = .ok tree → tree.WellFormed) ∧
      ∀ tree, tree.WellFormed → parse ∅ .forward tree.render = .ok tree :=
  ⟨fun _ _ => wellFormed_of_parse, fun _ => parse_render⟩

/-- A repeated group, a negated choice and a group of one item, read from a text with blanks. -/
theorem round_trip_of_spaced_text :
    let tree := Tree.sequence
      [.leaf .inputStart .plain, .sequence [.leaf (.literal ['a']) .plain,
        .leaf .wildcard ⟨false, .optional⟩] ⟨false, .zeroOrMore⟩,
        .alternation [.leaf (.literal ['b']) .plain,
          .sequence [.leaf (.literal ['c']) .plain] .plain] ⟨true, .oneOrMore⟩,
        .leaf .inputEnd .plain] .plain
    parse ∅ .forward ['#', ' ', '(', 'a', ' ', '.', '?', ')', '*', '!', '{', ' ', 'b', ' ', '(',
      'c', ')', '}', ' ', '+', '#'] = .ok tree ∧
      tree.WellFormed ∧ parse ∅ .forward tree.render = .ok tree := by
  intro tree
  have hparse : parse ∅ .forward ['#', ' ', '(', 'a', ' ', '.', '?', ')', '*', '!', '{', ' ', 'b',
      ' ', '(', 'c', ')', '}', ' ', '+', '#'] = .ok (Tree.sequence
        [.leaf .inputStart .plain, .sequence [.leaf (.literal ['a']) .plain,
          .leaf .wildcard ⟨false, .optional⟩] ⟨false, .zeroOrMore⟩,
          .alternation [.leaf (.literal ['b']) .plain,
            .sequence [.leaf (.literal ['c']) .plain] .plain] ⟨true, .oneOrMore⟩,
          .leaf .inputEnd .plain] .plain) := by
    cbv
  have hwellFormed := wellFormed_round_trip.1 _ _ hparse
  exact ⟨hparse, hwellFormed, wellFormed_round_trip.2 _ hwellFormed⟩

end Tree

end Motif
