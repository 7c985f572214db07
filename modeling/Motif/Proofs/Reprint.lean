import Motif.Proofs.RoundTrip
import Motif.Proofs.Rows

/-!
# Patterns with declared symbols and their written form

Declared symbols make it harder to read a tree again from its written form: what is written side by
side may begin with a symbol that was not there, and a symbol may hold blanks, brackets or signs
that mean something else where they are written. The tree is read again exactly if this happens on
none of the levels that are written.
-/

namespace Motif

/-! ## Rows that are read as they are written -/

namespace Lexeme

/-- How much of its source a lexeme leaves to a declared symbol: only a literal leaves any. -/
def cover : Lexeme → Nat
  | symbol text => text.length
  | _ => 0

end Lexeme

/--
No declared symbol that begins where a literal is written reaches beyond it, and none begins where
another lexeme is written.
-/
def Clear (vocabulary : Vocabulary) : List Lexeme → Prop
  | [] => True
  | lexeme :: rest =>
      (∀ symbol ∈ vocabulary.symbols, symbol <+: lexeme.source ++ sources rest →
        symbol.length ≤ lexeme.cover) ∧ Clear vocabulary rest

instance decidableClear (vocabulary : Vocabulary) :
    (lexemes : List Lexeme) → Decidable (Clear vocabulary lexemes)
  | [] => isTrue trivial
  | _ :: rest => @instDecidableAnd _ _ (List.decidableBAll _ _) (decidableClear vocabulary rest)

section Clear

variable {vocabulary : Vocabulary} {lexeme : Lexeme} {text after : List Char}

theorem Lexeme.Leads.length_le_cover (h : lexeme.Leads vocabulary.symbols after) :
    ∀ symbol ∈ vocabulary.symbols, symbol <+: lexeme.source ++ after →
      symbol.length ≤ lexeme.cover := by
  intro symbol hsymbol hbegins
  rw [Lexeme.Leads, Vocabulary.leadingSymbol?_eq_longest?] at h
  split at h
  · rename_i declared hdeclared
    have hlongest := (Vocabulary.longest?_eq_some_iff.1 hdeclared).2.2 symbol hsymbol hbegins
    subst h
    exact hlongest
  · rename_i hnone
    exact absurd hbegins (Vocabulary.longest?_eq_none_iff.1 hnone symbol hsymbol)

/-- Where no declared symbol takes more, a lexeme that can be read is read from its source. -/
theorem Lexeme.Readable.readFirst (h : lexeme.Readable vocabulary)
    (hclear : ∀ symbol ∈ vocabulary.symbols, symbol <+: lexeme.source ++ after →
      symbol.length ≤ lexeme.cover) :
    readFirst vocabulary.symbols (lexeme.source ++ after) = .ok (some (lexeme, after)) := by
  obtain ⟨hkind, c, rest, hsource, hc⟩ := h
  refine readFirst_eq_some_iff.2 ⟨[], c, rest ++ after, rfl, ?_, ?_, hc, ?_⟩
  · rw [hsource]
    rfl
  · rw [hsource]
    rfl
  rw [Leads, Vocabulary.leadingSymbol?_eq_longest?]
  split
  · rename_i declared hdeclared
    obtain ⟨hmem, hbegins, hlongest⟩ := Vocabulary.longest?_eq_some_iff.1 hdeclared
    have hle := hclear declared hmem hbegins
    have hpos := List.length_pos_iff.2 (vocabulary.ne_nil_of_mem declared hmem)
    -- Only a literal leaves room for a symbol, and it is the longest one or a single character.
    cases lexeme with
    | symbol text =>
        have htext : text.length ≤ declared.length := by
          rcases hkind with ⟨other, hother, heq⟩ | ⟨d, rfl, -⟩
          · cases heq
            exact hlongest text hother (List.prefix_append text after)
          · exact hpos
        have heq : declared = text := List.IsPrefix.eq_of_length_le
          (List.prefix_of_prefix_length_le hbegins (List.prefix_append text after) hle) htext
        rw [heq]
    | wildcard | boundary | negation => exact absurd hle (Nat.not_le_of_lt hpos)
    | quantifier kind => exact absurd hle (Nat.not_le_of_lt hpos)
    | group bracket body => exact absurd hle (Nat.not_le_of_lt hpos)
  · rename_i hnone
    rcases hkind with ⟨text, hmem, rfl⟩ | hbare
    · exact absurd (List.prefix_append text after)
        (Vocabulary.longest?_eq_none_iff.1 hnone text hmem)
    · exact hbare

/-- A clear row of lexemes that can be read is read from what is written for it. -/
theorem Clear.reads {lexemes : List Lexeme} (h : Clear vocabulary lexemes)
    (hreadable : ∀ lexeme ∈ lexemes, lexeme.Readable vocabulary) :
    Lexeme.Reads vocabulary.symbols (sources lexemes) lexemes := by
  induction lexemes with
  | nil => exact .done rfl
  | cons lexeme rest ih =>
      rw [List.forall_mem_cons] at hreadable
      exact .next (hreadable.1.readFirst h.1) (ih h.2 hreadable.2)

theorem sources_congr {lexemes others : List Lexeme}
    (h : List.Forall₂ (fun lexeme other => other.source = lexeme.source) lexemes others) :
    sources others = sources lexemes := by
  induction h with
  | nil => rfl
  | cons hfirst _ ih => rw [sources_cons, sources_cons, hfirst, ih]

/--
A row of which no lexeme is longer than the one that was read in its place is no longer than the
text. If it is the same text, nothing else was read, and the row is clear.
-/
theorem Lexeme.Reads.shortest {lexemes printed : List Lexeme}
    (h : Reads vocabulary.symbols text lexemes)
    (hle : List.Forall₂ (fun lexeme other => other.source.length ≤ lexeme.source.length)
      lexemes printed) :
    (sources printed).length ≤ text.length ∧
      (sources printed = text → Clear vocabulary lexemes ∧
        List.Forall₂ (fun lexeme other => other.source = lexeme.source) lexemes printed) := by
  induction h generalizing printed with
  | done _ =>
      cases hle
      exact ⟨Nat.zero_le _, fun _ => ⟨trivial, .nil⟩⟩
  | @next text rest lexeme lexemes hfirst _ ih =>
      cases hle with
      | @cons _ other _ others hother hothers =>
          obtain ⟨hrest, hsame⟩ := ih hothers
          obtain ⟨gap, c, tail, -, rfl, hsource, -, hleads⟩ := readFirst_eq_some_iff.1 hfirst
          rw [hsource, sources_cons]
          simp only [List.length_append]
          refine ⟨by omega, fun heq => ?_⟩
          have hlength := congrArg List.length heq
          simp only [List.length_append] at hlength
          have hgap : gap = [] := List.eq_nil_of_length_eq_zero (by omega)
          rw [hgap, List.nil_append] at heq
          obtain ⟨hown, htail⟩ := List.append_inj heq (by omega)
          obtain ⟨hclear, hall⟩ := hsame htail
          rw [← htail, sources_congr hall] at hleads
          exact ⟨⟨hleads.length_le_cover, hclear⟩, .cons hown hall⟩

theorem Lexeme.Reads.sameNesting {lexemes : List Lexeme}
    (h : Lexeme.Reads vocabulary.symbols text lexemes) : SameNesting text (sources lexemes) := by
  induction h with
  | done hfirst =>
      exact (balanced_of_blank (Lexeme.readFirst_eq_none_iff.1 hfirst)).sameNesting_nil
  | next hfirst _ ih =>
      obtain ⟨gap, c, rest, hgap, rfl, hsource, -, -⟩ := Lexeme.readFirst_eq_some_iff.1 hfirst
      rw [hsource, sources_cons]
      exact (balanced_of_blank hgap).sameNesting_nil.append ((SameNesting.refl _).append ih)

end Clear

namespace Tree

variable {vocabulary : Vocabulary}

/-! ## Trees that stand alone -/

theorem renderBranches_eq_joinWith (trees : List Tree) :
    renderBranches trees = Text.joinWith [' '] (trees.map (renderAt true)) := by
  cases trees with
  | nil => rfl
  | cons child rest =>
      rw [renderBranches]
      induction rest generalizing child with
      | nil => rw [renderFollowing, List.append_nil, List.map_singleton, Text.joinWith]
      | cons next rest ih =>
          rw [renderFollowing, ih, List.map_cons, List.map_cons, List.map_cons, Text.joinWith,
            List.append_assoc, List.singleton_append]

/-- The items of a tree that stands alone are written side by side, unless they are one group. -/
theorem alone_cases {items : List Tree} (hne : items ≠ []) :
    (∃ item, items = [item] ∧ item.Bracketless) ∨
      renderAt true (ofBranch items) = renderSequence items ∧
        (ofBranch items).row = items.flatMap lexemes := by
  rcases items with _ | ⟨item, _ | ⟨next, rest⟩⟩
  · exact absurd rfl hne
  · by_cases hgroup : item.Bracketless
    · exact Or.inl ⟨item, rfl, hgroup⟩
    · refine Or.inr ⟨?_, ?_⟩
      · rw [ofBranch, renderAt_true_of_not_bracketless hgroup, renderSequence, renderSequence,
          List.append_nil]
      · rw [ofBranch, row_of_not_bracketless hgroup, List.flatMap_singleton]
  · have hgroup : (ofBranch (item :: next :: rest)).Bracketless :=
      ⟨item :: next :: rest, rfl, by simp⟩
    exact Or.inr ⟨hgroup.render_alone, hgroup.row⟩

/-! ## What is written between brackets is balanced -/

theorem sameNesting_sources {lexemes printed : List Lexeme}
    (h : List.Forall₂ (fun lexeme other => SameNesting other.source lexeme.source)
      lexemes printed) : SameNesting (sources printed) (sources lexemes) := by
  induction h with
  | nil => exact .refl []
  | cons hfirst _ ih => exact hfirst.append ih

theorem balanced_bracket {bracket : Bracket} {text : List Char} (h : Balanced text) :
    Balanced (Tree.bracket bracket text) :=
  .group bracket h .nil

theorem balanced_joinWith {texts : List (List Char)}
    (h : ∀ text ∈ texts, Balanced text) : Balanced (Text.joinWith [' '] texts) := by
  induction texts with
  | nil => exact .nil
  | cons text rest ih =>
      rw [List.forall_mem_cons] at h
      cases rest with
      | nil => exact h.1
      | cons next rest =>
          have hblank : Balanced [' '] := balanced_of_blank rfl
          rw [Text.joinWith, List.append_assoc, h.1.append_iff, hblank.append_iff]
          exact ih h.2

/-- The items of a text are written with the same effect on open brackets. -/
structure WellNested (text : List Char) (items : List Tree) : Prop where
  row : SameNesting (renderSequence items) text
  inside : ∀ item ∈ items, Balanced item.inside

theorem WellNested.alone {text : List Char} {items : List Tree} (h : WellNested text items)
    (hne : items ≠ []) (htext : Balanced text) : Balanced (renderAt true (ofBranch items)) := by
  rcases alone_cases hne with ⟨item, rfl, hgroup⟩ | ⟨hrender, -⟩
  · rw [ofBranch, hgroup.render_alone]
    exact h.inside item List.mem_cons_self
  · rw [hrender]
    exact h.row.balanced_iff.2 htext

theorem wellNested_of_parseLevel (text : List Char) (items : List Tree)
    (h : parseLevel vocabulary .start text = .ok items) : WellNested text items := by
  refine reading_induction (motive := WellNested)
    (fun _ body item => Balanced body → Balanced item.inside) ?_ ?_ ?_ text items h
  · intro body children _ _ hchildren hbody
    exact hchildren.row.balanced_iff.2 hbody
  · intro body children _ hchildren hbody
    rw [Tree.inside, renderBranches_eq_joinWith]
    refine balanced_joinWith (List.forall_mem_map.2 (forall_mem_of_forall₂ hchildren ?_))
    intro part hpart child hchild
    obtain ⟨items, hne, -, hitems, rfl⟩ := hchild
    exact hitems.alone hne (hbody.of_mem_branches hpart)
  · intro text lexemes items hreads hitemsOf hgroup
    have hreadable := hreads.readable
    have hinside : ∀ bracket body item, Lexeme.group bracket body ∈ lexemes →
        parseGroup vocabulary bracket body = .ok item → Balanced item.inside :=
      fun bracket body item hmem hitem =>
        hgroup bracket body item hmem hitem (hreadable _ hmem).balanced
    refine ⟨?_, (forall_items_iff (fun _ _ => .nil) (by simp) hitemsOf).2 hinside⟩
    have hreprints := reprints_of_itemsOf hreads hitemsOf
    rw [← sources_flatMap_lexemes]
    refine (sameNesting_sources (forall₂_of_reprints _ hreprints (fun _ => .refl _) ?_)).trans
      hreads.sameNesting.symm
    intro bracket body item hmem hitem
    exact (balanced_bracket (hinside bracket body item hmem hitem)).sameNesting
      (balanced_bracket (hreadable _ hmem).balanced)

/-! ## Trees that are read as they are written -/

/--
Where an item has brackets, each level that is written inside them is clear, and between curly
brackets the blanks outside all inner brackets are those between the branches.
-/
def LegibleInside (vocabulary : Vocabulary) : Tree → Prop
  | .leaf _ _ => True
  | .sequence children _ => Clear vocabulary (children.flatMap lexemes)
  | .alternation children _ =>
      branches (renderBranches children) = children.map (renderAt true) ∧
        ∀ child ∈ children, Clear vocabulary child.row

instance (vocabulary : Vocabulary) : DecidablePred (LegibleInside vocabulary)
  | .leaf _ _ => isTrue trivial
  | .sequence _ _ => decidableClear vocabulary _
  | .alternation _ _ => instDecidableAnd

/-- The items are written as a clear row, and each of them is legible inside. -/
structure LegibleRow (vocabulary : Vocabulary) (items : List Tree) : Prop where
  clear : Clear vocabulary (items.flatMap lexemes)
  inside : ∀ item ∈ items, item.All (LegibleInside vocabulary)

/-- The tree is legible where it stands alone. -/
structure LegibleAlone (vocabulary : Vocabulary) (tree : Tree) : Prop where
  clear : Clear vocabulary tree.row
  inside : tree.All (LegibleInside vocabulary)

instance (vocabulary : Vocabulary) (tree : Tree) : Decidable (LegibleAlone vocabulary tree) :=
  decidable_of_iff (Clear vocabulary tree.row ∧ tree.All (LegibleInside vocabulary))
    ⟨fun h => ⟨h.1, h.2⟩, fun h => ⟨h.clear, h.inside⟩⟩

theorem legibleInside_withMark (mark : Mark) (item : Tree) :
    LegibleInside vocabulary (item.withMark mark) ↔ LegibleInside vocabulary item := by
  cases item <;> exact Iff.rfl

theorem all_legibleInside_withMark (mark : Mark) (item : Tree) :
    (item.withMark mark).All (LegibleInside vocabulary) ↔ item.All (LegibleInside vocabulary) := by
  rw [all_iff, all_iff, legibleInside_withMark, children_withMark]

theorem all_legibleInside_sequence_iff {children : List Tree} {mark : Mark} :
    (Tree.sequence children mark).All (LegibleInside vocabulary) ↔
      LegibleRow vocabulary children := by
  rw [all_iff]
  exact ⟨fun h => ⟨h.1, h.2⟩, fun h => ⟨h.clear, h.inside⟩⟩

theorem all_legibleInside_alternation_iff {children : List Tree} {mark : Mark} :
    (Tree.alternation children mark).All (LegibleInside vocabulary) ↔
      branches (renderBranches children) = children.map (renderAt true) ∧
        ∀ child ∈ children, LegibleAlone vocabulary child := by
  rw [all_iff, LegibleInside, and_assoc, Tree.children]
  refine and_congr_right fun _ => ?_
  rw [← forall₂_and]
  refine forall₂_congr fun child _ => ?_
  exact ⟨fun h => ⟨h.1, h.2⟩, fun h => ⟨h.clear, h.inside⟩⟩

theorem legibleAlone_ofBranch_iff {items : List Tree} (hne : items ≠ [])
    (hrow : (ofBranch items).row = items.flatMap lexemes) :
    LegibleAlone vocabulary (ofBranch items) ↔ LegibleRow vocabulary items := by
  rcases items with _ | ⟨item, _ | ⟨next, rest⟩⟩
  · exact absurd rfl hne
  · constructor
    · exact fun h => ⟨hrow ▸ h.clear, by simpa [ofBranch] using h.inside⟩
    · exact fun h => ⟨hrow.symm ▸ h.clear, h.inside item List.mem_cons_self⟩
  · constructor
    · exact fun h => all_legibleInside_sequence_iff.1 h.inside
    · exact fun h => ⟨hrow.symm ▸ h.clear, all_legibleInside_sequence_iff.2 h⟩

theorem Bracketless.render_beside {tree : Tree} (h : tree.Bracketless) :
    renderAt false tree = bracket .round tree.inside := by
  obtain ⟨children, rfl, -⟩ := h
  rw [← sources_lexemes, lexemes_of_plain rfl, unmarked, sources_cons, sources_nil, List.append_nil,
    Lexeme.source, Tree.inside]

/-! ## The written form is the shortest text -/

/--
What is written for the items is no longer than the text, and is the text only if it is legible.
-/
structure WrittenWithin (vocabulary : Vocabulary) (text : List Char) (items : List Tree) :
    Prop where
  length_le : (renderSequence items).length ≤ text.length
  legible_of_eq : renderSequence items = text → LegibleRow vocabulary items

theorem WrittenWithin.alone {text : List Char} {items : List Tree}
    (h : WrittenWithin vocabulary text items) (hne : items ≠ []) :
    (renderAt true (ofBranch items)).length ≤ text.length ∧
      (renderAt true (ofBranch items) = text → LegibleAlone vocabulary (ofBranch items)) := by
  rcases alone_cases hne with ⟨item, rfl, hgroup⟩ | ⟨hrender, hrow⟩
  · -- The brackets of the group were in the text, and there is no room for them.
    have hle := h.length_le
    rw [renderSequence, renderSequence, List.append_nil, hgroup.render_beside, bracket,
      List.length_cons, List.length_append] at hle
    rw [ofBranch, hgroup.render_alone]
    refine ⟨by omega, fun heq => ?_⟩
    have hlength := congrArg List.length heq
    omega
  · rw [hrender, legibleAlone_ofBranch_iff hne hrow]
    exact ⟨h.length_le, h.legible_of_eq⟩

theorem writtenWithin_of_parseLevel (text : List Char) (items : List Tree)
    (h : parseLevel vocabulary .start text = .ok items) : WrittenWithin vocabulary text items := by
  refine reading_induction (motive := WrittenWithin vocabulary)
    (fun _ body item => item.inside.length ≤ body.length ∧
      (item.inside = body → item.All (LegibleInside vocabulary))) ?_ ?_ ?_ text items h
  · intro body children _ _ hchildren
    rw [all_legibleInside_sequence_iff]
    exact ⟨hchildren.length_le, hchildren.legible_of_eq⟩
  · intro body children _ hchildren
    have halone : List.Forall₂ (fun part child =>
        (renderAt true child).length ≤ part.length ∧
          (renderAt true child = part → LegibleAlone vocabulary child))
        (branches body) children := by
      refine hchildren.imp fun part child hchild => ?_
      obtain ⟨items, hne, -, hitems, rfl⟩ := hchild
      exact hitems.alone hne
    have hshort := (parted_branches body).shortest
      (List.forall₂_map_right_iff.2 (halone.imp fun _ _ hchild => hchild.1))
    rw [all_legibleInside_alternation_iff, Tree.inside, renderBranches_eq_joinWith]
    refine ⟨hshort.1, fun heq => ?_⟩
    have hparts := hshort.2 heq
    refine ⟨by rw [heq, hparts], ?_⟩
    rw [← hparts, List.forall₂_map_left_iff, List.forall₂_same] at halone
    exact fun child hmem => (halone child hmem).2 rfl
  · intro text lexemes items hreads hitemsOf hgroup
    have hreprints := reprints_of_itemsOf hreads hitemsOf
    have hle : List.Forall₂
        (fun lexeme other : Lexeme => other.source.length ≤ lexeme.source.length)
        lexemes (items.flatMap Tree.lexemes) := by
      refine forall₂_of_reprints _ hreprints (fun _ => Nat.le_refl _) ?_
      intro bracket body item hmem hitem
      simpa [Lexeme.source, Tree.bracket] using (hgroup bracket body item hmem hitem).1
    obtain ⟨hlength, hsame⟩ := hreads.shortest hle
    rw [sources_flatMap_lexemes] at hlength hsame
    refine ⟨hlength, fun heq => ?_⟩
    obtain ⟨hclear, hsources⟩ := hsame heq
    have hinside := inside_eq_of_reprints hreprints hsources
    have hprinted : List.Forall₂ Eq lexemes (items.flatMap Tree.lexemes) := by
      refine forall₂_of_reprints _ hreprints (fun _ => rfl) ?_
      intro bracket body item hmem hitem
      rw [hinside bracket body item hmem hitem]
    rw [List.forall₂_eq_eq_eq] at hprinted
    refine ⟨hprinted ▸ hclear, ?_⟩
    refine (forall_items_iff (fun _ _ => trivial) all_legibleInside_withMark hitemsOf).2 ?_
    intro bracket body item hmem hitem
    exact (hgroup bracket body item hmem hitem).2 (hinside bracket body item hmem hitem)

/-! ## A legible text is read again -/

/-- What is written between the round brackets of the item is read again if it is legible. -/
def ReadAgain (vocabulary : Vocabulary) (item : Tree) : Prop :=
  ∀ children mark, item = .sequence children mark → LegibleRow vocabulary children →
    parseLevel vocabulary .start (renderSequence children) = .ok children

theorem readAgain_withMark (mark : Mark) (item : Tree) :
    ReadAgain vocabulary (item.withMark mark) ↔ ReadAgain vocabulary item := by
  cases item <;> simp [ReadAgain, withMark]

/-- The items are read again from what is written for them if it is legible. -/
structure RowReadAgain (vocabulary : Vocabulary) (items : List Tree) : Prop where
  row : LegibleRow vocabulary items →
    parseLevel vocabulary .start (renderSequence items) = .ok items
  inside : ∀ item ∈ items, ReadAgain vocabulary item

theorem RowReadAgain.alone {items : List Tree} (h : RowReadAgain vocabulary items)
    (hne : items ≠ []) (hlegible : LegibleAlone vocabulary (ofBranch items)) :
    ∃ others, others ≠ [] ∧ ofBranch others = ofBranch items ∧
      parseLevel vocabulary .start (renderAt true (ofBranch items)) = .ok others := by
  rcases alone_cases hne with ⟨item, rfl, hgroup⟩ | ⟨hrender, hrow⟩
  · -- Without its brackets the group is read as several items.
    obtain ⟨children, rfl, hlong⟩ := hgroup
    refine ⟨children, List.ne_nil_of_length_pos (by omega), ofBranch_of_long hlong, ?_⟩
    rw [ofBranch, Bracketless.render_alone ⟨children, rfl, hlong⟩]
    exact h.inside _ List.mem_cons_self children .plain rfl
      (all_legibleInside_sequence_iff.1 hlegible.inside)
  · rw [hrender]
    exact ⟨items, hne, rfl, h.row ((legibleAlone_ofBranch_iff hne hrow).1 hlegible)⟩

theorem foldlM_congr {lexemes printed : List Lexeme}
    (h : List.Forall₂ (fun lexeme other => ∀ level,
      absorb vocabulary level other = absorb vocabulary level lexeme) lexemes printed) :
    ∀ level, printed.foldlM (absorb vocabulary) level =
      lexemes.foldlM (absorb vocabulary) level := by
  induction h with
  | nil => exact fun _ => rfl
  | cons hfirst _ ih =>
      intro level
      rw [List.foldlM_cons, List.foldlM_cons, hfirst level, funext ih]

theorem parseLevel_of_reprints {text : List Char} {lexemes : List Lexeme} {items : List Tree}
    (hreads : Lexeme.Reads vocabulary.symbols text lexemes)
    (hitemsOf : itemsOf vocabulary lexemes = .ok items)
    (hclear : Clear vocabulary (items.flatMap Tree.lexemes))
    (hgroup : ∀ bracket body item, Lexeme.group bracket body ∈ lexemes →
      parseGroup vocabulary bracket body = .ok item →
        parseGroup vocabulary bracket item.inside = .ok item) :
    parseLevel vocabulary .start (renderSequence items) = .ok items := by
  have hreprints := reprints_of_itemsOf hreads hitemsOf
  have hnested := wellNested_of_parseLevel text items
    (parseLevel_eq_ok_iff_itemsOf.2 ⟨lexemes, hreads, hitemsOf⟩)
  have hreadable : ∀ other ∈ items.flatMap Tree.lexemes,
      other.Readable vocabulary := by
    have hinside := (forall_items_iff (fun _ _ => .nil) (by simp) hitemsOf).1 hnested.inside
    have hrows := forall₂_of_reprints (fun lexeme other =>
      lexeme.Readable vocabulary → other.Readable vocabulary) hreprints (fun _ => id) ?_
    · exact forall_mem_of_forall₂ hrows fun lexeme hmem other hother =>
        hother (hreads.readable lexeme hmem)
    · intro bracket body item hmem hitem _
      exact Lexeme.readable_group (hinside bracket body item hmem hitem)
  have hsame := forall₂_of_reprints (fun lexeme other => ∀ level,
    absorb vocabulary level other = absorb vocabulary level lexeme) hreprints
      (fun _ _ => rfl) (fun bracket body item hmem hitem level => by
        rw [absorb, absorb, hgroup bracket body item hmem hitem, hitem])
  rw [← sources_flatMap_lexemes, parseLevel_eq_ok_iff_itemsOf]
  refine ⟨_, hclear.reads hreadable, ?_⟩
  rw [itemsOf, foldlM_congr hsame]
  exact hitemsOf

theorem rowReadAgain_of_parseLevel (text : List Char) (items : List Tree)
    (h : parseLevel vocabulary .start text = .ok items) : RowReadAgain vocabulary items := by
  refine reading_induction (motive := fun _ => RowReadAgain vocabulary)
    (fun bracket _ item => ReadAgain vocabulary item ∧
      (item.All (LegibleInside vocabulary) →
        parseGroup vocabulary bracket item.inside = .ok item)) ?_ ?_ ?_ text items h
  · intro body children hne _ hchildren
    refine ⟨?_, fun hlegible => ?_⟩
    · intro others mark heq hlegible
      cases heq
      exact hchildren.row hlegible
    · rw [parseGroup, Tree.inside, hchildren.row (all_legibleInside_sequence_iff.1 hlegible)]
      cases children with
      | nil => exact absurd rfl hne
      | cons child rest => rfl
  · intro body children hne hchildren
    refine ⟨?_, fun hlegible => ?_⟩
    · intro others mark heq
      cases heq
    · rw [all_legibleInside_alternation_iff] at hlegible
      obtain ⟨hcut, halone⟩ := hlegible
      have hagain : ∀ child ∈ children, LegibleAlone vocabulary child →
          ∃ items, parseLevel vocabulary .start (renderAt true child) = .ok items ∧
            ofBranch items = child := by
        refine forall_mem_of_forall₂ hchildren fun part _ child hchild hlegible => ?_
        obtain ⟨items, hne, -, hitems, rfl⟩ := hchild
        obtain ⟨others, -, heq, hothers⟩ := hitems.alone hne hlegible
        exact ⟨others, hothers, heq⟩
      have hbranches : parseBranches vocabulary (children.map (renderAt true)) = .ok children := by
        rw [parseBranches_eq_ok_iff, List.forall₂_map_left_iff, List.forall₂_same]
        exact fun child hmem => hagain child hmem (halone child hmem)
      have hwritten : children.map (renderAt true) ≠ [] := by
        intro hnil
        rw [List.map_eq_nil_iff.1 hnil, List.forall₂_nil_right_iff] at hchildren
        exact hne hchildren
      rw [parseGroup, Tree.inside, hcut, hbranches, if_neg (by simpa using hwritten)]
      rfl
  · intro text lexemes items hreads hitemsOf hgroup
    refine ⟨fun hlegible => ?_, ?_⟩
    · have hinside := (forall_items_iff (fun _ _ => trivial) all_legibleInside_withMark
        hitemsOf).1 hlegible.inside
      refine parseLevel_of_reprints hreads hitemsOf hlegible.clear ?_
      intro bracket body item hmem hitem
      exact (hgroup bracket body item hmem hitem).2 (hinside bracket body item hmem hitem)
    · refine (forall_items_iff (fun content mark children mark' heq => ?_) readAgain_withMark
        hitemsOf).2 fun bracket body item hmem hitem => (hgroup bracket body item hmem hitem).1
      cases heq

/-! ## The two ends of the input -/

theorem renderBranches_blurEach (trees : List Tree) :
    renderBranches (blurEach trees) = renderBranches trees := by
  rw [renderBranches_eq_joinWith, renderBranches_eq_joinWith, blurEach_eq_map, List.map_map]
  simp only [Function.comp_def, renderAt_blur]

theorem lexemes_blur (tree : Tree) : tree.blur.lexemes = tree.lexemes := by
  rw [lexemes, lexemes, mark_blur]
  cases tree with
  | leaf content mark => cases content <;> rfl
  | sequence children mark =>
      rw [blur, unmarked, unmarked, renderSequence_eq_flatMap, renderSequence_eq_flatMap,
        blurEach_eq_map, List.flatMap_map]
      simp only [renderAt_blur]
  | alternation children mark => rw [blur, unmarked, unmarked, renderBranches_blurEach]

theorem flatMap_lexemes_blurEach (trees : List Tree) :
    (blurEach trees).flatMap lexemes = trees.flatMap lexemes := by
  rw [blurEach_eq_map, List.flatMap_map]
  simp only [lexemes_blur]

theorem row_blur (tree : Tree) : tree.blur.row = tree.row := by
  cases tree with
  | leaf content mark => exact lexemes_blur (.leaf content mark)
  | sequence children mark =>
      have hlength : (blurEach children).length = children.length := by
        rw [blurEach_eq_map, List.length_map]
      have hlexemes := lexemes_blur (.sequence children mark)
      rw [blur] at hlexemes
      rw [blur, row, row, hlength, flatMap_lexemes_blurEach, hlexemes]
  | alternation children mark => exact lexemes_blur (.alternation children mark)

theorem legibleInside_blur_iff (tree : Tree) :
    LegibleInside vocabulary tree.blur ↔ LegibleInside vocabulary tree := by
  cases tree with
  | leaf content mark => exact Iff.rfl
  | sequence children mark =>
      rw [blur, LegibleInside, LegibleInside, flatMap_lexemes_blurEach]
  | alternation children mark =>
      rw [blur, LegibleInside, LegibleInside, renderBranches_blurEach, blurEach_eq_map,
        List.map_map, List.forall_mem_map]
      simp only [Function.comp_def, renderAt_blur, row_blur]

/-- Which end of the input a boundary stands for makes no difference to what is written. -/
theorem legibleAlone_resolve_iff {first last : Bool} {tree : Tree} :
    LegibleAlone vocabulary (tree.resolve first last) ↔ LegibleAlone vocabulary tree := by
  have hblur : ∀ {tree : Tree},
      LegibleAlone vocabulary tree.blur ↔ LegibleAlone vocabulary tree := by
    intro tree
    constructor
    · intro h
      exact ⟨row_blur tree ▸ h.clear, (all_blur_iff legibleInside_blur_iff).1 h.inside⟩
    · intro h
      exact ⟨(row_blur tree).symm ▸ h.clear, (all_blur_iff legibleInside_blur_iff).2 h.inside⟩
  rw [← hblur, blur_resolve, hblur]

theorem render_resolve {first last : Bool} {tree : Tree} :
    (tree.resolve first last).render = tree.render := by
  rw [render, ← renderAt_blur, blur_resolve, renderAt_blur, render]

/-! ## Whole patterns -/

/--
The written form of a tree is legible with declared symbols: no two neighbouring characters are at
fault, and on each level that is written declared symbols and blanks are only where they are meant.
-/
structure Legible (vocabulary : Vocabulary) (tree : Tree) : Prop where
  adjacent : adjacencyFault tree.render = none
  alone : LegibleAlone vocabulary tree

instance (vocabulary : Vocabulary) (tree : Tree) : Decidable (Legible vocabulary tree) :=
  decidable_of_iff (adjacencyFault tree.render = none ∧ LegibleAlone vocabulary tree)
    ⟨fun h => ⟨h.1, h.2⟩, fun h => ⟨h.adjacent, h.alone⟩⟩

theorem legibleAlone_epsilon : LegibleAlone vocabulary (.leaf .epsilon .plain) :=
  ⟨trivial, trivial⟩

theorem legible_of_parse_render {tree : Tree}
    (h : parse vocabulary .forward tree.render = .ok tree) : tree.Legible vocabulary := by
  obtain ⟨items, hitems, hsettle⟩ := exists_items_of_parse h
  obtain ⟨-, htree⟩ := settle_eq_ok_iff.1 hsettle
  rw [orient] at htree
  have hadjacent : adjacencyFault tree.render = none := by
    unfold parse at h
    split at h
    · cases h
    · assumption
  refine ⟨hadjacent, ?_⟩
  rw [htree, legibleAlone_resolve_iff]
  by_cases hne : items = []
  · rw [hne]
    exact legibleAlone_epsilon
  · rw [ofItems_of_ne_nil hne] at htree ⊢
    rw [htree, render_resolve] at hitems
    exact ((writtenWithin_of_parseLevel _ items hitems).alone hne).2 rfl

/--
A tree that is read from any text is read again from its own written form exactly if that form is
legible, whatever symbols are declared.
-/
theorem parse_render_iff_legible {vocabulary : Vocabulary} {text : List Char} {tree : Tree}
    (h : parse vocabulary .forward text = .ok tree) :
    parse vocabulary .forward tree.render = .ok tree ↔ tree.Legible vocabulary := by
  refine ⟨legible_of_parse_render, fun hlegible => ?_⟩
  obtain ⟨items, hitems, hsettle⟩ := exists_items_of_parse h
  obtain ⟨-, htree⟩ := settle_eq_ok_iff.1 hsettle
  rw [orient] at htree
  have hagain : ∃ others, parseLevel vocabulary .start tree.render = .ok others ∧
      ofItems others = ofItems items := by
    rw [htree, render_resolve]
    by_cases hne : items = []
    · subst hne
      exact ⟨[], parseLevel_nil, rfl⟩
    · have halone := hlegible.alone
      rw [htree, legibleAlone_resolve_iff, ofItems_of_ne_nil hne] at halone
      obtain ⟨others, hothers, heq, hread⟩ :=
        (rowReadAgain_of_parseLevel text items hitems).alone hne halone
      rw [ofItems_of_ne_nil hne]
      exact ⟨others, hread, by rw [ofItems_of_ne_nil hothers, heq]⟩
  obtain ⟨others, hothers, heq⟩ := hagain
  have hsame : settle .forward others = settle .forward items := by rw [settle, settle, heq]
  rw [parse, hlegible.adjacent, ← hsettle, ← hsame, hothers]
  rfl

/-- A symbol that holds a blank stays in its brackets, and one that holds a bracket does no harm. -/
theorem parse_render_of_inner_blank :
    let vocabulary := Vocabulary.ofList [['a', ' ', 'b'], ['a', 'b'], ['b', ')']]
    let tree := Tree.sequence [.leaf .inputStart .plain,
      .alternation [.leaf (.literal ['a', 'b']) .plain,
        .sequence [.leaf (.literal ['a', ' ', 'b']) .plain] .plain] .plain,
      .leaf (.literal ['b', ')']) ⟨true, .once⟩, .leaf (.literal ['c']) ⟨false, .oneOrMore⟩] .plain
    tree.render = ['#', '{', 'a', 'b', ' ', '(', 'a', ' ', 'b', ')', '}', '!', 'b', ')', 'c', '+'] ∧
      tree.Legible vocabulary ∧ parse vocabulary .forward tree.render = .ok tree := by
  have hvocabulary : Vocabulary.ofList [['a', ' ', 'b'], ['a', 'b'], ['b', ')']] =
      ⟨[['a', ' ', 'b'], ['a', 'b'], ['b', ')']], by decide, by decide, by decide⟩ := rfl
  have hparse : parse (Vocabulary.ofList [['a', ' ', 'b'], ['a', 'b'], ['b', ')']]) .forward
      ['#', '{', 'a', 'b', ' ', ' ', '(', 'a', ' ', 'b', ')', '}', '!', ' ', 'b', ')', ' ', 'c',
        '+'] =
        .ok (.sequence [.leaf .inputStart .plain,
          .alternation [.leaf (.literal ['a', 'b']) .plain,
            .sequence [.leaf (.literal ['a', ' ', 'b']) .plain] .plain] .plain,
          .leaf (.literal ['b', ')']) ⟨true, .once⟩,
          .leaf (.literal ['c']) ⟨false, .oneOrMore⟩] .plain) := by
    rw [hvocabulary]
    cbv
  have hlegible : (Tree.sequence [.leaf .inputStart .plain,
      .alternation [.leaf (.literal ['a', 'b']) .plain,
        .sequence [.leaf (.literal ['a', ' ', 'b']) .plain] .plain] .plain,
      .leaf (.literal ['b', ')']) ⟨true, .once⟩,
      .leaf (.literal ['c']) ⟨false, .oneOrMore⟩] .plain).Legible
        (Vocabulary.ofList [['a', ' ', 'b'], ['a', 'b'], ['b', ')']]) := by
    decide
  exact ⟨by decide, hlegible, (parse_render_iff_legible hparse).2 hlegible⟩

/--
Two literals become one symbol where they are written side by side, a sign at the end of a symbol
comes to stand before a quantifier, and a group that is a branch loses the brackets around a blank.
-/
theorem parse_render_changed :
    (parse (Vocabulary.ofList [['a', 'b']]) .forward ['a', ' ', 'b'] =
        .ok (.sequence [.leaf (.literal ['a']) .plain, .leaf (.literal ['b']) .plain] .plain) ∧
      parse (Vocabulary.ofList [['a', 'b']]) .forward
        (Tree.sequence [.leaf (.literal ['a']) .plain,
          .leaf (.literal ['b']) .plain] .plain).render =
            .ok (.leaf (.literal ['a', 'b']) .plain)) ∧
    (parse (Vocabulary.ofList [['a', '!']]) .forward ['a', '!', ' ', '?'] =
        .ok (.leaf (.literal ['a', '!']) ⟨false, .optional⟩) ∧
      parse (Vocabulary.ofList [['a', '!']]) .forward
        (Tree.leaf (.literal ['a', '!']) ⟨false, .optional⟩).render = .error .negatedQuantifier) ∧
    (parse (Vocabulary.ofList [['a', ' ', 'b']]) .forward
        ['{', '(', 'a', ' ', 'b', 'c', ')', '}'] =
        .ok (.alternation [.sequence [.leaf (.literal ['a', ' ', 'b']) .plain,
          .leaf (.literal ['c']) .plain] .plain] .plain) ∧
      parse (Vocabulary.ofList [['a', ' ', 'b']]) .forward
        (Tree.alternation [.sequence [.leaf (.literal ['a', ' ', 'b']) .plain,
          .leaf (.literal ['c']) .plain] .plain] .plain).render =
            .ok (.alternation [.leaf (.literal ['a']) .plain,
              .sequence [.leaf (.literal ['b']) .plain, .leaf (.literal ['c']) .plain] .plain]
                .plain)) := by
  refine ⟨⟨?_, ?_⟩, ⟨?_, ?_⟩, ?_, ?_⟩ <;> cbv

end Tree

end Motif
