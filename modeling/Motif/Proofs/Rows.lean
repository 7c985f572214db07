import Motif.Proofs.Brackets
import Motif.Proofs.Parts

/-!
# Rows of lexemes

A tree is written level by level: each item is a lexeme, with a negation sign before it and a
quantifier after it if it has them, and what stands between a pair of brackets is a level of its
own. The items that are read from a text are written as the lexemes that were read, except that the
text of a group may change.
-/

namespace Motif

def sources (lexemes : List Lexeme) : List Char :=
  lexemes.flatMap Lexeme.source

@[simp] theorem sources_nil : sources [] = [] :=
  rfl

@[simp] theorem sources_cons (lexeme : Lexeme) (rest : List Lexeme) :
    sources (lexeme :: rest) = lexeme.source ++ sources rest :=
  rfl

@[simp] theorem sources_append (first second : List Lexeme) :
    sources (first ++ second) = sources first ++ sources second :=
  List.flatMap_append

def Leaf.lexemes : Leaf → List Lexeme
  | .literal text => [.symbol text]
  | .wildcard => [.wildcard]
  | .boundary => [.boundary]
  | .inputStart => [.boundary]
  | .inputEnd => [.boundary]
  | .epsilon => []

def negationLexemes (negated : Bool) : List Lexeme :=
  if negated then [.negation] else []

namespace Mark

/-- The lexemes of an item between its negation sign and its quantifier. -/
def around (mark : Mark) (own : List Lexeme) : List Lexeme :=
  negationLexemes mark.negated ++ own ++
    if mark.quantifier = .once then [] else [.quantifier mark.quantifier]

@[simp] theorem around_plain (own : List Lexeme) : Mark.plain.around own = own := by
  simp [around, negationLexemes, plain]

theorem sources_around (mark : Mark) (own : List Lexeme) :
    sources (mark.around own) = mark.surround (sources own) := by
  obtain ⟨negated, quantifier⟩ := mark
  cases negated <;> cases quantifier <;>
    simp [around, negationLexemes, surround, sign, Quantifier.suffix, Lexeme.source]

end Mark

namespace Tree

variable {vocabulary : Vocabulary}

/-- What is written between the brackets of a group. -/
def inside : Tree → List Char
  | .leaf _ _ => []
  | .sequence children _ => renderSequence children
  | .alternation children _ => renderBranches children

def unmarked : Tree → List Lexeme
  | .leaf content _ => content.lexemes
  | .sequence children _ => [.group .round (renderSequence children)]
  | .alternation children _ => [.group .curly (renderBranches children)]

/-- The lexemes of an item that stands beside others. -/
def lexemes (tree : Tree) : List Lexeme :=
  tree.mark.around tree.unmarked

/-- The tree stands without brackets if it stands alone. -/
def Bracketless (tree : Tree) : Prop :=
  ∃ children, tree = .sequence children .plain ∧ 1 < children.length

/-- The lexemes of a tree that stands alone. -/
def row : Tree → List Lexeme
  | .sequence children mark =>
      if mark = .plain ∧ 1 < children.length then
        children.flatMap lexemes
      else
        lexemes (.sequence children mark)
  | tree => tree.lexemes

@[simp] theorem inside_withMark (mark : Mark) (tree : Tree) :
    (tree.withMark mark).inside = tree.inside := by
  cases tree <;> rfl

@[simp] theorem unmarked_withMark (mark : Mark) (tree : Tree) :
    (tree.withMark mark).unmarked = tree.unmarked := by
  cases tree <;> rfl

theorem lexemes_withMark (mark : Mark) (tree : Tree) :
    (tree.withMark mark).lexemes = mark.around tree.unmarked := by
  rw [lexemes, mark_withMark, unmarked_withMark]

theorem lexemes_of_plain {tree : Tree} (h : tree.mark = .plain) : tree.lexemes = tree.unmarked := by
  rw [lexemes, h, Mark.around_plain]

theorem sources_lexemes (tree : Tree) : sources tree.lexemes = renderAt false tree := by
  rw [lexemes, Mark.sources_around]
  cases tree with
  | leaf content mark =>
      rw [renderAt]
      cases content <;> simp [unmarked, Leaf.lexemes, Lexeme.source, Leaf.render, Tree.mark]
  | sequence children mark =>
      rw [renderAt, if_neg (by simp)]
      simp [Lexeme.source, unmarked, Tree.mark]
  | alternation children mark =>
      rw [renderAt]
      simp [Lexeme.source, unmarked, Tree.mark]

theorem sources_flatMap_lexemes (trees : List Tree) :
    sources (trees.flatMap lexemes) = renderSequence trees := by
  induction trees with
  | nil => rfl
  | cons tree rest ih =>
      rw [List.flatMap_cons, sources_append, ih, sources_lexemes, renderSequence]

theorem renderAt_true_of_not_bracketless {tree : Tree} (h : ¬ tree.Bracketless) :
    renderAt true tree = renderAt false tree := by
  cases tree with
  | leaf content mark => rw [renderAt, renderAt]
  | sequence children mark =>
      rw [renderAt, renderAt, if_neg, if_neg (by simp)]
      intro hbare
      simp only [Bool.true_and, Bool.and_eq_true, decide_eq_true_eq] at hbare
      exact h ⟨children, by rw [hbare.1], hbare.2⟩
  | alternation children mark => rw [renderAt, renderAt]

theorem Bracketless.render_alone {tree : Tree} (h : tree.Bracketless) :
    renderAt true tree = tree.inside := by
  obtain ⟨children, rfl, hlong⟩ := h
  rw [renderAt, if_pos (by simp [hlong]), inside]

theorem row_of_not_bracketless {tree : Tree} (h : ¬ tree.Bracketless) :
    tree.row = tree.lexemes := by
  cases tree with
  | leaf content mark => rfl
  | sequence children mark =>
      rw [row, if_neg]
      intro hbare
      exact h ⟨children, by rw [hbare.1], hbare.2⟩
  | alternation children mark => rfl

theorem Bracketless.row {tree : Tree} (h : tree.Bracketless) :
    tree.row = tree.children.flatMap lexemes := by
  obtain ⟨children, rfl, hlong⟩ := h
  rw [Tree.row, if_pos ⟨rfl, hlong⟩, Tree.children]

/-! ## Items and the lexemes they are read from -/

theorem parseGroup_eq_ok {bracket : Bracket} {body : List Char} {item : Tree}
    (h : parseGroup vocabulary bracket body = .ok item) :
    item.mark = .plain ∧ item.unmarked = [.group bracket item.inside] := by
  cases bracket with
  | round =>
      rw [parseGroup] at h
      obtain ⟨children, -, h⟩ := bind_eq_ok_iff.1 h
      split at h
      · cases h
      · cases h
        exact ⟨rfl, rfl⟩
  | curly =>
      rw [parseGroup] at h
      split at h
      · cases h
      · obtain ⟨children, -, h⟩ := bind_eq_ok_iff.1 h
        cases h
        exact ⟨rfl, rfl⟩

/--
How a lexeme is written again: a group as the brackets around what is written for its content, and
any other lexeme as itself.
-/
def Reprints (vocabulary : Vocabulary) (lexeme printed : Lexeme) : Prop :=
  match lexeme with
  | .group bracket body =>
      ∃ item, parseGroup vocabulary bracket body = .ok item ∧
        printed = .group bracket item.inside
  | _ => printed = lexeme

end Tree

namespace Level

/-- The lexemes of the items of a level, and of the negation sign that waits for one. -/
def lexemes (level : Level) : List Lexeme :=
  level.finished.reverse.flatMap Tree.lexemes ++ negationLexemes level.negating

theorem lexemes_add {level next : Level} {item : Tree} {lexeme : Lexeme}
    (hmark : item.mark = .plain) (hitem : item.unmarked = [lexeme])
    (h : level.add item = .ok next) : next.lexemes = level.lexemes ++ [lexeme] := by
  obtain ⟨finished, negating⟩ := level
  rcases add_eq_ok_iff.1 h with ⟨hplain, rfl⟩ | ⟨hnegating, -, rfl⟩
  · cases hplain
    simp [lexemes, negationLexemes, Tree.lexemes_of_plain hmark, hitem]
  · cases hnegating
    have hnegate : item.negate.lexemes = [.negation, lexeme] := by
      rw [Tree.negate, Tree.lexemes_withMark, hmark, hitem]
      rfl
    simp [lexemes, negationLexemes, hnegate]

theorem lexemes_readNegation {level next : Level} (h : level.readNegation = .ok next) :
    next.lexemes = level.lexemes ++ [.negation] := by
  obtain ⟨finished, negating⟩ := level
  cases negating with
  | true => cases h
  | false =>
      cases h
      simp [lexemes, negationLexemes]

theorem lexemes_readQuantifier {level next : Level} {quantifier : Quantifier}
    (hne : quantifier ≠ .once) (h : level.readQuantifier quantifier = .ok next) :
    next.lexemes = level.lexemes ++ [.quantifier quantifier] := by
  obtain ⟨item, earlier, rfl, honce, -, rfl⟩ := readQuantifier_eq_ok_iff.1 h
  have hquantify : (item.quantify quantifier).lexemes =
      item.lexemes ++ [.quantifier quantifier] := by
    rw [Tree.quantify, Tree.lexemes_withMark, Tree.lexemes, Mark.around, Mark.around, honce,
      if_neg hne, if_pos rfl, List.append_nil]
  simp [lexemes, negationLexemes, hquantify]

end Level

namespace Tree

variable {vocabulary : Vocabulary}

/-- What a lexeme adds to a level is written as the lexeme is written again. -/
theorem exists_reprints_of_absorb {level next : Level} {lexeme : Lexeme}
    (hne : lexeme ≠ .quantifier .once) (h : absorb vocabulary level lexeme = .ok next) :
    ∃ printed, Reprints vocabulary lexeme printed ∧
      next.lexemes = level.lexemes ++ [printed] := by
  cases lexeme with
  | symbol text | wildcard | boundary =>
      rw [absorb] at h
      exact ⟨_, rfl, Level.lexemes_add rfl rfl h⟩
  | negation =>
      rw [absorb] at h
      exact ⟨_, rfl, Level.lexemes_readNegation h⟩
  | quantifier quantifier =>
      rw [absorb] at h
      refine ⟨_, rfl, Level.lexemes_readQuantifier ?_ h⟩
      intro heq
      exact hne (by rw [heq])
  | group bracket body =>
      rw [absorb] at h
      obtain ⟨item, hitem, hadd⟩ := bind_eq_ok_iff.1 h
      obtain ⟨hmark, hlexemes⟩ := parseGroup_eq_ok hitem
      exact ⟨_, ⟨item, hitem, rfl⟩, Level.lexemes_add hmark hlexemes hadd⟩

theorem exists_reprints_of_foldlM {lexemes : List Lexeme}
    (hne : ∀ lexeme ∈ lexemes, lexeme ≠ .quantifier .once) :
    ∀ {level last : Level}, lexemes.foldlM (absorb vocabulary) level = .ok last →
      ∃ printed, List.Forall₂ (Reprints vocabulary) lexemes printed ∧
        last.lexemes = level.lexemes ++ printed := by
  induction lexemes with
  | nil =>
      intro level last h
      cases h
      exact ⟨[], .nil, (List.append_nil _).symm⟩
  | cons lexeme rest ih =>
      intro level last h
      rw [List.forall_mem_cons] at hne
      rw [List.foldlM_cons] at h
      obtain ⟨next, hnext, hrest⟩ := bind_eq_ok_iff.1 h
      obtain ⟨first, hfirst, hadded⟩ := exists_reprints_of_absorb hne.1 hnext
      obtain ⟨printed, hprinted, heq⟩ := ih hne.2 hrest
      refine ⟨first :: printed, .cons hfirst hprinted, ?_⟩
      rw [heq, hadded, List.append_assoc, List.singleton_append]

/-- The items that are put together from lexemes are written as the lexemes are written again. -/
theorem reprints_of_itemsOf {text : List Char} {lexemes : List Lexeme} {items : List Tree}
    (hreads : Lexeme.Reads vocabulary.symbols text lexemes)
    (h : itemsOf vocabulary lexemes = .ok items) :
    List.Forall₂ (Reprints vocabulary) lexemes (items.flatMap Tree.lexemes) := by
  have hne : ∀ lexeme ∈ lexemes, lexeme ≠ .quantifier .once :=
    fun lexeme hmem => (hreads.readable lexeme hmem).ne_once
  obtain ⟨last, hfold, hclose⟩ := bind_eq_ok_iff.1 h
  obtain ⟨hwaiting, rfl⟩ := Level.close_eq_ok_iff.1 hclose
  obtain ⟨printed, hprinted, heq⟩ := exists_reprints_of_foldlM hne hfold
  have hrow : last.finished.reverse.flatMap Tree.lexemes = printed := by
    simpa [Level.lexemes, Level.start, hwaiting, negationLexemes] using heq
  rwa [hrow]

/--
What holds of each lexeme and itself, and of each group and the group that is written for it, holds
of lexemes and the lexemes that are written for them.
-/
theorem forall₂_of_reprints (relation : Lexeme → Lexeme → Prop) {lexemes printed : List Lexeme}
    (h : List.Forall₂ (Reprints vocabulary) lexemes printed)
    (hself : ∀ lexeme, relation lexeme lexeme)
    (hgroup : ∀ bracket body item, Lexeme.group bracket body ∈ lexemes →
      parseGroup vocabulary bracket body = .ok item →
        relation (.group bracket body) (.group bracket item.inside)) :
    List.Forall₂ relation lexemes printed := by
  induction h with
  | nil => exact .nil
  | @cons lexeme other rest others hfirst _ ih =>
      refine .cons ?_ (ih fun bracket body item hmem =>
        hgroup bracket body item (List.mem_cons_of_mem _ hmem))
      cases lexeme with
      | group bracket body =>
          obtain ⟨item, hitem, rfl⟩ := hfirst
          exact hgroup bracket body item List.mem_cons_self hitem
      | symbol text | wildcard | boundary | negation =>
          rw [show other = _ from hfirst]
          exact hself _
      | quantifier kind =>
          rw [show other = _ from hfirst]
          exact hself _

theorem inside_eq_of_reprints {lexemes printed : List Lexeme}
    (h : List.Forall₂ (Reprints vocabulary) lexemes printed)
    (hsame : List.Forall₂ (fun lexeme other => other.source = lexeme.source) lexemes printed) :
    ∀ bracket body item, Lexeme.group bracket body ∈ lexemes →
      parseGroup vocabulary bracket body = .ok item → item.inside = body := by
  induction h with
  | nil => simp
  | @cons lexeme other rest others hfirst _ ih =>
      cases hsame with
      | cons hsource hrest =>
          intro bracket body item hmem hitem
          rcases List.mem_cons.1 hmem with rfl | hmem
          · obtain ⟨item', hitem', rfl⟩ := hfirst
            rw [hitem] at hitem'
            cases hitem'
            simpa [Lexeme.source, Tree.bracket] using hsource
          · exact ih hrest bracket body item hmem hitem

section Finished

variable {property : Tree → Prop} {level next last : Level}

theorem forall_finished_add_iff
    (hmark : ∀ mark item, property (.withMark mark item) ↔ property item) {item : Tree}
    (h : level.add item = .ok next) :
    (∀ earlier ∈ next.finished, property earlier) ↔
      property item ∧ ∀ earlier ∈ level.finished, property earlier := by
  rcases Level.add_eq_ok_iff.1 h with ⟨-, rfl⟩ | ⟨-, -, rfl⟩
  · rw [List.forall_mem_cons]
  · rw [List.forall_mem_cons, negate, hmark]

/--
What every leaf has and no mark changes holds of all items after a lexeme exactly if it held of all
items before and holds of the group that was read, if any.
-/
theorem forall_finished_absorb_iff
    (hleaf : ∀ content mark, property (.leaf content mark))
    (hmark : ∀ mark item, property (.withMark mark item) ↔ property item) {lexeme : Lexeme}
    (h : absorb vocabulary level lexeme = .ok next) :
    (∀ item ∈ next.finished, property item) ↔
      (∀ item ∈ level.finished, property item) ∧
        ∀ bracket body item, lexeme = .group bracket body →
          parseGroup vocabulary bracket body = .ok item → property item := by
  have hnone : (∀ bracket body, lexeme ≠ .group bracket body) →
      ((∀ item ∈ next.finished, property item) ↔
        ∀ item ∈ level.finished, property item) →
        ((∀ item ∈ next.finished, property item) ↔
          (∀ item ∈ level.finished, property item) ∧
            ∀ bracket body item, lexeme = .group bracket body →
              parseGroup vocabulary bracket body = .ok item → property item) := by
    intro hne hiff
    rw [hiff]
    exact (and_iff_left fun bracket body item heq => absurd heq (hne bracket body)).symm
  cases lexeme with
  | symbol text | wildcard | boundary =>
      rw [absorb] at h
      refine hnone (by simp) ?_
      rw [forall_finished_add_iff hmark h]
      exact and_iff_right (hleaf _ _)
  | negation =>
      rw [absorb, Level.readNegation] at h
      split at h
      · cases h
      · cases h
        exact hnone (by simp) Iff.rfl
  | quantifier quantifier =>
      rw [absorb] at h
      obtain ⟨item, earlier, rfl, -, -, rfl⟩ := Level.readQuantifier_eq_ok_iff.1 h
      refine hnone (by simp) ?_
      rw [List.forall_mem_cons, List.forall_mem_cons, quantify, hmark]
  | group bracket body =>
      rw [absorb] at h
      obtain ⟨item, hitem, hadd⟩ := bind_eq_ok_iff.1 h
      rw [forall_finished_add_iff hmark hadd, and_comm]
      refine and_congr_right fun _ => ?_
      constructor
      · intro hown bracket' body' item' heq hitem'
        cases heq
        rw [hitem] at hitem'
        cases hitem'
        exact hown
      · exact fun hall => hall bracket body item rfl hitem

theorem forall_finished_foldlM_iff
    (hleaf : ∀ content mark, property (.leaf content mark))
    (hmark : ∀ mark item, property (.withMark mark item) ↔ property item)
    {lexemes : List Lexeme} :
    ∀ {level : Level}, lexemes.foldlM (absorb vocabulary) level = .ok last →
      ((∀ item ∈ last.finished, property item) ↔
        (∀ item ∈ level.finished, property item) ∧
          ∀ bracket body item, Lexeme.group bracket body ∈ lexemes →
            parseGroup vocabulary bracket body = .ok item → property item) := by
  induction lexemes with
  | nil =>
      intro level h
      cases h
      simp
  | cons lexeme rest ih =>
      intro level h
      rw [List.foldlM_cons] at h
      obtain ⟨next, hnext, hrest⟩ := bind_eq_ok_iff.1 h
      rw [ih hrest, forall_finished_absorb_iff hleaf hmark hnext, and_assoc]
      refine and_congr_right fun _ => ?_
      simp only [List.mem_cons, or_imp, forall_and, @eq_comm _ lexeme]

theorem forall_items_iff
    (hleaf : ∀ content mark, property (.leaf content mark))
    (hmark : ∀ mark item, property (.withMark mark item) ↔ property item)
    {lexemes : List Lexeme} {items : List Tree} (h : itemsOf vocabulary lexemes = .ok items) :
    (∀ item ∈ items, property item) ↔
      ∀ bracket body item, Lexeme.group bracket body ∈ lexemes →
        parseGroup vocabulary bracket body = .ok item → property item := by
  obtain ⟨last, hfold, hclose⟩ := bind_eq_ok_iff.1 h
  obtain ⟨-, rfl⟩ := Level.close_eq_ok_iff.1 hclose
  simp only [List.mem_reverse]
  rw [forall_finished_foldlM_iff hleaf hmark hfold]
  exact and_iff_right (by simp [Level.start])

end Finished

/-! ## Levels inside levels -/

theorem forall_mem_of_forall₂ {α β : Type} {relation : α → β → Prop} {property : β → Prop}
    {first : List α} {second : List β} (h : List.Forall₂ relation first second)
    (hproperty : ∀ a ∈ first, ∀ b, relation a b → property b) :
    ∀ b ∈ second, property b := by
  induction h with
  | nil => simp
  | cons hhead _ ih =>
      rw [List.forall_mem_cons] at hproperty
      exact List.forall_mem_cons.2 ⟨hproperty.1 _ hhead, ih hproperty.2⟩

theorem parseBranches_eq_ok_iff {texts : List (List Char)} :
    ∀ {children : List Tree}, parseBranches vocabulary texts = .ok children ↔
      List.Forall₂ (fun text child => ∃ items,
        parseLevel vocabulary .start text = .ok items ∧ ofBranch items = child) texts children := by
  induction texts with
  | nil =>
      intro children
      rw [parseBranches, List.forall₂_nil_left_iff, Except.ok.injEq, eq_comm]
  | cons text rest ih =>
      intro children
      rw [parseBranches, bind_eq_ok_iff]
      constructor
      · intro h
        rcases h with ⟨items, hitems, h⟩
        obtain ⟨others, hothers, heq⟩ := bind_eq_ok_iff.1 h
        cases heq
        exact .cons ⟨items, hitems, rfl⟩ (ih.1 hothers)
      · intro h
        cases h with
        | cons hfirst hothers =>
            obtain ⟨items, hitems, rfl⟩ := hfirst
            exact ⟨items, hitems, bind_eq_ok_iff.2 ⟨_, ih.2 hothers, rfl⟩⟩

/--
What holds of a level if it holds of all groups on it, and of a group if it holds of the levels
inside it, holds of every level that is read.
-/
theorem reading_induction {motive : List Char → List Tree → Prop}
    (inner : Bracket → List Char → Tree → Prop)
    (round : ∀ body children, children ≠ [] →
      parseLevel vocabulary .start body = .ok children → motive body children →
        inner .round body (.sequence children .plain))
    (curly : ∀ body children, branches body ≠ [] →
      List.Forall₂ (fun part child => ∃ items, items ≠ [] ∧
        parseLevel vocabulary .start part = .ok items ∧ motive part items ∧
          ofBranch items = child) (branches body) children →
        inner .curly body (.alternation children .plain))
    (level : ∀ text lexemes items, Lexeme.Reads vocabulary.symbols text lexemes →
      itemsOf vocabulary lexemes = .ok items →
        (∀ bracket body item, Lexeme.group bracket body ∈ lexemes →
          parseGroup vocabulary bracket body = .ok item → inner bracket body item) →
          motive text items) :
    ∀ text items, parseLevel vocabulary .start text = .ok items → motive text items := by
  intro text
  induction hlength : text.length using Nat.strong_induction_on generalizing text with
  | _ length ih =>
      intro items h
      obtain ⟨lexemes, hreads, hitemsOf⟩ := parseLevel_eq_ok_iff_itemsOf.1 h
      refine level text lexemes items hreads hitemsOf ?_
      intro bracket body item hmem hitem
      have hbody : body.length + 1 < text.length := hreads.unread_lt _ hmem
      cases bracket with
      | round =>
          rw [parseGroup] at hitem
          obtain ⟨children, hchildren, hitem⟩ := bind_eq_ok_iff.1 hitem
          split at hitem
          · cases hitem
          · rename_i hne
            cases hitem
            exact round body children (by simpa using hne) hchildren
              (ih body.length (by omega) body rfl children hchildren)
      | curly =>
          rw [parseGroup] at hitem
          split at hitem
          · cases hitem
          · rename_i hne
            obtain ⟨children, hchildren, heq⟩ := bind_eq_ok_iff.1 hitem
            cases heq
            refine curly body children (by simpa using hne) ?_
            have hparts := (List.forall₂_and_left _ _).2
              ⟨fun part => id, parseBranches_eq_ok_iff.1 hchildren⟩
            refine hparts.imp fun part child hchild => ?_
            obtain ⟨hpart, items, hitems, heq⟩ := hchild
            have hle := Nat.le_trans (length_le_totalLength hpart) (totalLength_branches_le body)
            have hblank := (parted_branches body).all_isBlank_eq_false part hpart
            exact ⟨items, ne_nil_of_parseLevel hblank hitems, hitems,
              ih part.length (by omega) part rfl items hitems, heq⟩

end Tree

end Motif
