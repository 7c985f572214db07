import Mathlib.Data.Nat.Init
import Mathlib.Logic.Basic
import Motif.Pattern.Parse
import Motif.Proofs.Boundaries

/-!
# What holds of every item

A property of items may hold of all items of a tree. If no item loses it by its mark, it holds of
all items that are read from a text, whatever symbols are declared; and what the property says of an
item without regard to the two ends of the input still holds after the tree is settled.
-/

namespace Motif

/-! ## Levels -/

namespace Level

variable {level next : Level} {item : Tree}

/-- An item can be negated exactly if it is a choice of literals. -/
theorem negated_eq_ok_iff {result : Tree} :
    negated item = .ok result ↔ item.choices ≠ none ∧ result = item.negate := by
  unfold negated
  split
  · rename_i hboundary
    rw [Bool.and_eq_true] at hboundary
    have hnone : item.choices = none := by
      cases item with
      | leaf content mark =>
          cases content with
          | boundary => rfl
          | literal text => cases hboundary.2
          | wildcard | inputStart | inputEnd | epsilon => rfl
      | sequence children mark => cases hboundary.1
      | alternation children mark => cases hboundary.1
    simp [hnone]
  · cases hchoices : item.choices with
    | none => simp
    | some texts => simp [eq_comm]

theorem add_eq_ok_iff :
    level.add item = .ok next ↔
      level.negating = false ∧ next = ⟨item :: level.finished, false⟩ ∨
        level.negating = true ∧ item.choices ≠ none ∧
          next = ⟨item.negate :: level.finished, false⟩ := by
  unfold add
  cases level.negating with
  | false => simp [@eq_comm _ next]
  | true =>
      rw [if_pos rfl]
      constructor
      · intro hadd
        split at hadd
        · rename_i result hresult
          obtain ⟨hchoices, rfl⟩ := negated_eq_ok_iff.1 hresult
          cases hadd
          exact Or.inr ⟨rfl, hchoices, rfl⟩
        · cases hadd
      · intro h
        rcases h with ⟨hplain, -⟩ | ⟨-, hchoices, rfl⟩
        · cases hplain
        · rw [negated_eq_ok_iff.2 ⟨hchoices, rfl⟩]

theorem readQuantifier_eq_ok_iff {quantifier : Quantifier} :
    level.readQuantifier quantifier = .ok next ↔
      ∃ item earlier, level = ⟨item :: earlier, false⟩ ∧ item.mark.quantifier = .once ∧
        item.hasBoundary = false ∧ next = ⟨item.quantify quantifier :: earlier, false⟩ := by
  obtain ⟨finished, negating⟩ := level
  cases negating with
  | true => simp [readQuantifier]
  | false =>
      cases finished with
      | nil => simp [readQuantifier]
      | cons item earlier =>
          by_cases honce : item.mark.quantifier = .once
          · cases hplain : item.hasBoundary <;>
              simp [readQuantifier, honce, hplain, and_assoc, @eq_comm _ next]
          · simp [readQuantifier, honce]

theorem close_eq_ok_iff {items : List Tree} :
    level.close = .ok items ↔ level.negating = false ∧ items = level.finished.reverse := by
  unfold close
  cases level.negating <;> simp [@eq_comm _ items]

end Level

theorem length_le_totalLength {text : List Char} {texts : List (List Char)} (h : text ∈ texts) :
    text.length ≤ totalLength texts :=
  (List.sublist_flatten_of_mem h).length_le

namespace Tree

/-! ## Items below items -/

mutual

/-- The property holds of the item and of all items below it. -/
def All (property : Tree → Prop) : Tree → Prop
  | .leaf content mark => property (.leaf content mark)
  | .sequence children mark => property (.sequence children mark) ∧ AllEach property children
  | .alternation children mark => property (.alternation children mark) ∧ AllEach property children

def AllEach (property : Tree → Prop) : List Tree → Prop
  | [] => True
  | child :: rest => All property child ∧ AllEach property rest

end

variable {property : Tree → Prop}

theorem allEach_iff {trees : List Tree} :
    AllEach property trees ↔ ∀ tree ∈ trees, tree.All property := by
  induction trees with
  | nil => simp [AllEach]
  | cons child rest ih => rw [AllEach, ih, List.forall_mem_cons]

theorem all_iff {tree : Tree} :
    tree.All property ↔
      property tree ∧ ∀ child ∈ tree.children, child.All property := by
  cases tree with
  | leaf content mark => simp [All, children]
  | sequence children mark => rw [All, allEach_iff, Tree.children]
  | alternation children mark => rw [All, allEach_iff, Tree.children]

mutual

def decidableAll [DecidablePred property] : (tree : Tree) → Decidable (tree.All property)
  | .leaf content mark => inferInstanceAs (Decidable (property (.leaf content mark)))
  | .sequence children mark =>
      @instDecidableAnd (property (.sequence children mark)) _ _ (decidableAllEach children)
  | .alternation children mark =>
      @instDecidableAnd (property (.alternation children mark)) _ _ (decidableAllEach children)

def decidableAllEach [DecidablePred property] :
    (trees : List Tree) → Decidable (AllEach property trees)
  | [] => isTrue trivial
  | child :: rest => @instDecidableAnd _ _ (decidableAll child) (decidableAllEach rest)

end

instance [DecidablePred property] (tree : Tree) : Decidable (tree.All property) :=
  decidableAll tree

theorem children_blur (tree : Tree) : tree.blur.children = tree.children.map blur := by
  cases tree with
  | leaf content mark => rfl
  | sequence children mark => exact blurEach_eq_map children
  | alternation children mark => exact blurEach_eq_map children

theorem mem_children_flip {tree child : Tree} :
    child ∈ tree.flip.children ↔ child ∈ tree.children.map flip := by
  cases tree with
  | leaf content mark => rfl
  | sequence children mark =>
      simp only [flip, Tree.children, flipEach_eq_map, List.mem_reverse]
  | alternation children mark => simp only [flip, Tree.children, flipEach_eq_map]

/-- A property holds of all items after a change of trees if it holds of each item changed. -/
theorem all_change_iff {change : Tree → Tree}
    (hchildren : ∀ tree child, child ∈ (change tree).children ↔
      child ∈ tree.children.map change) {tree : Tree} :
    (change tree).All property ↔ tree.All fun item => property (change item) := by
  induction tree using children_induction with
  | item tree ih =>
      rw [all_iff, all_iff]
      simp only [hchildren, List.forall_mem_map]
      exact and_congr Iff.rfl (forall₂_congr ih)

theorem all_blur {tree : Tree} :
    tree.blur.All property ↔ tree.All fun item => property item.blur :=
  all_change_iff fun tree child => by rw [children_blur]

theorem all_blur_iff (h : ∀ item : Tree, property item.blur ↔ property item) {tree : Tree} :
    tree.blur.All property ↔ tree.All property := by
  rw [all_blur, funext fun item => propext (h item)]

theorem all_flip_iff (h : ∀ item : Tree, property item.flip ↔ property item) {tree : Tree} :
    tree.flip.All property ↔ tree.All property := by
  rw [all_change_iff fun _ _ => mem_children_flip, funext fun item => propext (h item)]

/-! ## Items that are read -/

theorem settle_eq_ok_iff {direction : Direction} {items : List Tree} {tree : Tree} :
    settle direction items = .ok tree ↔
      (ofItems items).AtEdges true true ∧
        tree = ((ofItems items).resolve true true).orient direction := by
  rw [← hasBoundary_resolve_iff]
  unfold settle
  cases hresolved : ((ofItems items).resolve true true).hasBoundary <;>
    simp [hresolved, @eq_comm _ tree]

/-- What is read from a text is settled from the items of its outermost level. -/
theorem exists_items_of_parse {vocabulary : Vocabulary} {direction : Direction} {text : List Char}
    {tree : Tree} (h : parse vocabulary direction text = .ok tree) :
    ∃ items, parseLevel vocabulary .start text = .ok items ∧
      settle direction items = .ok tree := by
  unfold parse at h
  split at h
  · cases h
  · exact bind_eq_ok_iff.1 h

/--
A property that has nothing to do with the ends of the input holds of all items of a tree if it
holds of all items of which the tree is settled.
-/
theorem all_of_settle (hblur : ∀ item : Tree, property item.blur ↔ property item)
    (hflip : ∀ item : Tree, property item.flip ↔ property item) {direction : Direction}
    {items : List Tree} {tree : Tree} (h : settle direction items = .ok tree)
    (hitems : (ofItems items).All property) : tree.All property := by
  obtain ⟨hedges, rfl⟩ := settle_eq_ok_iff.1 h
  have hall : ((ofItems items).resolve true true).All property := by
    rwa [← all_blur_iff hblur, blur_resolve, all_blur_iff hblur]
  cases direction with
  | forward => exact hall
  | backward =>
      rw [orient, reverse_of_resolved (hasBoundary_resolve_iff.2 hedges), all_flip_iff hflip]
      exact hall

theorem resolved_of_parse {vocabulary : Vocabulary} {direction : Direction} {text : List Char}
    {tree : Tree} (h : parse vocabulary direction text = .ok tree) : tree.hasBoundary = false := by
  obtain ⟨items, -, hsettle⟩ := exists_items_of_parse h
  obtain ⟨hedges, rfl⟩ := settle_eq_ok_iff.1 hsettle
  have hresolved := hasBoundary_resolve_iff.2 hedges
  cases direction with
  | forward => exact hresolved
  | backward => rwa [orient, reverse_of_resolved hresolved, hasBoundary_flip]

/--
Every item that can be read has the property as long as it bears no mark, and keeps it when it is
negated or repeated as a pattern allows it. An end of the input is not read but resolved later.
-/
structure Kept (property : Tree → Prop) : Prop where
  leaf : ∀ content, content.blur = content → property (.leaf content .plain)
  group : ∀ item, item.mark = .plain → item.isLeaf = false → property item
  negate : ∀ item, item.choices ≠ none → property item → property item.negate
  quantify : ∀ item quantifier, item.hasBoundary = false → property item →
    property (item.quantify quantifier)

namespace Kept

variable {vocabulary : Vocabulary} {level next : Level} {item : Tree} {items : List Tree}

theorem all_negate (h : Kept property) (hchoices : item.choices ≠ none)
    (hitem : item.All property) : item.negate.All property := by
  obtain ⟨hown, hchildren⟩ := all_iff.1 hitem
  refine all_iff.2 ⟨h.negate item hchoices hown, ?_⟩
  rwa [Tree.negate, children_withMark]

theorem all_quantify (h : Kept property) (quantifier : Quantifier)
    (hplain : item.hasBoundary = false) (hitem : item.All property) :
    (item.quantify quantifier).All property := by
  obtain ⟨hown, hchildren⟩ := all_iff.1 hitem
  refine all_iff.2 ⟨h.quantify item quantifier hplain hown, ?_⟩
  rwa [Tree.quantify, children_withMark]

theorem all_ofBranch (h : Kept property)
    (hitems : ∀ item ∈ items, item.All property) : (ofBranch items).All property := by
  rcases items with _ | ⟨item, _ | ⟨next, rest⟩⟩
  · exact all_iff.2 ⟨h.group _ rfl rfl, hitems⟩
  · exact hitems item List.mem_cons_self
  · exact all_iff.2 ⟨h.group _ rfl rfl, hitems⟩

theorem all_ofItems (h : Kept property)
    (hitems : ∀ item ∈ items, item.All property) : (ofItems items).All property := by
  cases items with
  | nil => exact h.leaf .epsilon rfl
  | cons item rest => exact h.all_ofBranch hitems

theorem of_add (h : Kept property) (hitem : item.All property)
    (hlevel : ∀ earlier ∈ level.finished, earlier.All property)
    (hadd : level.add item = .ok next) :
    ∀ earlier ∈ next.finished, earlier.All property := by
  rcases Level.add_eq_ok_iff.1 hadd with ⟨-, rfl⟩ | ⟨-, hchoices, rfl⟩
  · exact List.forall_mem_cons.2 ⟨hitem, hlevel⟩
  · exact List.forall_mem_cons.2 ⟨h.all_negate hchoices hitem, hlevel⟩

/-- A lexeme adds nothing to a level without the property, if no group does. -/
theorem of_absorb (h : Kept property) {lexeme : Lexeme}
    (hgroup : ∀ bracket body, lexeme = .group bracket body →
      ∀ item, parseGroup vocabulary bracket body = .ok item → item.All property)
    (hlevel : ∀ earlier ∈ level.finished, earlier.All property)
    (habsorb : absorb vocabulary level lexeme = .ok next) :
    ∀ earlier ∈ next.finished, earlier.All property := by
  have hleaf : ∀ content, content.blur = content →
      level.add (.leaf content .plain) = .ok next →
        ∀ earlier ∈ next.finished, earlier.All property :=
    fun content hblur => h.of_add (h.leaf content hblur) hlevel
  cases lexeme with
  | symbol text | wildcard | boundary =>
      rw [absorb] at habsorb
      exact hleaf _ rfl habsorb
  | negation =>
      rw [absorb, Level.readNegation] at habsorb
      split at habsorb
      · cases habsorb
      · cases habsorb
        exact hlevel
  | quantifier quantifier =>
      rw [absorb] at habsorb
      obtain ⟨item, earlier, rfl, -, hplain, rfl⟩ := Level.readQuantifier_eq_ok_iff.1 habsorb
      rw [List.forall_mem_cons] at hlevel
      exact List.forall_mem_cons.2 ⟨h.all_quantify quantifier hplain hlevel.1, hlevel.2⟩
  | group bracket body =>
      rw [absorb] at habsorb
      obtain ⟨item, hitem, hadd⟩ := bind_eq_ok_iff.1 habsorb
      exact h.of_add (hgroup bracket body rfl item hitem) hlevel hadd

theorem of_parseBranches (h : Kept property) :
    ∀ {texts : List (List Char)} {items : List Tree},
      (∀ text ∈ texts, ∀ items,
        parseLevel vocabulary .start text = .ok items →
          ∀ item ∈ items, item.All property) →
      parseBranches vocabulary texts = .ok items →
        ∀ item ∈ items, item.All property := by
  intro texts
  induction texts with
  | nil =>
      intro items _ hread
      rw [parseBranches] at hread
      cases hread
      simp
  | cons text rest ih =>
      intro items hlevel hread
      rw [List.forall_mem_cons] at hlevel
      rw [parseBranches] at hread
      obtain ⟨own, hown, hread⟩ := bind_eq_ok_iff.1 hread
      obtain ⟨others, hothers, heq⟩ := bind_eq_ok_iff.1 hread
      cases heq
      exact List.forall_mem_cons.2
        ⟨h.all_ofBranch (hlevel.1 own hown), ih hlevel.2 hothers⟩

/-- A group has the property if all items have it that are read from a text no longer than its. -/
theorem of_parseGroup (h : Kept property) {bracket : Bracket} {body : List Char}
    (ih : ∀ text, text.length ≤ body.length → ∀ items,
      parseLevel vocabulary .start text = .ok items →
        ∀ item ∈ items, item.All property)
    (hread : parseGroup vocabulary bracket body = .ok item) : item.All property := by
  cases bracket with
  | round =>
      simp only [parseGroup] at hread
      obtain ⟨children, hchildren, hread⟩ := bind_eq_ok_iff.1 hread
      split at hread
      · cases hread
      · cases hread
        exact all_iff.2 ⟨h.group _ rfl rfl, ih body (Nat.le_refl _) children hchildren⟩
  | curly =>
      simp only [parseGroup] at hread
      split at hread
      · cases hread
      · obtain ⟨children, hchildren, heq⟩ := bind_eq_ok_iff.1 hread
        cases heq
        refine all_iff.2 ⟨h.group _ rfl rfl, h.of_parseBranches ?_ hchildren⟩
        intro text htext
        exact ih text (Nat.le_trans (length_le_totalLength htext) (totalLength_branches_le body))

/-- Every item that is read has the property if the items of the level have it already. -/
theorem of_parseLevel (h : Kept property) (text : List Char) :
    ∀ {level : Level} {items : List Tree},
      (∀ item ∈ level.finished, item.All property) →
        parseLevel vocabulary level text = .ok items →
          ∀ item ∈ items, item.All property := by
  -- The text of a group is a level of its own, so the induction is on the length of the text.
  induction hlength : text.length using Nat.strong_induction_on generalizing text with
  | _ length ih =>
      intro level items hlevel hread
      cases hfirst : Lexeme.readFirst vocabulary.symbols text with
      | error fault =>
          rw [parseLevel_of_error hfirst] at hread
          cases hread
      | ok found =>
          cases found with
          | none =>
              rw [parseLevel_of_none hfirst, Level.close] at hread
              split at hread
              · cases hread
              · cases hread
                exact fun item hmem => hlevel item (List.mem_reverse.1 hmem)
          | some found =>
              obtain ⟨lexeme, rest⟩ := found
              have hshorter := Lexeme.length_lt_of_readFirst vocabulary.ne_nil_of_mem hfirst
              rw [parseLevel_of_some hfirst] at hread
              obtain ⟨next, habsorb, hrest⟩ := bind_eq_ok_iff.1 hread
              refine ih rest.length (by omega) rest rfl (h.of_absorb ?_ hlevel habsorb) hrest
              intro bracket body heq item hitem
              subst heq
              have hbody : body.length < length := by
                simp only [Lexeme.unread] at hshorter
                omega
              refine h.of_parseGroup (fun inner hinner items => ?_) hitem
              exact ih inner.length (by omega) inner rfl (by simp [Level.start])

theorem of_parseText (h : Kept property) {text : List Char}
    (hread : parseLevel vocabulary .start text = .ok items) : (ofItems items).All property :=
  h.all_ofItems (h.of_parseLevel text (by simp [Level.start]) hread)

/--
Every item of a tree that is read has the property, if it has nothing to do with the ends of the
input.
-/
theorem of_parse (h : Kept property)
    (hblur : ∀ item : Tree, property item.blur ↔ property item)
    (hflip : ∀ item : Tree, property item.flip ↔ property item)
    {direction : Direction} {text : List Char} {tree : Tree}
    (hread : parse vocabulary direction text = .ok tree) : tree.All property := by
  obtain ⟨items, hitems, hsettle⟩ := exists_items_of_parse hread
  exact all_of_settle hblur hflip hsettle (h.of_parseText hitems)

end Kept

end Tree

end Motif
