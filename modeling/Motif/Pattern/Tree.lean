import Motif.Pattern.Sign

/-!
# Pattern trees

A pattern is a tree of items. Each item carries a mark: whether it is negated, and how often it is
repeated. The functions on trees come in pairs, one for a tree and one for a list of children; the
list half is always the tree half mapped over the list.
-/

namespace Motif

/-- What stands at a leaf of a pattern. -/
inductive Leaf where
  /-- A literal text or the key of a macro. -/
  | literal (text : List Char)
  /-- Any one token that is no boundary marker. -/
  | wildcard
  /-- A boundary sign of which it is not yet known whether it stands first or last. -/
  | boundary
  /-- The place before the first token. -/
  | inputStart
  /-- The place after the last token. -/
  | inputEnd
  /-- Nothing at all, which is always there. -/
  | epsilon
deriving DecidableEq

/-- What is written around an item: a negation sign before it and a quantifier after it. -/
structure Mark where
  negated : Bool
  quantifier : Quantifier
deriving DecidableEq

def Mark.plain : Mark :=
  ⟨false, .once⟩

/-- An item of a pattern. -/
inductive Tree where
  | leaf (content : Leaf) (mark : Mark)
  /-- The children match one after another. -/
  | sequence (children : List Tree) (mark : Mark)
  /-- One of the children matches. -/
  | alternation (children : List Tree) (mark : Mark)

namespace Tree

instance : Inhabited Tree :=
  ⟨leaf .epsilon .plain⟩

/-- A statement holds of every tree if it passes from the children of an item to the item. -/
@[elab_as_elim, induction_eliminator]
theorem induction {motive : Tree → Prop}
    (leaf : ∀ content mark, motive (.leaf content mark))
    (sequence : ∀ children mark,
      (∀ child ∈ children, motive child) → motive (.sequence children mark))
    (alternation : ∀ children mark,
      (∀ child ∈ children, motive child) → motive (.alternation children mark)) :
    ∀ tree, motive tree
  | .leaf content mark => leaf content mark
  | .sequence children mark =>
      sequence children mark fun child _ => induction leaf sequence alternation child
  | .alternation children mark =>
      alternation children mark fun child _ => induction leaf sequence alternation child

mutual

def decideEq : (tree other : Tree) → Decidable (tree = other)
  | .leaf content mark, .leaf content' mark' =>
      decidable_of_iff (content = content' ∧ mark = mark') (by simp)
  | .sequence children mark, .sequence children' mark' =>
      match decideEqAll children children' with
      | isTrue h => decidable_of_iff (mark = mark') (by simp [h])
      | isFalse h => isFalse (by simp [h])
  | .alternation children mark, .alternation children' mark' =>
      match decideEqAll children children' with
      | isTrue h => decidable_of_iff (mark = mark') (by simp [h])
      | isFalse h => isFalse (by simp [h])
  | .leaf _ _, .sequence _ _ => isFalse (by simp)
  | .leaf _ _, .alternation _ _ => isFalse (by simp)
  | .sequence _ _, .leaf _ _ => isFalse (by simp)
  | .sequence _ _, .alternation _ _ => isFalse (by simp)
  | .alternation _ _, .leaf _ _ => isFalse (by simp)
  | .alternation _ _, .sequence _ _ => isFalse (by simp)

def decideEqAll : (trees others : List Tree) → Decidable (trees = others)
  | [], [] => isTrue rfl
  | [], _ :: _ => isFalse (by simp)
  | _ :: _, [] => isFalse (by simp)
  | tree :: trees, other :: others =>
      match decideEq tree other, decideEqAll trees others with
      | isTrue h, isTrue hrest => isTrue (by rw [h, hrest])
      | isFalse h, _ => isFalse (by simp [h])
      | _, isFalse h => isFalse (by simp [h])

end

instance : DecidableEq Tree :=
  decideEq

def mark : Tree → Mark
  | .leaf _ mark => mark
  | .sequence _ mark => mark
  | .alternation _ mark => mark

def withMark (mark : Mark) : Tree → Tree
  | .leaf content _ => .leaf content mark
  | .sequence children _ => .sequence children mark
  | .alternation children _ => .alternation children mark

def negate (tree : Tree) : Tree :=
  tree.withMark { tree.mark with negated := true }

def quantify (quantifier : Quantifier) (tree : Tree) : Tree :=
  tree.withMark { tree.mark with quantifier := quantifier }

def children : Tree → List Tree
  | .leaf _ _ => []
  | .sequence children _ => children
  | .alternation children _ => children

@[elab_as_elim]
theorem children_induction {motive : Tree → Prop}
    (item : ∀ tree, (∀ child ∈ tree.children, motive child) → motive tree)
    (tree : Tree) : motive tree := by
  induction tree with
  | leaf content mark => exact item (.leaf content mark) fun _ h => absurd h List.not_mem_nil
  | sequence children mark ih => exact item (.sequence children mark) ih
  | alternation children mark ih => exact item (.alternation children mark) ih

def isLeaf : Tree → Bool
  | .leaf _ _ => true
  | .sequence _ _ => false
  | .alternation _ _ => false

mutual

def size : Tree → Nat
  | .leaf _ _ => 1
  | .sequence children _ => 1 + sizeAll children
  | .alternation children _ => 1 + sizeAll children

def sizeAll : List Tree → Nat
  | [] => 0
  | child :: rest => size child + sizeAll rest

end

mutual

def hasBoundary : Tree → Bool
  | .leaf content _ => content = .boundary
  | .sequence children _ => anyHasBoundary children
  | .alternation children _ => anyHasBoundary children

def anyHasBoundary : List Tree → Bool
  | [] => false
  | child :: rest => hasBoundary child || anyHasBoundary rest

end

mutual

/--
The literals between which a negated item would choose, if it is such a choice: a literal, a group
of one plain choice, or an alternation of plain choices. The mark of the item itself does not
matter.
-/
def choices : Tree → Option (List (List Char))
  | .leaf (.literal text) _ => some [text]
  | .leaf _ _ => none
  | .sequence [child] _ => if child.mark = .plain then choices child else none
  | .sequence _ _ => none
  | .alternation children _ => choicesAll children

/-- The literals of all the trees in order, if each is a plain choice. -/
def choicesAll : List Tree → Option (List (List Char))
  | [] => some []
  | child :: rest =>
      if child.mark = .plain then
        match choices child, choicesAll rest with
        | some texts, some more => some (texts ++ more)
        | _, _ => none
      else
        none

end

@[simp] theorem mark_withMark (mark : Mark) (tree : Tree) : (tree.withMark mark).mark = mark := by
  cases tree <;> rfl

@[simp] theorem withMark_mark (tree : Tree) : tree.withMark tree.mark = tree := by
  cases tree <;> rfl

@[simp] theorem withMark_withMark (mark mark' : Mark) (tree : Tree) :
    (tree.withMark mark').withMark mark = tree.withMark mark := by
  cases tree <;> rfl

@[simp] theorem children_withMark (mark : Mark) (tree : Tree) :
    (tree.withMark mark).children = tree.children := by
  cases tree <;> rfl

theorem size_eq (tree : Tree) : tree.size = 1 + sizeAll tree.children := by
  cases tree <;> rfl

theorem anyHasBoundary_eq_any (trees : List Tree) :
    anyHasBoundary trees = trees.any hasBoundary := by
  induction trees with
  | nil => simp [anyHasBoundary]
  | cons child rest ih => simp [anyHasBoundary, ih]

@[simp] theorem hasBoundary_withMark (mark : Mark) (tree : Tree) :
    (tree.withMark mark).hasBoundary = tree.hasBoundary := by
  cases tree <;> simp [withMark, hasBoundary]

@[simp] theorem choices_withMark (mark : Mark) (tree : Tree) :
    (tree.withMark mark).choices = tree.choices := by
  cases tree with
  | leaf content mark' => cases content <;> simp [withMark, choices]
  | sequence children mark' =>
      rcases children with _ | ⟨child, _ | ⟨next, rest⟩⟩ <;> simp [withMark, choices]
  | alternation children mark' => simp [withMark, choices]

end Tree

end Motif
