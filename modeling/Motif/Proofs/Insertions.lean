import Mathlib.Data.List.Infix
import Motif.Proofs.Declarations

/-!
# Histories of insertions

A macro table that is filled from nothing depends on its history in a simple way: its keys stand in
the order of their first insertion, and each has the expansions of its last one. What a key is
numbered once, it is numbered for ever, and reading all expansions from their other end may be done
before or after.
-/

namespace Motif

namespace MacroTable

variable {α : Type}

/-- One insertion into a table: of expansions as they are, or of literal texts to be read. -/
inductive Insertion (α : Type) where
  | insert (key : List Char) (expansions : List (List α))
  | declare (key : List Char) (literals : List (List Char))

namespace Insertion

def key : Insertion α → List Char
  | insert key _ => key
  | declare key _ => key

variable [Token α]

def expansions : Insertion α → List (List α)
  | insert _ expansions => expansions
  | declare _ literals => literals.map Token.ofLiteral

def run (table : MacroTable α) : Insertion α → MacroTable α
  | insert key expansions => table.insert key expansions
  | declare key literals => table.declare key literals

def reverse (insertion : Insertion α) : Insertion α :=
  insert insertion.key (insertion.expansions.map List.reverse)

theorem run_eq_insert (table : MacroTable α) (insertion : Insertion α) :
    insertion.run table = table.insert insertion.key insertion.expansions := by
  cases insertion <;> rfl

end Insertion

variable [Token α]

def ofInsertions (history : List (Insertion α)) : MacroTable α :=
  history.foldl Insertion.run ∅

@[simp] theorem ofInsertions_nil : ofInsertions ([] : List (Insertion α)) = ∅ :=
  rfl

theorem ofInsertions_append (history later : List (Insertion α)) :
    ofInsertions (history ++ later) = later.foldl Insertion.run (ofInsertions history) :=
  List.foldl_append

@[simp] theorem ofInsertions_concat (history : List (Insertion α)) (last : Insertion α) :
    ofInsertions (history ++ [last]) =
      (ofInsertions history).insert last.key last.expansions := by
  rw [ofInsertions_append, ← Insertion.run_eq_insert]
  rfl

/-! ## Keys and their numbers -/

theorem eraseDups_concat (names : List (List Char)) (name : List Char) :
    (names ++ [name]).eraseDups =
      if name ∈ names then names.eraseDups else names.eraseDups ++ [name] := by
  rw [List.eraseDups_append]
  by_cases hname : name ∈ names
  · simp [List.removeAll, hname]
  · simp [List.removeAll, hname, List.eraseDups_cons]

theorem keys_ofInsertions (history : List (Insertion α)) :
    (ofInsertions history).keys = (history.map Insertion.key).eraseDups := by
  induction history using List.reverseRecOn with
  | nil => rfl
  | append_singleton history last ih =>
      rw [ofInsertions_concat, keys_insert, ih, List.map_append, List.map_singleton,
        eraseDups_concat]
      simp only [List.mem_eraseDups]

omit [Token α] in
theorem keys_prefix_insert (table : MacroTable α) (key : List Char)
    (expansions : List (List α)) : table.keys <+: (table.insert key expansions).keys := by
  rw [keys_insert]
  split
  · exact List.prefix_refl _
  · exact List.prefix_append _ _

theorem keys_prefix_ofInsertions {history earlier : List (Insertion α)}
    (h : earlier <+: history) : (ofInsertions earlier).keys <+: (ofInsertions history).keys := by
  obtain ⟨later, rfl⟩ := h
  induction later using List.reverseRecOn with
  | nil => rw [List.append_nil]
  | append_singleton later last ih =>
      rw [← List.append_assoc, ofInsertions_concat]
      exact ih.trans (keys_prefix_insert _ last.key last.expansions)

omit [Token α] in
/-- A key keeps its number in a table that has only more keys behind it. -/
theorem id?_of_keys_prefix {table other : MacroTable α} (h : table.keys <+: other.keys)
    {key : List Char} {id : Nat} (hid : table.id? key = some id) :
    other.key? id = some key ∧ other.id? key = some id := by
  suffices hkey : other.key? id = some key from ⟨hkey, id?_eq_some_iff.2 hkey⟩
  obtain ⟨hlt, hget⟩ := List.getElem?_eq_some_iff.1 (id?_eq_some_iff.1 hid)
  rw [key?, ← hget, h.getElem hlt]
  exact List.getElem?_eq_getElem (Nat.lt_of_lt_of_le hlt h.length_le)

/-! ## Expansions -/

theorem get?_ofInsertions (history : List (Insertion α)) (key : List Char) :
    (ofInsertions history).get? key =
      (history.reverse.find? fun insertion => insertion.key = key).map Insertion.expansions := by
  induction history using List.reverseRecOn with
  | nil => rfl
  | append_singleton history last ih =>
      rw [ofInsertions_concat, get?_insert, ih, List.reverse_append, List.reverse_singleton,
        List.singleton_append, List.find?_cons]
      by_cases hkey : last.key = key <;> simp [hkey]

omit [Token α] in
theorem reverse_insert (table : MacroTable α) (key : List Char) (expansions : List (List α)) :
    (table.insert key expansions).reverse =
      table.reverse.insert key (expansions.map List.reverse) :=
  ext (map_replaceOrAppend (List.map List.reverse) key expansions table.entries)

/-- Reversing a table comes to the same as reversing all expansions that are inserted. -/
theorem reverse_ofInsertions (history : List (Insertion α)) :
    (ofInsertions history).reverse = ofInsertions (history.map Insertion.reverse) := by
  induction history using List.reverseRecOn with
  | nil => rfl
  | append_singleton history last ih =>
      rw [ofInsertions_concat, reverse_insert, ih, List.map_append, List.map_singleton,
        ofInsertions_concat]
      rfl

/--
After any history of insertions: every key that was inserted is there once, in the order of first
insertions, and has the expansions of its last insertion; a number that a key had at some time is
still its own; and to reverse the table is to insert every expansion reversed, with the same numbers
for the keys, and undone when it is done again.
-/
theorem ofInsertions_laws (history : List (Insertion α)) :
    (ofInsertions history).keys = (history.map Insertion.key).eraseDups ∧
    (∀ key, (ofInsertions history).get? key =
      (history.reverse.find? fun insertion => insertion.key = key).map Insertion.expansions) ∧
    (∀ earlier key id, earlier <+: history → (ofInsertions earlier).id? key = some id →
      (ofInsertions history).key? id = some key ∧ (ofInsertions history).id? key = some id) ∧
    (ofInsertions history).reverse = ofInsertions (history.map Insertion.reverse) ∧
    (ofInsertions history).reverse.keys = (ofInsertions history).keys ∧
    (∀ key, (ofInsertions history).reverse.id? key = (ofInsertions history).id? key) ∧
    (ofInsertions history).reverse.reverse = ofInsertions history :=
  ⟨keys_ofInsertions history, get?_ofInsertions history,
    fun _ _ _ hearlier => id?_of_keys_prefix (keys_prefix_ofInsertions hearlier),
    reverse_ofInsertions history, keys_reverse _, id?_reverse _, reverse_reverse _⟩

/-- A key that is inserted again keeps its place, and so does the key behind it. -/
theorem ofInsertions_laws_of_repeated_key :
    let earlier : List (Insertion Segment) :=
      [.declare ['V'] [['a', ' ', 'b']], .insert ['C'] [[⟨['p', 'f']⟩, ⟨['t']⟩]]]
    let history := earlier ++ [.declare ['V'] [['e'], ['i', ' ', 'u']]]
    (earlier <+: history ∧ (ofInsertions earlier).id? ['C'] = some 1 ∧
      (ofInsertions history).key? 1 = some ['C'] ∧
      (ofInsertions history).id? ['C'] = some 1) ∧
    (ofInsertions history).keys = [['V'], ['C']] ∧
    (ofInsertions history).get? ['V'] = some [[⟨['e']⟩], [⟨['i']⟩, ⟨['u']⟩]] ∧
    (ofInsertions history).reverse.get? ['C'] = some [[⟨['t']⟩, ⟨['p', 'f']⟩]] := by
  intro earlier history
  obtain ⟨hkeys, hget, hnumber, hreverse, -⟩ := ofInsertions_laws history
  have hearlier : earlier <+: history := List.prefix_append _ _
  have hid : (ofInsertions earlier).id? ['C'] = some 1 := by decide
  refine ⟨⟨hearlier, hid, hnumber earlier ['C'] 1 hearlier hid⟩, ?_, ?_, ?_⟩
  · rw [hkeys]
    decide
  · rw [hget]
    decide
  · rw [hreverse]
    decide

end MacroTable

end Motif
