import Motif.Token

/-!
# Macro tables

A macro is a key that stands for several token sequences, its expansions. A table keeps its keys in
the order of their first insertion, each once, so the position of a key is a stable id. Inserting a
key again replaces its expansions in place.
-/

namespace Motif

/-- Macro keys with their expansions, in the order in which the keys were first inserted. -/
structure MacroTable (α : Type) where
  entries : List (List Char × List (List α)) := []
  keys_nodup : (entries.map Prod.fst).Nodup := by simp
deriving DecidableEq

namespace MacroTable

variable {α : Type}

instance : EmptyCollection (MacroTable α) :=
  ⟨{}⟩

instance : Inhabited (MacroTable α) :=
  ⟨∅⟩

/-- The entries with the expansions of `key` replaced, or with a last entry added for it. -/
def replaceOrAppend (key : List Char) (expansions : List (List α)) :
    List (List Char × List (List α)) → List (List Char × List (List α))
  | [] => [(key, expansions)]
  | entry :: rest =>
      if entry.1 = key then
        (key, expansions) :: rest
      else
        entry :: replaceOrAppend key expansions rest

theorem map_fst_replaceOrAppend (key : List Char) (expansions : List (List α))
    (entries : List (List Char × List (List α))) :
    (replaceOrAppend key expansions entries).map Prod.fst =
      if key ∈ entries.map Prod.fst then entries.map Prod.fst
      else entries.map Prod.fst ++ [key] := by
  induction entries with
  | nil => simp [replaceOrAppend]
  | cons entry rest ih =>
      by_cases hkey : entry.1 = key
      · simp [replaceOrAppend, hkey]
      · have hne : ¬ key = entry.1 := fun h => hkey h.symm
        simp only [replaceOrAppend, if_neg hkey, List.map_cons, ih, List.mem_cons, hne, false_or]
        split <;> simp

theorem nodup_map_fst_replaceOrAppend (key : List Char) (expansions : List (List α))
    {entries : List (List Char × List (List α))} (h : (entries.map Prod.fst).Nodup) :
    ((replaceOrAppend key expansions entries).map Prod.fst).Nodup := by
  rw [map_fst_replaceOrAppend]
  split
  · exact h
  · rename_i hkey
    exact List.nodup_append.2 ⟨h, by simp, by simpa using fun a b hb hak => hkey (by simp_all)⟩

/-- A change of all expansions may be made before the replacement or after it. -/
theorem map_replaceOrAppend {β : Type} (change : List (List α) → List (List β)) (key : List Char)
    (expansions : List (List α)) (entries : List (List Char × List (List α))) :
    (replaceOrAppend key expansions entries).map (fun entry => (entry.1, change entry.2)) =
      replaceOrAppend key (change expansions)
        (entries.map fun entry => (entry.1, change entry.2)) := by
  induction entries with
  | nil => rfl
  | cons entry rest ih =>
      simp only [replaceOrAppend, List.map_cons]
      split
      · rfl
      · rw [List.map_cons, ih]

/-- Give `key` these expansions in place of any it has; a key not seen before goes last. -/
def insert (table : MacroTable α) (key : List Char) (expansions : List (List α)) :
    MacroTable α where
  entries := replaceOrAppend key expansions table.entries
  keys_nodup := nodup_map_fst_replaceOrAppend key expansions table.keys_nodup

def declare [Token α] (table : MacroTable α) (key : List Char)
    (literals : List (List Char)) : MacroTable α :=
  table.insert key (literals.map Token.ofLiteral)

/-- The table after inserting the declared keys in turn. -/
def ofDeclarations [Token α] (declared : List (List Char × List (List Char))) : MacroTable α :=
  declared.foldl (fun table entry => table.declare entry.1 entry.2) ∅

def keys (table : MacroTable α) : List (List Char) :=
  table.entries.map Prod.fst

/-- The id of a key: its position among the keys. -/
def id? (table : MacroTable α) (key : List Char) : Option Nat :=
  table.keys.idxOf? key

/-- The expansions under an id, in the order given; none for an id that the table does not have. -/
def expansions (table : MacroTable α) (id : Nat) : List (List α) :=
  (table.entries[id]?.map Prod.snd).getD []

def get? (table : MacroTable α) (key : List Char) : Option (List (List α)) :=
  (table.id? key).map table.expansions

def key? (table : MacroTable α) (id : Nat) : Option (List Char) :=
  table.keys[id]?

def size (table : MacroTable α) : Nat :=
  table.entries.length

/-- The same keys with every expansion read from its other end. -/
def reverse (table : MacroTable α) : MacroTable α where
  entries := table.entries.map fun entry => (entry.1, entry.2.map List.reverse)
  keys_nodup := by simpa [Function.comp_def] using table.keys_nodup

theorem ext {table other : MacroTable α} (h : table.entries = other.entries) : table = other := by
  cases table
  cases other
  cases h
  rfl

@[simp] theorem keys_empty : (∅ : MacroTable α).keys = [] :=
  rfl

theorem nodup_keys (table : MacroTable α) : table.keys.Nodup :=
  table.keys_nodup

/-- An insertion keeps every key in its place, and adds a new one at the end. -/
theorem keys_insert (table : MacroTable α) (key : List Char) (expansions : List (List α)) :
    (table.insert key expansions).keys =
      if key ∈ table.keys then table.keys else table.keys ++ [key] :=
  map_fst_replaceOrAppend key expansions table.entries

@[simp] theorem keys_reverse (table : MacroTable α) : table.reverse.keys = table.keys := by
  simp [keys, reverse, Function.comp_def]

@[simp] theorem id?_reverse (table : MacroTable α) (key : List Char) :
    table.reverse.id? key = table.id? key := by
  simp [id?]

@[simp] theorem expansions_reverse (table : MacroTable α) (id : Nat) :
    table.reverse.expansions id = (table.expansions id).map List.reverse := by
  cases h : table.entries[id]? <;> simp [expansions, reverse, h]

@[simp] theorem reverse_reverse (table : MacroTable α) : table.reverse.reverse = table := by
  apply ext
  simp [reverse, Function.comp_def]

/-- An id and a key belong to each other exactly when the key stands at that position. -/
theorem id?_eq_some_iff {table : MacroTable α} {key : List Char} {id : Nat} :
    table.id? key = some id ↔ table.key? id = some key := by
  rw [id?, key?, List.idxOf?_eq_some_iff]
  constructor
  · rintro ⟨hid, hkey, -⟩
    rw [List.getElem?_eq_getElem hid, hkey]
  · intro h
    obtain ⟨hid, hkey⟩ := List.getElem?_eq_some_iff.1 h
    refine ⟨hid, hkey, ?_⟩
    intro j hj hjkey
    have hne := List.pairwise_iff_getElem.1 table.nodup_keys j id (by omega) hid hj
    exact hne (hjkey.trans hkey.symm)

end MacroTable

end Motif
