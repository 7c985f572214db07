import Motif.MacroTable

/-!
# Labels

What an arc of a graph has to see in the input to be passed, and how far passing it moves. An atom
is a single thing to see; a label is nothing, one atom, or one token at which none of several atoms
is seen.
-/

namespace Motif

/-- One thing to see at an index of the input. -/
inductive Atom (α : Type) where
  | literal (tokens : List α)
  /-- Any expansion of the macro with this id. -/
  | macroRef (id : Nat)
  | wildcard
  | inputStart
  | inputEnd
deriving DecidableEq

inductive Label (α : Type) where
  /-- Nothing. -/
  | epsilon
  | take (atom : Atom α)
  /-- One token at which none of the atoms is seen. -/
  | exclude (atoms : List (Atom α))
deriving DecidableEq

variable {α : Type} [DecidableEq α] [Token α]

/--
The index after an atom that is seen at `index`, if it is. Of the expansions of a macro the first
that fits counts, even if a later one is longer.
-/
def Atom.pass? (table : MacroTable α) (input : Array α) (index : Nat) : Atom α → Option Nat
  | .literal tokens =>
      if Token.occursAt input index tokens then some (index + tokens.length) else none
  | .macroRef id =>
      match (table.expansions id).find? (Token.occursAt input index) with
      | some tokens => some (index + tokens.length)
      | none => none
  | .wildcard => if Token.isOrdinaryAt input index then some (index + 1) else none
  | .inputStart => if index = 0 then some index else none
  | .inputEnd => if index = input.size then some index else none

/-- The index after passing an arc with this label from `index`, if it can be passed. -/
def Label.pass? (table : MacroTable α) (input : Array α) (index : Nat) : Label α → Option Nat
  | .epsilon => some index
  | .take atom => atom.pass? table input index
  | .exclude atoms =>
      if Token.isOrdinaryAt input index &&
          atoms.all fun atom => (atom.pass? table input index).isNone then
        some (index + 1)
      else
        none

/-- An atom that is seen inside the input moves forward and not beyond its end. -/
theorem Atom.bounds_of_pass? {table : MacroTable α} {input : Array α} {index next : Nat}
    {atom : Atom α} (hindex : index ≤ input.size)
    (h : atom.pass? table input index = some next) : index ≤ next ∧ next ≤ input.size := by
  unfold Atom.pass? at h
  split at h
  · split at h
    · rename_i hstarts
      have hle := Token.add_length_le_of_occursAt hstarts
      cases h
      omega
    · cases h
  · split at h
    · rename_i tokens hfind
      have hle := Token.add_length_le_of_occursAt (List.find?_some hfind)
      cases h
      omega
    · cases h
  · split at h
    · rename_i hordinary
      simp only [Token.isOrdinaryAt, Bool.and_eq_true, decide_eq_true_eq] at hordinary
      cases h
      omega
    · cases h
  · split at h
    · cases h
      omega
    · cases h
  · split at h
    · cases h
      omega
    · cases h

theorem Label.bounds_of_pass? {table : MacroTable α} {input : Array α} {index next : Nat}
    {label : Label α} (hindex : index ≤ input.size)
    (h : label.pass? table input index = some next) : index ≤ next ∧ next ≤ input.size := by
  unfold Label.pass? at h
  split at h
  · cases h
    omega
  · exact Atom.bounds_of_pass? hindex h
  · split at h
    · rename_i hclear
      simp only [Token.isOrdinaryAt, Bool.and_eq_true, decide_eq_true_eq] at hclear
      cases h
      omega
    · cases h

end Motif
