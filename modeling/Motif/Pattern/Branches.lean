import Motif.Pattern.Sign
import Motif.Text

/-!
# Branches

The text between curly brackets is cut into branches at the blanks that stand outside all inner
brackets. Both kinds of bracket count alike, and a closing bracket with nothing to close counts for
nothing.
-/

namespace Motif

/--
The depth after a character: one more after an opening bracket, one less after a closing one, but
never below zero.
-/
def depthAfter (depth : Nat) (c : Char) : Nat :=
  match Sign.ofChar? c with
  | some (.opening _) => depth + 1
  | some (.closing _) => depth - 1
  | _ => depth

/--
The branches of a text at some depth, after the characters `reversed` of an unfinished branch,
latest first.
-/
def branchesFrom (depth : Nat) (reversed : List Char) : List Char → List (List Char)
  | [] => Text.finishWord reversed
  | c :: rest =>
      if Text.isBlank c && depthAfter depth c = 0 then
        Text.finishWord reversed ++ branchesFrom (depthAfter depth c) [] rest
      else
        branchesFrom (depthAfter depth c) (c :: reversed) rest

def branches (body : List Char) : List (List Char) :=
  branchesFrom 0 [] body

def totalLength (texts : List (List Char)) : Nat :=
  texts.flatten.length

theorem totalLength_finishWord (reversed : List Char) :
    totalLength (Text.finishWord reversed) = reversed.length := by
  cases reversed <;> simp [Text.finishWord, totalLength]

theorem totalLength_branchesFrom_le {body : List Char} :
    ∀ {depth : Nat} {reversed : List Char},
      totalLength (branchesFrom depth reversed body) ≤ reversed.length + body.length := by
  induction body with
  | nil =>
      intro depth reversed
      simp [branchesFrom, totalLength_finishWord]
  | cons c rest ih =>
      intro depth reversed
      rw [branchesFrom]
      split
      · have hrest : totalLength (branchesFrom (depthAfter depth c) [] rest) ≤
            ([] : List Char).length + rest.length := ih
        have hword := totalLength_finishWord reversed
        simp only [totalLength, List.flatten_append, List.length_append, List.length_nil,
          List.length_cons] at *
        omega
      · have hrest : totalLength (branchesFrom (depthAfter depth c) (c :: reversed) rest) ≤
            (c :: reversed).length + rest.length := ih
        simp only [List.length_cons] at *
        omega

theorem totalLength_branches_le (body : List Char) :
    totalLength (branches body) ≤ body.length := by
  have hle : totalLength (branchesFrom 0 [] body) ≤ ([] : List Char).length + body.length :=
    totalLength_branchesFrom_le
  simpa [branches] using hle

end Motif
