import Motif.Pattern.Branches
import Motif.Pattern.Level
import Motif.Pattern.Lexeme
import Motif.Pattern.Orientation
import Motif.Pattern.Vocabulary

/-!
# Reading a pattern

A level of pattern text is read lexeme by lexeme. The text of a bracketed group is a level of its
own, or several for the branches between curly brackets; each is shorter than the text around it,
which is why reading ends. Faults are reported in the order in which reading meets them, after those
that show in a pair of neighbouring characters.
-/

namespace Motif

/-! ## Computations that may fail -/

section

variable {ε β γ δ ζ : Type}

theorem bind_eq_ok_iff {first : Except ε β} {second : β → Except ε γ} {value : γ} :
    first >>= second = .ok value ↔
      ∃ middle, first = .ok middle ∧ second middle = .ok value := by
  cases first <;> simp [bind, Except.bind]

theorem exists_bind_ok_iff {first : Except ε β} {make : β → γ} :
    (∃ value, (first >>= fun middle => .ok (make middle)) = .ok value) ↔
      ∃ middle, first = .ok middle := by
  cases first <;> simp [bind, Except.bind]

theorem map_eq_ok_iff {outcome : Except ε β} {make : β → γ} {value : γ} :
    outcome.map make = .ok value ↔ ∃ middle, outcome = .ok middle ∧ make middle = value := by
  cases outcome <;> simp [Except.map]

/-- What changes the value of the first part and then the whole alike may be done at the end. -/
theorem map_bind_eq {first : Except ε β} {change : β → γ} {second : γ → Except ε δ}
    {original : β → Except ε ζ} {changeLast : ζ → δ}
    (h : ∀ value, second (change value) = (original value).map changeLast) :
    first.map change >>= second = (first >>= original).map changeLast := by
  cases first with
  | error fault => rfl
  | ok value => exact h value

end

/-! ## Levels, groups and branches -/

namespace Tree

/-- The item for a branch of an alternation: its only item, or the sequence of its items. -/
def ofBranch : List Tree → Tree
  | [item] => item
  | items => .sequence items .plain

/-- The tree for the items of a whole pattern: nothing for none, and otherwise as for a branch. -/
def ofItems : List Tree → Tree
  | [] => .leaf .epsilon .plain
  | items => ofBranch items

mutual

/-- The items of a level whose text is still to be read, after what `level` holds. -/
def parseLevel (vocabulary : Vocabulary) (level : Level) (text : List Char) :
    Except PatternFault (List Tree) :=
  match _ : Lexeme.readFirst vocabulary.symbols text with
  | .error fault => .error fault
  | .ok none => level.close
  | .ok (some (lexeme, rest)) => do
      let level ← absorb vocabulary level lexeme
      parseLevel vocabulary level rest
termination_by (text.length, 0)
decreasing_by
  · exact Prod.Lex.left _ _ (Lexeme.length_lt_of_readFirst vocabulary.ne_nil_of_mem ‹_›).2
  · exact Prod.Lex.left _ _ (Lexeme.length_lt_of_readFirst vocabulary.ne_nil_of_mem ‹_›).1

/-- The level after one more lexeme. -/
def absorb (vocabulary : Vocabulary) (level : Level) : Lexeme → Except PatternFault Level
  | .symbol text => level.add (.leaf (.literal text) .plain)
  | .wildcard => level.add (.leaf .wildcard .plain)
  | .boundary => level.add (.leaf .boundary .plain)
  | .negation => level.readNegation
  | .quantifier quantifier => level.readQuantifier quantifier
  | .group bracket body => do
      let item ← parseGroup vocabulary bracket body
      level.add item
termination_by lexeme => (lexeme.unread, 1)
decreasing_by
  exact Prod.Lex.right _ (by omega)

/-- The item for the text between a pair of brackets, which may not be without content. -/
def parseGroup (vocabulary : Vocabulary) (bracket : Bracket) (body : List Char) :
    Except PatternFault Tree :=
  match bracket with
  | .round => do
      let children ← parseLevel vocabulary .start body
      if children.isEmpty then .error (.emptyGroup .round) else .ok (.sequence children .plain)
  | .curly =>
      if (branches body).isEmpty then
        .error (.emptyGroup .curly)
      else do
        let children ← parseBranches vocabulary (branches body)
        .ok (.alternation children .plain)
termination_by (body.length + 1, 0)
decreasing_by
  · exact Prod.Lex.left _ _ (by omega)
  · have hle := totalLength_branches_le body
    exact Prod.Lex.left _ _ (by omega)

def parseBranches (vocabulary : Vocabulary) : List (List Char) → Except PatternFault (List Tree)
  | [] => .ok []
  | branch :: rest => do
      let items ← parseLevel vocabulary .start branch
      let others ← parseBranches vocabulary rest
      .ok (ofBranch items :: others)
termination_by parts => (totalLength parts, parts.length + 1)
decreasing_by
  · simp only [totalLength, List.flatten_cons, List.length_append, List.length_cons]
    by_cases hrest : rest.flatten.length = 0
    · rw [hrest]
      exact Prod.Lex.right _ (by omega)
    · exact Prod.Lex.left _ _ (by omega)
  · simp only [totalLength, List.flatten_cons, List.length_append, List.length_cons]
    by_cases hbranch : branch.length = 0
    · rw [hbranch, Nat.zero_add]
      exact Prod.Lex.right _ (by omega)
    · exact Prod.Lex.left _ _ (by omega)

end

theorem parseLevel_of_error {vocabulary : Vocabulary} {level : Level} {text : List Char}
    {fault : PatternFault} (h : Lexeme.readFirst vocabulary.symbols text = .error fault) :
    parseLevel vocabulary level text = .error fault := by
  rw [parseLevel]
  split <;> simp_all

theorem parseLevel_of_none {vocabulary : Vocabulary} {level : Level} {text : List Char}
    (h : Lexeme.readFirst vocabulary.symbols text = .ok none) :
    parseLevel vocabulary level text = level.close := by
  rw [parseLevel]
  split <;> simp_all

theorem parseLevel_of_some {vocabulary : Vocabulary} {level : Level} {text rest : List Char}
    {lexeme : Lexeme} (h : Lexeme.readFirst vocabulary.symbols text = .ok (some (lexeme, rest))) :
    parseLevel vocabulary level text =
      absorb vocabulary level lexeme >>= fun level => parseLevel vocabulary level rest := by
  rw [parseLevel]
  split <;> simp_all

/-- The tree for the items of a pattern, if all its boundaries stand first or last. -/
def settle (direction : Direction) (items : List Tree) : Except PatternFault Tree :=
  let tree := (ofItems items).resolve true true
  if tree.hasBoundary then .error .misplacedBoundary else .ok (tree.orient direction)

/-- The tree that a pattern text stands for in a given direction, or the first fault of the text. -/
def parse (vocabulary : Vocabulary) (direction : Direction) (text : List Char) :
    Except PatternFault Tree :=
  match adjacencyFault text with
  | some fault => .error fault
  | none => do
      let items ← parseLevel vocabulary .start text
      settle direction items

end Tree

end Motif
