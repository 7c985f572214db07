import Motif.CommandLine.Report
import Motif.Proofs.Mirror

/-!
# Indices in range

No index falls outside the input, whichever way it is read. Wherever an index of the reversed input
is counted from the other end, the difference is one of a length and an index that is not beyond it.
To say so, each function that takes such differences has a form here that fails where a difference
would fall below zero; it never fails and has the same value.
-/

namespace Motif

/-- The difference of two numbers, unless it falls below zero. -/
def difference? (whole part : Nat) : Option Nat :=
  if part ≤ whole then some (whole - part) else none

theorem difference?_eq_some {whole part : Nat} (h : part ≤ whole) :
    difference? whole part = some (whole - part) :=
  if_pos h

/--
The indices of an input of this length at which something is found, in ascending order, with what is
found there.
-/
def foundUpTo (length : Nat) (found : Nat → IndexSet) : List (Nat × IndexSet) :=
  (List.range (length + 1)).filterMap fun index =>
    if (found index).isEmpty then none else some (index, found index)

theorem mem_foundUpTo {length : Nat} {found : Nat → IndexSet} {index : Nat} {set : IndexSet} :
    (index, set) ∈ foundUpTo length found ↔
      index ≤ length ∧ set = found index ∧ set.isEmpty = false := by
  simp only [foundUpTo, List.mem_filterMap, List.mem_range, Option.ite_none_left_eq_some,
    Option.some.injEq, Prod.mk.injEq]
  constructor
  · intro h
    rcases h with ⟨_, hindex, hnonempty, rfl, rfl⟩
    exact ⟨by omega, rfl, by simpa using hnonempty⟩
  · intro h
    rcases h with ⟨hindex, rfl, hnonempty⟩
    exact ⟨index, by omega, by simpa using hnonempty, rfl, rfl⟩

variable {α : Type} [DecidableEq α] [Token α]

namespace Automaton

theorem hits_eq_foundUpTo (automaton : Automaton α) (input : Array α) :
    automaton.hits input = foundUpTo input.size (automaton.endsFrom input) :=
  rfl

/-- `startsTo`, unless a difference falls below zero. -/
def startsTo? (automaton : Automaton α) (input : Array α) (stop : Nat) : Option IndexSet :=
  if input.size < stop then
    some ∅
  else
    match automaton.direction with
    | .forward =>
        some <| IndexSet.ofList <| (List.range (stop + 1)).filter fun start =>
          stop ∈ automaton.endsFrom input start
    | .backward => do
        let first ← difference? input.size stop
        let indices := automaton.endsFrom input.reverse first
        let starts ← indices.toList.mapM (difference? input.size)
        some (IndexSet.ofList starts)

theorem startsTo?_eq_some (automaton : Automaton α) (input : Array α) (stop : Nat) :
    automaton.startsTo? input stop = some (automaton.startsTo input stop) := by
  unfold startsTo? startsTo
  split
  · rfl
  · rename_i hstop
    cases automaton.direction with
    | forward => rfl
    | backward =>
        have hstarts : (automaton.endsFrom input.reverse (input.size - stop)).toList.mapM
            (difference? input.size) =
              some ((automaton.endsFrom input.reverse (input.size - stop)).toList.map
                fun index => input.size - index) := by
          apply mapM_eq_some_map
          intro index hindex
          have hbounds := bounds_of_mem_endsFrom (IndexSet.mem_toList.1 hindex)
          rw [Array.size_reverse] at hbounds
          exact difference?_eq_some hbounds.2
        dsimp only
        rw [difference?_eq_some (by omega), Option.bind_eq_bind, Option.bind_some, hstarts]
        rfl

theorem le_of_mem_startsTo {automaton : Automaton α} {input : Array α} {start stop : Nat}
    (h : start ∈ automaton.startsTo input stop) : start ≤ stop := by
  cases hdirection : automaton.direction with
  | forward => exact ((mem_startsTo_of_forward hdirection).1 h).1.1
  | backward => exact ((mem_startsTo_of_backward hdirection).1 h).1.1

end Automaton

namespace CommandLine

def writtenIndex? (direction : Direction) (length index : Nat) : Option Nat :=
  match direction with
  | .forward => some index
  | .backward => difference? length index

def writtenSet? (direction : Direction) (length : Nat) (indices : IndexSet) : Option IndexSet := do
  let written ← indices.toList.mapM (writtenIndex? direction length)
  some (IndexSet.ofList written)

def entryAsWritten? (direction : Direction) (length : Nat) (hit : Nat × IndexSet) :
    Option (Nat × List Char) := do
  let start ← writtenIndex? direction length hit.1
  let ends ← writtenSet? direction length hit.2
  some (start, listIndices ends)

def answer? (automaton : Automaton α) (question : Question) (written : Array α) : Option Answer :=
  let direction := automaton.direction
  let input := oriented direction written
  match question with
  | .fromBeginning => do
      let ends := automaton.endsFrom input 0
      let shown ← writtenSet? direction written.size ends
      some ⟨'{' :: (listIndices shown ++ ['}']), !ends.isEmpty⟩
  | .everywhere => do
      let hits := automaton.hits input
      let entries ← hits.mapM (entryAsWritten? direction written.size)
      some ⟨Text.joinWith [' '] ((entries.mergeSort entryLe).map renderEntry), !hits.isEmpty⟩
  | .whole =>
      let full := automaton.matchesWhole input
      some ⟨if full then "match".toList else "no match".toList, full⟩

def answerAll? (automaton : Automaton α) (question : Question) :
    List (List Char) → Option (List Char × Bool)
  | [] => some ([], false)
  | line :: rest => do
      let written : List α := Token.ofLiteral line
      let first ← answer? automaton question written.toArray
      let others ← answerAll? automaton question rest
      some (renderRecord written first ++ others.1, first.matched || others.2)

def matchLines? (options : Options) (table : MacroTable α) (lines : List (List Char)) :
    Option Outcome :=
  match Automaton.ofPattern options.pattern options.direction options.specials table with
  | .error fault => some (.failed [] (.invalidPattern options.pattern fault))
  | .ok automaton =>
      let dump := if Flag.dump ∈ options.flags then renderDump automaton else []
      if lines.isEmpty then
        some (.failed dump .noInputs)
      else do
        let answers ← answerAll? automaton options.question lines
        some (.finished (dump ++ answers.1) answers.2)

theorem writtenIndex?_eq_some (direction : Direction) {length index : Nat} (h : index ≤ length) :
    writtenIndex? direction length index = some (writtenIndex direction length index) := by
  cases direction with
  | forward => rfl
  | backward => exact difference?_eq_some h

theorem writtenSet?_eq_some (direction : Direction) {length : Nat} {indices : IndexSet}
    (h : ∀ index ∈ indices, index ≤ length) :
    writtenSet? direction length indices = some (writtenSet direction length indices) := by
  have hwritten : indices.toList.mapM (writtenIndex? direction length) =
      some (indices.toList.map (writtenIndex direction length)) :=
    mapM_eq_some_map fun index hindex => writtenIndex?_eq_some direction (h index hindex)
  rw [writtenSet?, hwritten]
  rfl

omit [DecidableEq α] [Token α] in
@[simp] theorem size_oriented (direction : Direction) (written : Array α) :
    (oriented direction written).size = written.size := by
  cases direction <;> simp [oriented]

/-- What is found in an input as it is read lies inside the input as it is written. -/
theorem writtenSet?_endsFrom (automaton : Automaton α) (written : Array α) (start : Nat) :
    let ends := automaton.endsFrom (oriented automaton.direction written) start
    writtenSet? automaton.direction written.size ends =
      some (writtenSet automaton.direction written.size ends) := by
  intro ends
  apply writtenSet?_eq_some
  intro stop hstop
  have hbounds := Automaton.bounds_of_mem_endsFrom hstop
  rw [size_oriented] at hbounds
  exact hbounds.2

theorem entriesAsWritten?_eq_some (automaton : Automaton α) (written : Array α) :
    let hits := automaton.hits (oriented automaton.direction written)
    hits.mapM (entryAsWritten? automaton.direction written.size) =
      some (hits.map (entryAsWritten automaton.direction written.size)) := by
  apply mapM_eq_some_map
  rintro ⟨start, ends⟩ hhit
  rw [Automaton.hits_eq_foundUpTo, mem_foundUpTo, size_oriented] at hhit
  obtain ⟨hstart, rfl, -⟩ := hhit
  rw [entryAsWritten?, writtenIndex?_eq_some automaton.direction hstart, writtenSet?_endsFrom]
  rfl

theorem answer?_eq_some (automaton : Automaton α) (question : Question) (written : Array α) :
    answer? automaton question written = some (answer automaton question written) := by
  cases question with
  | fromBeginning =>
      simp only [answer?, writtenSet?_endsFrom]
      rfl
  | everywhere =>
      simp only [answer?, entriesAsWritten?_eq_some]
      rfl
  | whole => rfl

theorem answerAll?_eq_some (automaton : Automaton α) (question : Question)
    (lines : List (List Char)) :
    answerAll? automaton question lines = some (answerAll automaton question lines) := by
  induction lines with
  | nil => rfl
  | cons line rest ih =>
      rw [answerAll?, ih, answer?_eq_some]
      rfl

theorem matchLines?_eq_some (options : Options) (table : MacroTable α)
    (lines : List (List Char)) :
    matchLines? options table lines = some (matchLines options table lines) := by
  unfold matchLines? matchLines
  cases Automaton.ofPattern options.pattern options.direction options.specials table with
  | error fault => rfl
  | ok automaton =>
      dsimp only
      split
      · rfl
      · rw [answerAll?_eq_some]
        rfl

/--
Every end lies between the index from which it is found and the end of the input, whatever the
machine. So nothing is subtracted from an index or a length that is less: neither where the starts
of the matches up to an index are looked for, which are not beyond it, nor anywhere in the program.
-/
theorem indices_stay_in_range :
    (∀ (machine : Machine α) table input index stop,
      stop ∈ machine.ends table input index → index ≤ stop ∧ stop ≤ input.size) ∧
    (∀ (automaton : Automaton α) input stop,
      automaton.startsTo? input stop = some (automaton.startsTo input stop) ∧
        ∀ start ∈ automaton.startsTo input stop, start ≤ stop) ∧
    ∀ options (table : MacroTable α) lines,
      matchLines? options table lines = some (matchLines options table lines) := by
  refine ⟨?_, ?_, matchLines?_eq_some⟩
  · intro machine table input index stop hstop
    exact Machine.bounds_of_mem_ends hstop
  · intro automaton input stop
    refine ⟨automaton.startsTo?_eq_some input stop, fun start hstart => ?_⟩
    exact Automaton.le_of_mem_startsTo hstart

/-- One token that is not excluded, at the end of the input, before a literal that sees nothing. -/
theorem indices_stay_in_range_at_last_token :
    let machine : Machine Char :=
      ⟨⟨#[[⟨.exclude [.literal ['b']], 1⟩], [⟨.take (.literal []), 2⟩]]⟩, 0, 2⟩
    let automaton : Automaton Char := ⟨.sequence [] .plain, .backward, machine, [], ∅⟩
    2 ∈ machine.ends ∅ #['b', 'a'] 1 ∧ (1 ≤ 2 ∧ 2 ≤ #['b', 'a'].size) ∧
    automaton.startsTo? #['a', 'b'] 1 = some (automaton.startsTo #['a', 'b'] 1) ∧
    0 ∈ automaton.startsTo #['a', 'b'] 1 ∧ 0 ≤ 1 := by
  intro machine automaton
  obtain ⟨hends, hstarts, -⟩ := indices_stay_in_range (α := Char)
  have hstop : 2 ∈ machine.ends ∅ #['b', 'a'] 1 := by decide
  have hstart : 0 ∈ automaton.startsTo #['a', 'b'] 1 := by
    have hread : #['a', 'b'].reverse = #['b', 'a'] := by simp
    rw [Automaton.mem_startsTo_of_backward rfl, hread]
    exact ⟨⟨Nat.zero_le 1, by decide⟩, hstop⟩
  obtain ⟨hchecked, hbefore⟩ := hstarts automaton #['a', 'b'] 1
  exact ⟨hstop, hends machine ∅ #['b', 'a'] 1 2 hstop, hchecked, hstart, hbefore 0 hstart⟩

end CommandLine

end Motif
