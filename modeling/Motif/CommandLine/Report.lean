import Motif.Automaton
import Motif.CommandLine.Arguments
import Motif.Pattern.Render
import Motif.Text

/-!
# Reports

What the program answers. For each input it writes one record: the input, a tab and the result, in
which every index is given as the input is written, whichever way it was read.
-/

namespace Motif

namespace CommandLine

inductive Failure where
  /-- The standard input is no text. -/
  | unreadableInput
  | invalidPattern (pattern : List Char) (fault : BuildFault)
  | noInputs
deriving DecidableEq

/-- What the program has done when it ends. -/
inductive Outcome where
  | version
  | help
  | refused (error : ArgumentFault)
  /-- A failure after some output. -/
  | failed (output : List Char) (failure : Failure)
  /-- All the output, and whether some input matched. -/
  | finished (output : List Char) (matched : Bool)
deriving DecidableEq

/-! ## Failures -/

namespace Failure

def headline : Failure → List Char
  | unreadableInput => "Failed to read stdin".toList
  | invalidPattern pattern _ => "Invalid pattern '".toList ++ pattern ++ ['\'']
  | noInputs => "No inputs to match.".toList

/--
What led to the failure, from the nearest cause to the first. A pattern's fault is reported by the
build and by itself.
-/
def causes : Failure → List (List Char)
  | unreadableInput => ["stream did not contain valid UTF-8".toList]
  | invalidPattern _ fault => [fault.message.toList, fault.message.toList]
  | noInputs => []

end Failure

/-- A text in lines, every line but the first moved in by `margin`. -/
def hang (margin text : List Char) : List Char :=
  Text.joinWith ('\n' :: margin) (Text.splitOn '\n' text)

def numberedCauses (first : Nat) : List (List Char) → List Char
  | [] => []
  | cause :: rest =>
      "    ".toList ++ Nat.toDigits 10 first ++ ": ".toList ++ hang "       ".toList cause ++
        ['\n'] ++ numberedCauses (first + 1) rest

/-- The part of a report that lists the causes: numbered if there are several. -/
def renderCauses : List (List Char) → List Char
  | [] => []
  | [cause] => "\nCaused by:\n    ".toList ++ hang "    ".toList cause ++ ['\n']
  | causes => "\nCaused by:\n".toList ++ numberedCauses 0 causes

def Failure.render (failure : Failure) : List Char :=
  "Error: ".toList ++ failure.headline ++ ['\n'] ++ renderCauses failure.causes

/-! ## Records -/

inductive Question where
  /-- Where do matches from its beginning end? -/
  | fromBeginning
  /-- Where do matches start, and where does each end? -/
  | everywhere
  /-- Does it match as a whole? -/
  | whole
deriving DecidableEq

def Options.question (options : Options) : Question :=
  if Flag.search ∈ options.flags then .everywhere
  else if Flag.full ∈ options.flags then .whole
  else .fromBeginning

def Options.direction (options : Options) : Direction :=
  if Flag.backward ∈ options.flags then .backward else .forward

/-- An index of an input as it is read, counted from the beginning of the input as it is written. -/
def writtenIndex (direction : Direction) (length index : Nat) : Nat :=
  match direction with
  | .forward => index
  | .backward => length - index

/-- Indices as the input is written, in ascending order. -/
def writtenSet (direction : Direction) (length : Nat) (indices : IndexSet) : IndexSet :=
  IndexSet.ofList (indices.toList.map (writtenIndex direction length))

/-- The members of a set in ascending order, with commas between them. -/
def listIndices (indices : IndexSet) : List Char :=
  Text.joinWith [','] (indices.toList.map (Nat.toDigits 10))

/-- A start and its ends, as the input is written and with the ends as they are listed. -/
def entryAsWritten (direction : Direction) (length : Nat) (hit : Nat × IndexSet) :
    Nat × List Char :=
  (writtenIndex direction length hit.1, listIndices (writtenSet direction length hit.2))

/-- Entries are in order by their starts, and those with the same start by their texts. -/
def entryLe (first second : Nat × List Char) : Bool :=
  first.1 < second.1 || (first.1 == second.1 && !second.2.lex first.2)

def renderEntry (entry : Nat × List Char) : List Char :=
  Nat.toDigits 10 entry.1 ++ ':' :: '{' :: (entry.2 ++ ['}'])

structure Answer where
  result : List Char
  matched : Bool
deriving DecidableEq

section

variable {α : Type} [DecidableEq α] [Token α]

def oriented (direction : Direction) (written : Array α) : Array α :=
  match direction with
  | .forward => written
  | .backward => written.reverse

/-- The answer to a question about an input, which is given as it is written. -/
def answer (automaton : Automaton α) (question : Question) (written : Array α) : Answer :=
  let direction := automaton.direction
  let input := oriented direction written
  match question with
  | .fromBeginning =>
      let ends := automaton.endsFrom input 0
      ⟨'{' :: (listIndices (writtenSet direction written.size ends) ++ ['}']), !ends.isEmpty⟩
  | .everywhere =>
      let hits := automaton.hits input
      let entries := hits.map (entryAsWritten direction written.size)
      ⟨Text.joinWith [' '] ((entries.mergeSort entryLe).map renderEntry), !hits.isEmpty⟩
  | .whole =>
      let full := automaton.matchesWhole input
      ⟨if full then "match".toList else "no match".toList, full⟩

def renderRecord (written : List α) (answer : Answer) : List Char :=
  Token.render written ++ '\t' :: answer.result ++ ['\n']

/-- The records for the input lines, and whether some input matched. -/
def answerAll (automaton : Automaton α) (question : Question) :
    List (List Char) → List Char × Bool
  | [] => ([], false)
  | line :: rest =>
      let written : List α := Token.ofLiteral line
      let first := answer automaton question written.toArray
      let others := answerAll automaton question rest
      (renderRecord written first ++ others.1, first.matched || others.2)

omit [DecidableEq α] in
def renderGroups (first : Nat) : List (Machine α) → List Char
  | [] => []
  | group :: rest =>
      "group ".toList ++ Machine.groupName first ++ ":\n".toList ++ group.render ++
        renderGroups (first + 1) rest

omit [DecidableEq α] in
/-- The tree with its size, the machine and the machines of the groups. -/
def renderDump (automaton : Automaton α) : List Char :=
  "tree: ".toList ++ automaton.tree.render ++ " (".toList ++
    Nat.toDigits 10 automaton.tree.size ++ " nodes)\n".toList ++ automaton.machine.render ++
    renderGroups 0 automaton.groups

def matchLines (options : Options) (table : MacroTable α) (lines : List (List Char)) : Outcome :=
  match Automaton.ofPattern options.pattern options.direction options.specials table with
  | .error fault => .failed [] (.invalidPattern options.pattern fault)
  | .ok automaton =>
      let dump := if Flag.dump ∈ options.flags then renderDump automaton else []
      if lines.isEmpty then
        .failed dump .noInputs
      else
        let answers := answerAll automaton options.question lines
        .finished (dump ++ answers.1) answers.2

end

/-! ## The program -/

def runOn (options : Options) (lines : List (List Char)) : Outcome :=
  if Flag.segments ∈ options.flags then
    matchLines options (MacroTable.ofDeclarations options.macros : MacroTable Segment) lines
  else
    matchLines options (MacroTable.ofDeclarations options.macros : MacroTable Char) lines

/-- Do what the options ask. The standard input is only looked at if no inputs are given. -/
def runOptions (options : Options) (standardInput : ByteArray) : Outcome :=
  if options.inputs.isEmpty then
    match Text.linesOfBytes? standardInput with
    | none => .failed [] .unreadableInput
    | some lines => runOn options lines
  else
    runOn options options.inputs

def Outcome.ofInterruption : Interruption → Outcome
  | .version => .version
  | .help => .help
  | .refused error => .refused error

/-- Run the program on its arguments and its standard input. -/
def respond (arguments : List (List Char)) (standardInput : ByteArray) : Outcome :=
  match parseArguments arguments with
  | .error interruption => .ofInterruption interruption
  | .ok options => runOptions options standardInput

def versionLine : List Char :=
  "seqmatch 0.1.0\n".toList

def usageLine : List Char :=
  "Usage: seqmatch [OPTIONS] <PATTERN> [INPUT]...\n".toList

namespace Outcome

/--
The exit status: 0 if some input matched, 1 if none did or the program failed, 2 for refused
arguments.
-/
def exitCode : Outcome → Nat
  | version => 0
  | help => 0
  | refused _ => 2
  | failed _ _ => 1
  | finished _ matched => if matched then 0 else 1

/-- What the program writes to its standard output. -/
def output : Outcome → List Char
  | version => versionLine
  | help => usageLine
  | refused _ => []
  | failed output _ => output
  | finished output _ => output

def report? : Outcome → Option (List Char)
  | failed _ failure => some failure.render
  | _ => none

/-- What the program writes to its standard error. -/
def complaint : Outcome → List Char
  | refused error => "error: ".toList ++ error.message.toList ++ ['\n']
  | failed _ failure => failure.render
  | _ => []

end Outcome

end CommandLine

end Motif
