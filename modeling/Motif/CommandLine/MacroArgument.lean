import Motif.Text

/-!
# Macro arguments

A macro is given as its key, an equals sign and its expansions with commas between them. Blanks
around the key and the expansions do not count, and empty expansions are left out.
-/

namespace Motif

namespace CommandLine

/-- Why an argument does not declare a macro. -/
inductive MacroFault where
  /-- There is no equals sign in the argument. -/
  | noEqualsSign (argument : List Char)
  | emptyKey
deriving DecidableEq

def MacroFault.message : MacroFault → String
  | noEqualsSign argument => "expected KEY=EXP,... but got '" ++ String.ofList argument ++ "'"
  | emptyKey => "macro key is empty"

/-- A text before and after its first equals sign, if it has one. -/
def cutAtEquals : List Char → Option (List Char × List Char)
  | [] => none
  | c :: rest =>
      if c = '=' then
        some ([], rest)
      else
        match cutAtEquals rest with
        | some (before, after) => some (c :: before, after)
        | none => none

/--
The expansions in a text: what stands between commas, without outer blanks, unless it is empty.
-/
def expansionsOf (text : List Char) : List (List Char) :=
  ((Text.splitOn ',' text).map Text.trim).filter fun expansion => !expansion.isEmpty

def readDeclaration (argument : List Char) :
    Except MacroFault (List Char × List (List Char)) :=
  match cutAtEquals argument with
  | none => .error (.noEqualsSign argument)
  | some (before, after) =>
      if (Text.trim before).isEmpty then .error .emptyKey
      else .ok (Text.trim before, expansionsOf after)

end CommandLine

end Motif
