import Motif.CommandLine.MacroArgument

/-!
# Arguments

How the arguments of the program are read. Flags may stand together behind one hyphen; an option
takes the rest of its argument, or the next argument unless that looks like an option itself; two
hyphens end the options. A value that comes in an argument of its own is only checked when the next
flag, option or plain argument is accepted, or at the end, so an unknown option right behind it is
reported first.
-/

namespace Motif

namespace CommandLine

inductive Flag where
  /-- Match from right to left. -/
  | backward
  /-- Inputs are symbols with blanks between them. -/
  | segments
  /-- Try every start. -/
  | search
  /-- Match whole inputs only. -/
  | full
  /-- Show the tree and the machines first. -/
  | dump
deriving DecidableEq

/-- The options that take a value. -/
inductive Setting where
  /-- A symbol to keep whole in the pattern. -/
  | special
  /-- A macro. -/
  | named
deriving DecidableEq

inductive Switch where
  | flag (flag : Flag)
  | setting (setting : Setting)
  | verbose
  | version
  | help
deriving DecidableEq

inductive ArgumentFault where
  | unknownOption (argument : List Char)
  /-- A value behind an option that takes none. -/
  | unneededValue (argument : List Char)
  | missingValue (setting : Setting)
  | repeatedFlag (flag : Flag)
  | missingPattern
  /-- Both of two flags that exclude each other. -/
  | searchWithFull
  | malformedMacro (fault : MacroFault)
deriving DecidableEq

def Flag.name : Flag → String
  | backward => "--backward"
  | segments => "--segments"
  | search => "--search"
  | full => "--full"
  | dump => "--dump"

/-- How an option and its value are written. -/
def Setting.name : Setting → String
  | special => "--special <SYMBOL>"
  | named => "--macro <KEY=EXP,...>"

def ArgumentFault.message : ArgumentFault → String
  | unknownOption argument => "unexpected argument '" ++ String.ofList argument ++ "' found"
  | unneededValue argument => "unexpected value in '" ++ String.ofList argument ++ "'"
  | missingValue setting => "a value is required for '" ++ setting.name ++ "'"
  | repeatedFlag flag => "the argument '" ++ flag.name ++ "' cannot be used multiple times"
  | missingPattern => "the required argument '<PATTERN>' was not provided"
  | searchWithFull => "the argument '--full' cannot be used with '--search'"
  | malformedMacro fault => "invalid value for '" ++ Setting.named.name ++ "': " ++ fault.message

/-- Why the reading of arguments stops early. -/
inductive Interruption where
  | version
  | help
  | refused (error : ArgumentFault)
deriving DecidableEq

structure Options where
  pattern : List Char
  inputs : List (List Char)
  flags : List Flag
  specials : List (List Char)
  macros : List (List Char × List (List Char))
deriving DecidableEq

namespace Switch

def ofLetter? : Char → Option Switch
  | 'b' => some (flag .backward)
  | 's' => some (flag .segments)
  | 'S' => some (setting .special)
  | 'm' => some (setting .named)
  | 'v' => some verbose
  | 'V' => some version
  | 'h' => some help
  | _ => none

def ofName? (name : List Char) : Option Switch :=
  if name = "backward".toList then some (flag .backward)
  else if name = "segments".toList then some (flag .segments)
  else if name = "search".toList then some (flag .search)
  else if name = "full".toList then some (flag .full)
  else if name = "dump".toList then some (flag .dump)
  else if name = "special".toList then some (setting .special)
  else if name = "macro".toList then some (setting .named)
  else if name = "verbose".toList then some verbose
  else if name = "version".toList then some version
  else if name = "help".toList then some help
  else none

end Switch

/-- What has been read so far. -/
structure Reading where
  flags : List Flag
  specials : List (List Char)
  macros : List (List Char × List (List Char))
  /-- The arguments that are neither options nor values. -/
  plain : List (List Char)
  /-- An option that was given without a value, and the value found for it since. -/
  pending : Option (Setting × Option (List Char))

namespace Reading

def start : Reading :=
  ⟨[], [], [], [], none⟩

def set (reading : Reading) (setting : Setting) (value : List Char) :
    Except Interruption Reading :=
  match setting with
  | .special => .ok { reading with specials := reading.specials ++ [value] }
  | .named =>
      match readDeclaration value with
      | .ok declared => .ok { reading with macros := reading.macros ++ [declared] }
      | .error fault => .error (.refused (.malformedMacro fault))

/-- Give the option that waits for its value the value that was found. -/
def settle (reading : Reading) : Except Interruption Reading :=
  match reading.pending with
  | none => .ok reading
  | some (setting, none) => .error (.refused (.missingValue setting))
  | some (setting, some value) => set { reading with pending := none } setting value

def addPlain (reading : Reading) (argument : List Char) : Except Interruption Reading := do
  let reading ← reading.settle
  .ok { reading with plain := reading.plain ++ [argument] }

def accept (reading : Reading) (switch : Switch) : Except Interruption Reading := do
  let reading ← reading.settle
  match switch with
  | .flag flag =>
      if flag ∈ reading.flags then .error (.refused (.repeatedFlag flag))
      else .ok { reading with flags := reading.flags ++ [flag] }
  | .setting setting => .ok { reading with pending := some (setting, none) }
  | .verbose => .ok reading
  | .version => .error .version
  | .help => .error .help

/-- Accept an option with a value in the same argument. -/
def acceptValue (reading : Reading) (setting : Setting) (value : List Char) :
    Except Interruption Reading := do
  let reading ← reading.settle
  reading.set setting value

/--
Read one-letter options behind a hyphen. The letters after an option that takes a value are its
value.
-/
def readLetters (reading : Reading) : List Char → Except Interruption Reading
  | [] => .ok reading
  | letter :: rest =>
      match Switch.ofLetter? letter with
      | none => .error (.refused (.unknownOption ['-', letter]))
      | some (.setting setting) =>
          match rest with
          | [] => reading.accept (.setting setting)
          | '=' :: value => reading.acceptValue setting value
          | value => reading.acceptValue setting value
      | some switch => do
          let reading ← reading.accept switch
          readLetters reading rest

/-- Read an option behind two hyphens. What stands after an equals sign is its value. -/
def readName (reading : Reading) (body : List Char) : Except Interruption Reading :=
  match cutAtEquals body with
  | none =>
      match Switch.ofName? body with
      | none => .error (.refused (.unknownOption ('-' :: '-' :: body)))
      | some switch => reading.accept switch
  | some (name, value) =>
      match Switch.ofName? name with
      | none => .error (.refused (.unknownOption ('-' :: '-' :: name)))
      | some (.setting setting) => reading.acceptValue setting value
      | some _ => .error (.refused (.unneededValue ('-' :: '-' :: body)))

/--
Read an argument that is no option: the value of an option that waits for one, or a plain argument.
-/
def readOther (reading : Reading) (argument : List Char) : Except Interruption Reading :=
  match reading.pending with
  | some (setting, none) => .ok { reading with pending := some (setting, some argument) }
  | _ => reading.addPlain argument

/-- Read arguments up to the end; `onlyPlain` says that two hyphens have ended the options. -/
def readAll (onlyPlain : Bool) (reading : Reading) :
    List (List Char) → Except Interruption Reading
  | [] => reading.settle
  | argument :: rest =>
      if onlyPlain then do
        let reading ← reading.addPlain argument
        readAll true reading rest
      else
        match argument with
        | ['-', '-'] => readAll true reading rest
        | '-' :: '-' :: body => do
            let reading ← reading.readName body
            readAll false reading rest
        | '-' :: letter :: letters => do
            let reading ← reading.readLetters (letter :: letters)
            readAll false reading rest
        | other => do
            let reading ← reading.readOther other
            readAll false reading rest

/--
The options that were read, if they go together and there is a pattern among the plain arguments.
-/
def toOptions (reading : Reading) : Except Interruption Options :=
  match reading.plain with
  | [] => .error (.refused .missingPattern)
  | pattern :: inputs =>
      if Flag.search ∈ reading.flags ∧ Flag.full ∈ reading.flags then
        .error (.refused .searchWithFull)
      else
        .ok ⟨pattern, inputs, reading.flags, reading.specials, reading.macros⟩

end Reading

def parseArguments (arguments : List (List Char)) : Except Interruption Options := do
  let reading ← Reading.start.readAll false arguments
  reading.toOptions

end CommandLine

end Motif
