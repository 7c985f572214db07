import Motif.CommandLine.Report

/-!
# The program

Reads its arguments, and its standard input if it is given no inputs, and writes what
`CommandLine.respond` answers.
-/

open Motif

def readStandardInput (arguments : List (List Char)) : IO ByteArray := do
  match CommandLine.parseArguments arguments with
  | .error _ => return .empty
  | .ok options =>
      if options.inputs.isEmpty then
        let stdin ← IO.getStdin
        let bytes ← stdin.readBinToEnd
        return bytes
      else
        return .empty

def main (arguments : List String) : IO UInt32 := do
  let arguments := arguments.map String.toList
  let standardInput ← readStandardInput arguments
  let outcome := CommandLine.respond arguments standardInput
  IO.print (String.ofList outcome.output)
  IO.eprint (String.ofList outcome.complaint)
  return outcome.exitCode.toUInt32
