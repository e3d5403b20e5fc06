/-
# `RoxLang.Main` — the command

Reads what the command can see, lets `RoxLang.Command` decide, and writes what it says.  At the
prompt each line is run as soon as it has been typed.
-/
import RoxLang.Command.Report

namespace RoxLang.Command

/-- The bytes of a file, if it can be read. -/
def readFile? (path : String) : IO (Option ByteArray) := do
  try
    return some (← IO.FS.readBinFile path)
  catch _ =>
    return none

def writeReport (r : Report) : IO UInt32 := do
  IO.print r.out
  IO.eprint r.err
  if let some text := r.debug? then
    IO.FS.writeFile traceFile text
  match r.exit with
  | .status code => return code.toUInt32
  | .undecodable =>
      IO.eprintln "Error: the program file is not text"
      return 1

/-- Run the lines of a prompt one by one.  Gives the trace of the whole session. -/
partial def promptLoop (o : Options) (scopes : Chain) (trace : String) : List String → IO String
  | line :: lines => do
      if isExit line.toList then return trace
      match session o.frontEnd o.verbosity scopes [line] with
      | e :: _ =>
          IO.print e.output
          IO.eprint (asLines (reportsOf e))
          IO.print promptText
          promptLoop o e.scopes (trace ++ e.trace) lines
      | [] => promptLoop o scopes trace lines
  | [] => do
      (← IO.getStdout).flush
      let typed ← (← IO.getStdin).getLine
      if typed.isEmpty then return trace
      let lines := Text.lines (Text.unifyNewlines typed.toList)
      promptLoop o scopes trace (lines.map String.ofList)

/-- Read a prompt from the terminal. -/
def prompt (o : Options) : IO UInt32 := do
  if o.traces then IO.FS.writeFile traceFile ""
  IO.print promptText
  let trace ← promptLoop o [Scope.empty] "" []
  writeReport ⟨.status 0, "", "", o.traceText? trace⟩

def run (arguments : List String) : IO UInt32 := do
  match Options.read arguments with
  | .ok o => match o.programPath? with
    | some path =>
        if o.traces && !o.printTree then IO.FS.writeFile traceFile ""
        let bytes? ← readFile? path
        writeReport (perform o ⟨fun _ => bytes?, ""⟩)
    | none => if o.printTree then writeReport (perform o ⟨fun _ => none, ""⟩) else prompt o
  | .error _ => writeReport (respond arguments ⟨fun _ => none, ""⟩)

end RoxLang.Command

def main (arguments : List String) : IO UInt32 := RoxLang.Command.run arguments
