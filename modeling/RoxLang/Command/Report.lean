/-
# `RoxLang.Command.Report` — what the command writes, and how it ends

The command runs a program file, prints the trees of one, or reads a prompt line by line.  All it
does is to write: to its two outputs, and to a trace file when it is asked to be verbose and runs
something.  So all it does is one report, worked out from its arguments, the files it can find and
the text typed at it.

At the prompt every line is a source of its own, run on what the lines before it have bound; the
prompt is shown before every line and once more before the end of the input, or before the word
that ends the session.
-/
import RoxLang.Command.Options
import RoxLang.Session

namespace RoxLang.Command

/-- How the command ends: with a status, or because a program file is no text. -/
inductive Exit where
  | status (code : Nat)
  | undecodable
deriving DecidableEq, Inhabited

/-- What the command writes and how it ends. -/
structure Report where
  exit : Exit
  out : String
  err : String
  /-- The text of the trace file, if it is created. -/
  debug? : Option String
deriving DecidableEq, Inhabited

/-- What the command can read. -/
structure Surroundings where
  /-- The bytes of the file with a path in plain form, if there is one. -/
  file? : String → Option ByteArray
  input : String

/-- What can be read once an empty file has been made at a path. -/
def Surroundings.create (w : Surroundings) (path : String) : Surroundings :=
  { w with file? := fun p => if p = path then some ByteArray.empty else w.file? p }

/-! ## Paths

A path names its file in the same way whether slashes are doubled, steps stay where they are, or
the last slash has nothing behind it.  A step upward stays as it is written.  A path that starts
with exactly two slashes is different from one that starts with one. -/

/-- The steps of a path that lead somewhere. -/
def steps (path : String) : List String :=
  (path.splitOn "/").filter fun step => step != "" && step != "."

/-- What a path starts with: nothing, one slash, or exactly two. -/
def rootOf (cs : List Char) : String :=
  match (cs.takeWhile (· == '/')).length with
  | 0 => ""
  | 2 => "//"
  | _ => "/"

/-- The plain form of a path. -/
def plainPath (path : String) : String :=
  match rootOf path.toList ++ "/".intercalate (steps path) with
  | "" => "."
  | plain => plain

/-! ## Statuses and texts -/

def statusMissingFile : Nat := 1

def statusMisuse : Nat := 2

/-- The status after a program that could not be read or stopped. -/
def statusProgramFault : Nat := 65

def usage : String := "usage: rox [-h] [-v] [--print-ast] [--grammar] [program]\n"

def help : String := usage ++ "
Rox language interpreter

positional arguments:
  program      Rox program file to execute; starts a prompt if omitted

options:
  -h, --help   show this help message and exit
  -v           increase debug verbosity (can be repeated)
  --print-ast  print the syntax tree instead of running the program
  --grammar    parse with the Lark reference grammar
"

def promptText : String := "> "

/-- The path of the trace file. -/
def traceFile : String := "debug.txt"

/-- Texts as lines. -/
def asLines (texts : List String) : String := String.join (texts.map (· ++ "\n"))

/-- The text of a file: line ends are unified, bytes that are no text give none. -/
def textOf? (bytes : ByteArray) : Option String :=
  (String.fromUTF8? bytes).map fun s => String.ofList (Text.unifyNewlines s.toList)

/-! ## The three things to do -/

def Options.frontEnd (o : Options) : FrontEnd := if o.automaton then .automaton else .descent

/-- The diagnostics of an episode. -/
def reportsOf (e : Episode) : List String :=
  match e.outcome with
  | .ok _ => []
  | .error f => f.reports

/-- Whether runs are traced. -/
def Options.traces (o : Options) : Bool := 0 < o.verbosity

/-- The text of the trace file after a run, if there is one. -/
def Options.traceText? (o : Options) (trace : String) : Option String :=
  if o.traces then some trace else none

/-- Print the trees of a program.  Trees that were read all have texts, so no fault is left to
report. -/
def showTrees (o : Options) (source : String) : Report :=
  match (o.frontEnd.read source).2 with
  | .error f => ⟨.status statusProgramFault, "", asLines f.reports, none⟩
  | .ok trees => ⟨.status 0, asLines ((Tree.renderAll trees).toOption.getD []), "", none⟩

/-- Run sources from an empty scope. -/
def Options.episodes (o : Options) (sources : List String) : List Episode :=
  session o.frontEnd o.verbosity [Scope.empty] sources

/-- Run a program. -/
def runFile (o : Options) (source : String) : Report :=
  let es := o.episodes [source]
  let reports := es.flatMap reportsOf
  let code := if reports = [] then 0 else statusProgramFault
  ⟨.status code, String.join (es.map (·.output)), asLines reports,
    o.traceText? (String.join (es.map (·.trace)))⟩

/-- The words that end a prompt session, once the white space around them is gone. -/
def exitWords : List String := ["exit", "exit()", "quit", "quit()"]

def isExit (line : List Char) : Bool := exitWords.contains (String.ofList (Text.trimmed line))

/-- The lines that a prompt session runs. -/
def promptLines (input : String) : List String :=
  let lines := Text.lines (Text.unifyNewlines input.toList)
  (lines.takeWhile fun line => !isExit line).map String.ofList

/-- Read a prompt to its end. -/
def runPrompt (o : Options) (input : String) : Report :=
  let es := o.episodes (promptLines input)
  let shown := String.join (es.map fun e => promptText ++ e.output)
  ⟨.status 0, shown ++ promptText, asLines (es.flatMap reportsOf),
    o.traceText? (String.join (es.map (·.trace)))⟩

/-! ## The command -/

/-- Refuse the arguments. -/
def refuse (m : Misuse) : Report :=
  ⟨.status statusMisuse, "", usage ++ "rox: error: " ++ m.message ++ "\n", none⟩

/-- The program asked for.  An empty name is none. -/
def Options.programPath? (o : Options) : Option String :=
  match o.program? with
  | none | some "" => none
  | some name => some (plainPath name)

/-- Do something with a program file, which may be missing or no text. -/
def withFile (w : Surroundings) (path : String) (debug? : Option String)
    (body : String → Report) : Report :=
  match w.file? path with
  | none => ⟨.status statusMissingFile, "", s!"Error: file {path} not found\n", debug?⟩
  | some bytes => match textOf? bytes with
    | none => ⟨.undecodable, "", "", debug?⟩
    | some source => body source

/-- What a run can read.  The trace file is created before the program is looked for, so a program
in the place of the trace file is an empty one. -/
def Options.runSurroundings (o : Options) (w : Surroundings) : Surroundings :=
  if o.traces then w.create traceFile else w

/-- Do what the options ask for. -/
def perform (o : Options) (w : Surroundings) : Report :=
  match o.programPath? with
  | none => if o.printTree then refuse .programMissing else runPrompt o w.input
  | some path =>
      if o.printTree then withFile w path none (showTrees o)
      else withFile (o.runSurroundings w) path (o.traceText? "") (runFile o)

/-- What the command does with its arguments. -/
def respond (arguments : List String) (w : Surroundings) : Report :=
  match Options.read arguments with
  | .ok o => perform o w
  | .error .help => ⟨.status 0, help, "", none⟩
  | .error (.misuse m) => refuse m

end RoxLang.Command
