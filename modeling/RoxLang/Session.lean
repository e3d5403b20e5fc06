/-
# `RoxLang.Session` — sources run one after the other

A session keeps one machine and runs sources on it.  A source is read whole before any of it runs,
so a source that is no program changes nothing; one that stops half-way keeps what it did until
then.  Whatever happens to one source, the next starts from the same scope.

There are two ways to read a source.  The descent reads its tokens after a scan of the whole text
and reports every fault; the automaton reads characters and stops at the first fault.
-/
import RoxLang.Automaton.Program
import RoxLang.Descent.Program
import RoxLang.Run.Evaluation

namespace RoxLang

/-- The two readers of programs. -/
inductive FrontEnd where
  | descent
  | automaton
deriving DecidableEq, Inhabited

/-- Why a source did not run to its end. -/
inductive ProgramFault where
  | lexical (faults : List LexFault)
  | parse (faults : List ParseFault)
  | run (fault : RunFault)
deriving DecidableEq, Inhabited

namespace ProgramFault

/-- A rejection by the descent.  A scanned text ends with an end token and its numbers are numerals,
so of the three kinds of rejection only faults arise from one. -/
def ofRejection : Descent.Rejection → ProgramFault
  | .unended | .misread _ => .parse []
  | .faults blames => .parse (blames.map (·.fault))

/-- The lines that report a fault. -/
def reports : ProgramFault → List String
  | .lexical faults => faults.map (·.diagnostic.render)
  | .parse faults => faults.map (·.diagnostic.render)
  | .run fault => [fault.render]

end ProgramFault

/-- Read a source.  The descent tells a traced run how far it has come. -/
def FrontEnd.read : FrontEnd → String → List Event × Except ProgramFault (List Tree)
  | .automaton, source => ([], (Automaton.parse source).mapError fun f => .parse [f])
  | .descent, source => match scan source with
    | .error faults => ([], .error (.lexical faults))
    | .ok tokens => match Descent.parse tokens with
      | .error r => ([.scanned tokens.length], .error (.ofRejection r))
      | .ok trees => ([.scanned tokens.length, .parsed trees.length], .ok trees)

namespace Machine

/-- Run a program on a machine. -/
def runProgram (m : Machine) (trees : List Tree) : Except RunFault Unit × Machine :=
  (Run.program trees).on m

/-- Run a source on a machine: its statements, or why it did not run to its end. -/
def feed (frontEnd : FrontEnd) (m : Machine) (source : String) :
    Except ProgramFault (List Tree) × Machine :=
  let (notes, reading) := frontEnd.read source
  let m := notes.foldl (fun m e => m.note e) m
  match reading with
  | .error f => (.error f, m)
  | .ok trees => match m.runProgram trees with
    | (.ok (), m) => (.ok trees, m)
    | (.error f, m) => (.error (.run f), m)

end Machine

/-- What one source of a session did. -/
structure Episode where
  /-- The statements of the source, or why it did not run to its end. -/
  outcome : Except ProgramFault (List Tree)
  /-- What it printed. -/
  output : String
  /-- What the trace gained. -/
  trace : String
  /-- The scopes it left. -/
  scopes : Chain

/-- Run sources one after the other from a chain of scopes. -/
def session (frontEnd : FrontEnd) (verbosity : Int) : Chain → List String → List Episode
  | _, [] => []
  | scopes, source :: sources =>
      let (outcome, m) := (Machine.start scopes verbosity).feed frontEnd source
      ⟨outcome, m.output, m.traceText, m.scopes⟩ :: session frontEnd verbosity m.scopes sources

end RoxLang
