/-
# `RoxLang.Run.Event` — what a traced run notes

Events have a level.  A run notes the events whose level is at most its verbosity: the first
level follows the statements of a program, the second declarations, assignments and scopes, the
third every expression with its value.
-/
import RoxLang.Value

namespace RoxLang

/-- Something a run notes. -/
inductive Event where
  | scanned (tokens : Nat)
  | parsed (statements : Nat)
  | executing (statement : String)
  | declared (name : String) (value : Value)
  | assigned (name : String) (value : Value)
  | pushed (depth : Nat)
  | popped (depth : Nat)
  | evaluated (expression : String) (value : Value)
deriving DecidableEq, Inhabited

namespace Event

def level : Event → Nat
  | .scanned _ | .parsed _ | .executing _ => 1
  | .declared .. | .assigned .. | .pushed _ | .popped _ => 2
  | .evaluated .. => 3

def message : Event → String
  | .scanned tokens => s!"scanned {tokens} tokens"
  | .parsed statements => s!"parsed {statements} statements"
  | .executing statement => s!"exec {statement}"
  | .declared name value => s!"declare {name}: {value.kind.name} = {value.text}"
  | .assigned name value => s!"assign {name} = {value.text}"
  | .pushed depth => s!"push scope depth={depth}"
  | .popped depth => s!"pop scope depth={depth}"
  | .evaluated expression value => s!"eval {expression} -> {value.text}"

end Event

end RoxLang
