/-
# `RoxLang.Diagnostic` — what a program is told when something is wrong

Every fault of a program, whatever finds it, is reported as one diagnostic: a category, a
message and, where it is known, a line.  The categories form a family, so a report can ask for
all run-time faults or all lexical ones; each category has one label, which its family shares
unless it says otherwise.
-/
import RoxLang.Lexeme.Token

namespace RoxLang

/-- The categories of fault. -/
inductive Category where
  | general
  | lexical
  | unterminatedString
  | parse
  | runtime
  | typeMismatch
  | undefinedVariable
deriving DecidableEq, Inhabited

namespace Category

/-- The category that a category is a case of. -/
def parent? : Category → Option Category
  | .general => none
  | .lexical => some .general
  | .unterminatedString => some .lexical
  | .parse => some .general
  | .runtime => some .general
  | .typeMismatch => some .runtime
  | .undefinedVariable => some .runtime

/-- A category and those it is a case of, nearest first.  The family is three deep. -/
def lineage (c : Category) : List Category :=
  let upward (c? : Option Category) : Option Category := c?.bind parent?
  c :: [parent? c, upward (parent? c)].filterMap id

/-- The word before `Error` in a diagnostic. -/
def label : Category → String
  | .general => "Rox"
  | .lexical => "Syntax"
  | .unterminatedString => "Syntax"
  | .parse => "Parse"
  | .runtime => "Runtime"
  | .typeMismatch => "Type"
  | .undefinedVariable => "Runtime"

end Category

/-- A reported fault. -/
structure Diagnostic where
  category : Category
  message : String
  line : Option Int
deriving DecidableEq, Inhabited

namespace Diagnostic

/-- The line that reports a fault.  Line zero is a line and is shown. -/
def render (d : Diagnostic) : String :=
  let text := s!"{d.category.label}Error: {d.message}"
  match d.line with
  | some line => s!"[line {line}] {text}"
  | none => text

/-- A string without its closing quote. -/
def unterminatedString (line : Int) : Diagnostic :=
  ⟨.unterminatedString, "Unterminated string.", some line⟩

/-- A reason why no tree can be made of the tokens, with the token to blame. -/
def parse (reason : String) (token : Token) : Diagnostic :=
  let place := if token.isEof then "at end" else s!"at '{token.lexeme}'"
  ⟨.parse, s!"{reason} {place}", some token.line⟩

/-- A name that no scope in sight defines. -/
def undefinedVariable (name : String) : Diagnostic :=
  ⟨.undefinedVariable, s!"Undefined variable '{name}'", none⟩

/-- What several faults report together: their own reports, one under the other. -/
def together (reports : List String) : String := "\n".intercalate reports

/-- Several diagnostics, one a line. -/
def renderAll (ds : List Diagnostic) : String := together (ds.map render)

end Diagnostic

end RoxLang
