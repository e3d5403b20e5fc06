/-
# `RoxLang.Lexeme.Token` — a kind, a spelling and a line

The lexeme of a string token is the text between its quotes; of every other token it is what
stands in the source.  Lines of a source count from zero.  A token made by hand may carry any
lexeme and any line: what reads tokens looks at their kinds, and at the lexemes of names, numbers
and strings alone.
-/
import RoxLang.Lexeme.Kind
import RoxLang.Text.Layout

namespace RoxLang

structure Token where
  kind : Kind
  lexeme : String
  line : Int
deriving DecidableEq, Inhabited

namespace Token

def isEof (t : Token) : Bool := t.kind == .eof

/-- The one-line description of a token: its kind, its lexeme in quotes, its line. -/
def description (t : Token) : String :=
  s!"Token({t.kind.name}, {Text.quoted t.lexeme}, line={t.line})"

/-- The same token so many lines further down. -/
def lower (lines : Nat) (t : Token) : Token := { t with line := t.line + lines }

end Token

end RoxLang
