/-
# `RoxLang.Text.Layout` — text cut into lines, and text on one line

Program files and typed input arrive with any of three line endings.  They are brought to a
single `\n` before anything else looks at the text, so a string literal that spans lines never
holds a carriage return that stood at a line's end.

Diagnostics that show a text as such write it between quotes: single quotes, unless the text
holds one and no double quote.  The quote in use, the backslash and every character that does not
show itself are escaped, so the quoted form never spans lines and ends where its closing quote
stands.
-/
import RoxLang.Text.Characters

namespace RoxLang.Text

/-! ## Lines -/

/-- Bring `\r\n` and a lone `\r` to `\n`. -/
def unifyNewlines : List Char → List Char
  | '\r' :: '\n' :: cs => '\n' :: unifyNewlines cs
  | '\r' :: cs => '\n' :: unifyNewlines cs
  | c :: cs => c :: unifyNewlines cs
  | [] => []

/-- The lines of a text: each `\n` ends one, and what follows the last `\n` is a line only if
it is not empty. -/
def lines : List Char → List (List Char)
  | [] => []
  | '\n' :: cs => [] :: lines cs
  | c :: cs =>
      match lines cs with
      | [] => [[c]]
      | l :: ls => (c :: l) :: ls

/-- The number of line ends in a text. -/
def newlines (cs : List Char) : Nat := cs.count '\n'

/-! ## Quotations -/

/-- A number in so many lowercase hexadecimal digits. -/
def hexDigits : (width : Nat) → Nat → List Char
  | 0, _ => []
  | width + 1, n => hexDigits width (n / 16) ++ [Nat.digitChar (n % 16)]

/-- A code point in hexadecimal: two digits where they are enough, else four, else eight. -/
def hexEscape (n : Nat) : List Char :=
  if n < 0x100 then '\\' :: 'x' :: hexDigits 2 n
  else if n < 0x10000 then '\\' :: 'u' :: hexDigits 4 n
  else '\\' :: 'U' :: hexDigits 8 n

/-- One character inside quotes of the given kind. -/
def escaped (quote c : Char) : List Char :=
  if c = quote ∨ c = '\\' then ['\\', c]
  else if c = '\n' then ['\\', 'n']
  else if c = '\r' then ['\\', 'r']
  else if c = '\t' then ['\\', 't']
  else if isPrintable c then [c]
  else hexEscape c.toNat

/-- The quote a text is written in: the double one exactly when the text holds a single quote
and no double quote. -/
def quoteFor (cs : List Char) : Char :=
  if '\'' ∈ cs ∧ '"' ∉ cs then '"' else '\''

/-- The quoted form of a text. -/
def quoted (s : String) : String :=
  let cs := s.toList
  let quote := quoteFor cs
  String.ofList (quote :: cs.flatMap (escaped quote) ++ [quote])

end RoxLang.Text
