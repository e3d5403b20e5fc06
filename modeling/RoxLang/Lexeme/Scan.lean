/-
# `RoxLang.Lexeme.Scan` — tokens of a source text

Pieces become tokens one by one: blanks and comments give none, a stray character or an open
string gives a fault instead.  A fault does not end the scan, so every fault of the text is
reported, in text order; tokens are handed on only when there is none.

A token carries the line on which it *ends*, which for a string of several lines is the line of
its closing quote, and so does a fault.  One last token stands for the end of the text.
-/
import RoxLang.Lexeme.Piece
import RoxLang.Diagnostic

namespace RoxLang

/-- What can be wrong with the characters of a text, and on which line. -/
inductive LexFault where
  | unexpectedCharacter (line : Nat)
  | unterminatedString (line : Nat)
deriving DecidableEq, Inhabited

namespace LexFault

def diagnostic : LexFault → Diagnostic
  | .unexpectedCharacter line => ⟨.lexical, "Unexpected character", some line⟩
  | .unterminatedString line => .unterminatedString line

/-- The same fault so many lines further down. -/
def lower (lines : Nat) : LexFault → LexFault
  | .unexpectedCharacter line => .unexpectedCharacter (line + lines)
  | .unterminatedString line => .unterminatedString (line + lines)

end LexFault

namespace Piece

/-- The number of line ends inside a piece. -/
def newlines (p : Piece) : Nat := Text.newlines p.text

/-- The kind and lexeme of a piece that is a token. -/
def lexeme? : Piece → Option (Kind × List Char)
  | .mark m => some (.mark m, m.text)
  | .number whole fraction => some (.number, (Piece.number whole fraction).text)
  | .name cs => some (Kind.ofNameText cs, cs)
  | .string cs => some (.string, cs)
  | .blank _ | .comment _ | .stray _ | .unclosed _ => none

/-- The token of a piece, on the given line. -/
def token? (p : Piece) (line : Nat) : Option Token :=
  p.lexeme?.map fun (kind, cs) => ⟨kind, String.ofList cs, line⟩

/-- The fault of a piece, on the given line. -/
def fault? (p : Piece) (line : Nat) : Option LexFault :=
  match p with
  | .stray _ => some (.unexpectedCharacter line)
  | .unclosed _ => some (.unterminatedString line)
  | _ => none

end Piece

/-- Each piece with the line on which it ends, when the first one starts on the given line. -/
def endLines : Nat → List Piece → List (Piece × Nat)
  | _, [] => []
  | line, p :: ps => (p, line + p.newlines) :: endLines (line + p.newlines) ps

/-- The tokens among the pieces of a text that starts on the given line. -/
def tokensFrom (line : Nat) (ps : List Piece) : List Token :=
  (endLines line ps).filterMap fun (p, line) => p.token? line

/-- The faults among them. -/
def faultsFrom (line : Nat) (ps : List Piece) : List LexFault :=
  (endLines line ps).filterMap fun (p, line) => p.fault? line

/-- The token that ends a list, on the given line. -/
def eofToken (line : Nat) : Token := ⟨.eof, "", line⟩

/-- All tokens of a text, ended by the end token on the text's last line; or all its faults. -/
def scan (source : String) : Except (List LexFault) (List Token) :=
  let ps := Piece.cut source.toList
  match faultsFrom 0 ps with
  | [] => .ok (tokensFrom 0 ps ++ [eofToken (Text.newlines source.toList)])
  | faults => .error faults

end RoxLang
