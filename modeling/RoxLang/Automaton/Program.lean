/-
# `RoxLang.Automaton.Program` — programs read without a separate scan

Characters are cut into pieces as always, but what a piece *is* depends on what the machine can
take.  A mark of two characters is taken as its first character where only that one fits; a word
of a statement is taken as a name where only a name fits.  The longest reading that fits is taken.
Words reserved for statements that the language does not have are no reading at all, and neither
are a comma and a point.

The first place where no reading fits ends the reading of the program; nothing behind it is looked
at.  The fault shows the longest reading there, or the bare character if there is none.  Tokens
carry the line on which they *start*.
-/
import RoxLang.Automaton.Config
import RoxLang.Lexeme.Scan
import RoxLang.ParseFault

namespace RoxLang

/-- The mark that is left of a longer one without its `=`. -/
def Mark.withoutEqual? : Mark → Option Mark
  | .bangEqual => some .bang
  | .equalEqual => some .equal
  | .greaterEqual => some .greater
  | .lessEqual => some .less
  | _ => none

/-- Whether statements or values of the language use a reserved word. -/
def Word.inUse : Word → Bool
  | .var | .print | .true_ | .false_ | .nil => true
  | _ => false

namespace Automaton

/-- How many levels a program may nest. -/
def levelLimit : Nat := 500

/-- A token that a piece of text may be, and the text behind it. -/
structure Reading where
  token : Token
  rest : List Char

/-- A mark read as such. -/
def markReading (line : Nat) (rest : List Char) (m : Mark) : Reading :=
  ⟨⟨.mark m, String.ofList m.text, line⟩, rest⟩

/-- The tokens that a piece may be, longest first, given the text behind the piece. -/
def readings (line : Nat) (rest : List Char) : Piece → List Reading
  | .mark m => match m with
    | .comma | .dot => []
    | _ =>
        let whole := markReading line rest m
        match m.withoutEqual? with
        | some short => [whole, markReading line ('=' :: rest) short]
        | none => [whole]
  | .name cs =>
      let name := ⟨⟨.identifier, String.ofList cs, line⟩, rest⟩
      match Word.ofText? cs with
      | none => [name]
      | some w => if w.inUse then [⟨⟨.word w, String.ofList cs, line⟩, rest⟩, name] else []
  | p => (p.token? line).toList.map (⟨·, rest⟩)

/-- Whether a piece only separates tokens. -/
def isTrivia : Piece → Bool
  | .blank _ | .comment _ => true
  | _ => false

/-- The fault at a place where no reading fits, which starts with the character `c`. -/
def faultAt (c : Char) (line : Nat) : List Reading → ParseFault
  | r :: _ => ⟨.unexpectedToken, r.token⟩
  | [] => ⟨.unexpectedCharacter, ⟨.identifier, String.singleton c, line⟩⟩

/-- Let the machine take the first reading that fits. -/
def take? (config : Config) (rs : List Reading) : Option (Config × Reading) :=
  rs.findSome? fun r => (config.step? r.token).map (·, r)

/-- Run the machine over a text that starts on the given line, for at most so many pieces. -/
def runWithin : Nat → Config → (line : Nat) → List Char → Except ParseFault Config
  | n + 1, config, line, c :: cs =>
      let (piece, rest) := Piece.read c cs
      if isTrivia piece then runWithin n config (line + piece.newlines) rest
      else
        let rs := readings line rest piece
        match take? config rs with
        | some (config, r) => runWithin n config (line + piece.newlines) r.rest
        | none => .error (faultAt c line rs)
  | _, config, _, _ => .ok config

/-- Run the machine over a text. -/
def run (cs : List Char) : Except ParseFault Config := runWithin cs.length .start 0 cs

/-- The program that a text spells. -/
def parse (source : String) : Except ParseFault (List Tree) := do
  let cs := source.toList
  let eof := eofToken (Text.newlines cs)
  match (← run cs).finish? with
  | none => .error ⟨.unexpectedToken, eof⟩
  | some trees =>
      if Tree.nestingOfAll trees ≤ levelLimit then .ok trees
      else .error ⟨.nestingTooDeep, eof⟩

end Automaton

end RoxLang
