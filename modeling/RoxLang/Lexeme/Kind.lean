/-
# `RoxLang.Lexeme.Kind` — what a token can be

Nineteen marks and sixteen reserved words have a fixed spelling; identifiers, strings and
numbers have one of their own; one last kind ends every token list.  The spelling tables are
read in both directions, so each direction is one function and the other is a search.
-/

namespace RoxLang

/-- Punctuation and operators. -/
inductive Mark where
  | leftParen | rightParen | leftBrace | rightBrace
  | comma | dot | minus | plus | semicolon | slash | star
  | bang | bangEqual | equal | equalEqual
  | greater | greaterEqual | less | lessEqual
deriving DecidableEq, Inhabited

/-- Reserved words.  Some of them start statements that the language does not have yet. -/
inductive Word where
  | and | class_ | else_ | false_ | for_ | fun_ | if_ | nil
  | or | print | return_ | super | this | true_ | var | while_
deriving DecidableEq, Inhabited

namespace Mark

def all : List Mark :=
  [.leftParen, .rightParen, .leftBrace, .rightBrace, .comma, .dot, .minus, .plus, .semicolon,
   .slash, .star, .bang, .bangEqual, .equal, .equalEqual, .greater, .greaterEqual, .less,
   .lessEqual]

/-- How a mark is written. -/
def text : Mark → List Char
  | .leftParen => ['(']
  | .rightParen => [')']
  | .leftBrace => ['{']
  | .rightBrace => ['}']
  | .comma => [',']
  | .dot => ['.']
  | .minus => ['-']
  | .plus => ['+']
  | .semicolon => [';']
  | .slash => ['/']
  | .star => ['*']
  | .bang => ['!']
  | .bangEqual => ['!', '=']
  | .equal => ['=']
  | .equalEqual => ['=', '=']
  | .greater => ['>']
  | .greaterEqual => ['>', '=']
  | .less => ['<']
  | .lessEqual => ['<', '=']

def name : Mark → String
  | .leftParen => "LEFT_PAREN"
  | .rightParen => "RIGHT_PAREN"
  | .leftBrace => "LEFT_BRACE"
  | .rightBrace => "RIGHT_BRACE"
  | .comma => "COMMA"
  | .dot => "DOT"
  | .minus => "MINUS"
  | .plus => "PLUS"
  | .semicolon => "SEMICOLON"
  | .slash => "SLASH"
  | .star => "STAR"
  | .bang => "BANG"
  | .bangEqual => "BANG_EQUAL"
  | .equal => "EQUAL"
  | .equalEqual => "EQUAL_EQUAL"
  | .greater => "GREATER"
  | .greaterEqual => "GREATER_EQUAL"
  | .less => "LESS"
  | .lessEqual => "LESS_EQUAL"

theorem text_ne_nil (m : Mark) : m.text ≠ [] := by cases m <;> simp [text]

/-- The mark written as one character. -/
def ofChar? (c : Char) : Option Mark := all.find? fun m => m.text = [c]

/-- The longer mark that a following `=` makes of a mark. -/
def withEqual? : Mark → Option Mark
  | .bang => some .bangEqual
  | .equal => some .equalEqual
  | .greater => some .greaterEqual
  | .less => some .lessEqual
  | _ => none

/-- The spelling of the longer mark is that of the shorter one and an `=`. -/
theorem text_withEqual {m long : Mark} (h : m.withEqual? = some long) :
    long.text = m.text ++ ['='] := by
  cases m <;> simp [withEqual?] at h <;> subst h <;> rfl

/-- A mark found by its character is written as that character. -/
theorem text_of_ofChar? {c : Char} {m : Mark} (h : ofChar? c = some m) : m.text = [c] := by
  simpa using List.find?_some h

end Mark

namespace Word

def all : List Word :=
  [.and, .class_, .else_, .false_, .for_, .fun_, .if_, .nil,
   .or, .print, .return_, .super, .this, .true_, .var, .while_]

/-- How a reserved word is written. -/
def text : Word → List Char
  | .and => ['a', 'n', 'd']
  | .class_ => ['c', 'l', 'a', 's', 's']
  | .else_ => ['e', 'l', 's', 'e']
  | .false_ => ['f', 'a', 'l', 's', 'e']
  | .for_ => ['f', 'o', 'r']
  | .fun_ => ['f', 'u', 'n']
  | .if_ => ['i', 'f']
  | .nil => ['n', 'i', 'l']
  | .or => ['o', 'r']
  | .print => ['p', 'r', 'i', 'n', 't']
  | .return_ => ['r', 'e', 't', 'u', 'r', 'n']
  | .super => ['s', 'u', 'p', 'e', 'r']
  | .this => ['t', 'h', 'i', 's']
  | .true_ => ['t', 'r', 'u', 'e']
  | .var => ['v', 'a', 'r']
  | .while_ => ['w', 'h', 'i', 'l', 'e']

/-- The name of a reserved word's kind is the word in capitals. -/
def name (w : Word) : String := String.ofList (w.text.map Char.toUpper)

/-- The reserved word with the given spelling. -/
def ofText? (cs : List Char) : Option Word := all.find? fun w => w.text = cs

/-- A reserved word found by its spelling has that spelling. -/
theorem text_of_ofText? {cs : List Char} {w : Word} (h : ofText? cs = some w) : w.text = cs := by
  simpa using List.find?_some h

/-- Every reserved word is found by its spelling. -/
theorem ofText?_text (w : Word) : ofText? w.text = some w := by cases w <;> rfl

end Word

/-- The kinds of token. -/
inductive Kind where
  | mark (m : Mark)
  | word (w : Word)
  | identifier
  | string
  | number
  | eof
deriving DecidableEq, Inhabited

namespace Kind

def all : List Kind :=
  Mark.all.map .mark ++ [.identifier, .string, .number] ++ Word.all.map .word ++ [.eof]

/-- The name of a kind, as token descriptions give it. -/
def name : Kind → String
  | .mark m => m.name
  | .word w => w.name
  | .identifier => "IDENTIFIER"
  | .string => "STRING"
  | .number => "NUMBER"
  | .eof => "EOF"

/-- The kind with the given name. -/
def ofName? (s : String) : Option Kind := all.find? fun k => k.name = s

/-- The kind of a name: reserved, or an identifier. -/
def ofNameText (cs : List Char) : Kind :=
  match Word.ofText? cs with
  | some w => .word w
  | none => .identifier

end Kind

end RoxLang
