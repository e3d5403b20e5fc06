/-
# `RoxLang.Tree.Text` — trees as text

The text of a tree puts every operator before its operands, between parentheses.  A name stands
for itself; strings are in quotes but not escaped.  A chain of operators is written from the
inside out: the text so far becomes the first operand of the next step.

A tree that holds a foreign node has no text.  The fault names the first one that the printer
comes to.
-/
import RoxLang.Run.Fault
import RoxLang.Tree.Basic

namespace RoxLang.Tree

/-- A head and its parts, between parentheses. -/
def bracketed (head : String) (parts : List String) : String :=
  "(" ++ " ".intercalate (head :: parts) ++ ")"

/-- The text of a value written out: strings show their quotes. -/
def literalText : Value → String
  | .string s => "\"" ++ s ++ "\""
  | v => v.text

/-- The text of a tree of at most so many levels. -/
def renderWithin : (levels : Nat) → Tree → Except RunFault String
  | 0, _ => .error .nestingTooDeep
  | n + 1, t => match t with
    | .literal value => .ok (literalText value)
    | .unary operator operand => do
        return bracketed operator.lexeme [← renderWithin n operand]
    | .binary left operator right => do
        let s := (Tree.binary left operator right).spine
        let first ← renderWithin n s.first
        s.steps.foldlM (fun text (operator, operand) => do
          return bracketed operator.lexeme [text, ← renderWithin n operand]) first
    | .grouping inner => do return bracketed "group" [← renderWithin n inner]
    | .reference name => .ok name.lexeme
    | .assign name value => do
        return bracketed ("= " ++ name.lexeme) [← renderWithin n value]
    | .discard value => do return bracketed ";" [← renderWithin n value]
    | .print value => do return bracketed "print" [← renderWithin n value]
    | .declare name => .ok (bracketed ("var " ++ name.lexeme) [])
    | .define name initializer => do
        return bracketed ("var " ++ name.lexeme) [← renderWithin n initializer]
    | .block statements => do return bracketed "block" (← statements.mapM (renderWithin n))
    | .foreign className => .error (.foreignNode className)

/-- The text of a tree, if no node in it is foreign. -/
def render (t : Tree) : Except RunFault String := renderWithin t.nesting t

/-- The texts of a program's statements. -/
def renderAll (ts : List Tree) : Except RunFault (List String) := ts.mapM render

end RoxLang.Tree
