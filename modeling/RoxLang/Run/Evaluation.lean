/-
# `RoxLang.Run.Evaluation` — running trees

Running a tree gives its value; a statement's value is `nil`.  Operands are run before their
operator is applied, left before right.  A chain of binary operators is run from its first operand
along its steps, so its length costs no depth; everything else that nests costs one level, and
where the levels run out the run stops.

At the third level of verbosity every value that is *used* is noted, with the text of the
expression it came from.  Running and using differ for a statement of a program or a block: it is
run, but its value is not used.
-/
import RoxLang.Run.Machine
import RoxLang.Run.Operator
import RoxLang.Tree.Text

namespace RoxLang

namespace Run

/-- The text of a tree, which a foreign node in it denies. -/
def textOf (t : Tree) : Run String := ofResult t.render

/-- Use the value of a tree: note it if that is asked for. -/
def observed (t : Tree) (value : Value) : Run Value := do
  if (← get).notes 3 then
    note (.evaluated (← textOf t) value)
  return value

/-- Run a tree within so many levels. -/
def treeWithin : (levels : Nat) → Tree → Run Value
  | 0, _ => stop .nestingTooDeep
  | n + 1, t =>
    let evaluate (t : Tree) : Run Value := do observed t (← treeWithin n t)
    match t with
    | .literal value => pure value
    | .unary operator operand => do
        ofResult (applyUnary operator (← evaluate operand))
    | .binary left operator right => do
        let chain := (Tree.binary left operator right).spine
        let first ← evaluate chain.first
        chain.steps.foldlM (fun left (operator, operand) => do
          let right ← evaluate operand
          ofResult (applyBinary operator left right)) first
    | .grouping inner => evaluate inner
    | .reference name => read name.lexeme
    | .assign name value => do
        let v ← evaluate value
        assign name.lexeme v
        return v
    | .discard value => do
        let _ ← evaluate value
        return .nil
    | .print value => do
        printLine (← evaluate value).text
        return .nil
    | .declare name => do
        declare name.lexeme .nil
        return .nil
    | .define name initializer => do
        declare name.lexeme (← evaluate initializer)
        return .nil
    | .block statements => do
        inScope (statements.forM fun s => do let _ ← treeWithin n s)
        return .nil
    | .foreign className => stop (.foreignNode className)

/-- How many levels a run may nest. -/
def levelLimit : Nat := 330

/-- Run a tree and use its value. -/
def evaluate (t : Tree) : Run Value := do observed t (← treeWithin levelLimit t)

/-- Run a statement of a program. -/
def statement (t : Tree) : Run Unit := do
  if (← get).notes 1 then
    note (.executing (← textOf t))
  let _ ← treeWithin levelLimit t

/-- Run a program. -/
def program (ts : List Tree) : Run Unit := ts.forM statement

end Run

end RoxLang
