/-
# `RoxLang.Tree.Basic` — the trees of programs

One type holds expressions and statements, because a tree made by hand may mix them: a statement
may stand where a value is expected.  Such a tree may also hold a node that is no node of the
language at all, which nothing can print or run.  All that is known of it is the name of its class.

Chains of binary operators lean to the left.  `spine` takes such a chain apart into its first
operand and its steps, and `Spine.toTree` folds it again.  Chains grow with the length of an
expression, unlike everything else that nests, so `nesting` counts a whole chain as one level.
-/
import RoxLang.Lexeme.Token
import RoxLang.Value

namespace RoxLang

/-- A node of a program. -/
inductive Tree where
  /-- A value written out. -/
  | literal (value : Value)
  /-- An operator before its operand. -/
  | unary (operator : Token) (operand : Tree)
  /-- An operator between its operands. -/
  | binary (left : Tree) (operator : Token) (right : Tree)
  /-- An expression in parentheses. -/
  | grouping (inner : Tree)
  /-- A name that stands for its value. -/
  | reference (name : Token)
  /-- A new value for a name that some scope in sight defines. -/
  | assign (name : Token) (value : Tree)
  /-- An expression as a statement. -/
  | discard (value : Tree)
  /-- A statement that prints a value. -/
  | print (value : Tree)
  /-- A declaration without a value. -/
  | declare (name : Token)
  /-- A declaration with a value. -/
  | define (name : Token) (initializer : Tree)
  /-- Statements in a scope of their own. -/
  | block (statements : List Tree)
  /-- Something that is no node of the language, of the class with this name. -/
  | foreign (className : String)
deriving Inhabited

namespace Tree

/-- Whether a node is a binary operator, and so goes on a chain. -/
def isBinary : Tree → Bool
  | .binary .. => true
  | _ => false

/-- A chain of binary operators: an operand, and the operators after it, each with its right
operand. -/
structure Spine where
  first : Tree
  steps : List (Token × Tree)

/-- Put one more step on the left operand so far. -/
def extend (left : Tree) (step : Token × Tree) : Tree := .binary left step.1 step.2

/-- The tree of a chain, folded to the left. -/
def Spine.toTree (s : Spine) : Tree := s.steps.foldl extend s.first

/-- The chain that ends in the given steps. -/
def spineOnto : Tree → List (Token × Tree) → Spine
  | .binary left operator right, steps => left.spineOnto ((operator, right) :: steps)
  | t, steps => ⟨t, steps⟩

/-- The chain of a tree.  A tree that is no binary operator is a chain without steps. -/
def spine (t : Tree) : Spine := t.spineOnto []

theorem spineOnto_toTree : ∀ (t : Tree) (steps : List (Token × Tree)),
    (t.spineOnto steps).toTree = steps.foldl extend t
  | .binary l op r, steps => spineOnto_toTree l ((op, r) :: steps)
  | .literal _, _ | .unary .., _ | .grouping _, _ | .reference _, _ | .assign .., _
  | .discard _, _ | .print _, _ | .declare _, _ | .define .., _ | .block _, _ | .foreign _, _ => rfl

/-- Folding a tree's chain gives the tree back. -/
theorem spine_toTree (t : Tree) : t.spine.toTree = t := spineOnto_toTree t []

/-! ## Nesting -/

mutual

/-- How many levels deep a tree is.  The left operand of a binary operator is on the level of
the operator itself when it is one too. -/
def levels : (inChain : Bool) → Tree → Nat
  | inChain, .binary left _ right =>
      max (left.levels true) (right.levels false) + (if inChain then 0 else 1)
  | _, .unary _ operand => operand.levels false + 1
  | _, .grouping inner => inner.levels false + 1
  | _, .assign _ value => value.levels false + 1
  | _, .discard value => value.levels false + 1
  | _, .print value => value.levels false + 1
  | _, .define _ initializer => initializer.levels false + 1
  | _, .block statements => levelsOfAll statements + 1
  | _, .literal _ => 1
  | _, .reference _ => 1
  | _, .declare _ => 1
  | _, .foreign _ => 1

/-- The levels of the deepest of several trees. -/
def levelsOfAll : List Tree → Nat
  | [] => 0
  | t :: ts => max (t.levels false) (levelsOfAll ts)

end

/-- The number of levels of a tree, a chain of binary operators counted as one. -/
def nesting (t : Tree) : Nat := t.levels false

/-- The number of levels of a program. -/
def nestingOfAll (ts : List Tree) : Nat := levelsOfAll ts

end Tree

end RoxLang
