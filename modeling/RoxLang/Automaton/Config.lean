/-
# `RoxLang.Automaton.Config` — a pushdown machine that builds trees token by token

This reader of programs looks at one token at a time and keeps everything it has not finished on
stacks.  Between tokens it is in one of five phases: where a declaration may start, behind `var`,
behind the declared name, where an operand has to come, and behind an operand.  Inside an
expression the stack holds what waits for the operand being read: open groups, signs, left operands
with their operator, and names to be assigned.

A sign takes its operand as soon as that is complete.  A left operand and its operator wait until
an operator of a looser or equal tier, or the end of the expression, shows that the right operand
is complete.  A name can become the target of an assignment only while it is all there is of its
expression.

`step?` says which tokens the machine can take next, and this is what makes it more than a second
parser: the reader of characters asks it which of several readings of the text is meant.
-/
import RoxLang.Tree.Operator

namespace RoxLang.Automaton

/-- What waits for the operand being read. -/
inductive Frame where
  /-- An open parenthesis. -/
  | group
  /-- An operator before its operand. -/
  | sign (operator : Token)
  /-- A left operand, its operator and the tier of that. -/
  | left (tier : Tier) (operand : Tree) (operator : Token)
  /-- A name to be assigned. -/
  | target (name : Token)

/-- What waits for the whole expression. -/
inductive Head where
  | print
  | define (name : Token)
  | discard

/-- Where in a declaration the machine is. -/
inductive Phase where
  /-- Where a declaration may start. -/
  | between
  /-- Behind the word that starts a declaration. -/
  | naming
  /-- Behind the declared name. -/
  | named (name : Token)
  /-- Where an operand has to come. -/
  | operand (head : Head) (stack : List Frame)
  /-- Behind an operand. -/
  | operator (head : Head) (stack : List Frame) (operand : Tree)

/-- The state of the machine: the statements before each open block, innermost block first; those
of the innermost block; and the phase.  Lists of statements hold the last one first. -/
structure Config where
  outer : List (List Tree)
  done : List Tree
  phase : Phase

namespace Config

def start : Config := ⟨[], [], .between⟩

/-! ## Finishing parts of an expression -/

/-- Signs take a complete operand. -/
def settle : List Frame → Tree → List Frame × Tree
  | .sign operator :: stack, e => settle stack (.unary operator e)
  | stack, e => (stack, e)

/-- Operators at least as tight as a tier take their right operand. -/
def reduceTo (tier : Tier) : List Frame → Tree → List Frame × Tree
  | .left tighter l operator :: stack, e =>
      if tier.rank ≤ tighter.rank then reduceTo tier stack (.binary l operator e)
      else (.left tighter l operator :: stack, e)
  | stack, e => (stack, e)

/-- Everything up to the innermost open group takes the expression's last operand. -/
def close : List Frame → Tree → List Frame × Tree
  | .left _ l operator :: stack, e => close stack (.binary l operator e)
  | .target name :: stack, e => close stack (.assign name e)
  | .sign operator :: stack, e => close stack (.unary operator e)
  | stack, e => (stack, e)

/-- Whether an expression starts on top of a stack. -/
def startsExpression : List Frame → Bool
  | [] | .group :: _ | .target _ :: _ => true
  | _ => false

/-- The statement that an expression completes. -/
def complete : Head → Tree → Tree
  | .print, e => .print e
  | .define name, e => .define name e
  | .discard, e => .discard e

/-! ## Steps -/

/-- The phase after a token where an operand has to come. -/
def operandStep? (head : Head) (stack : List Frame) (t : Token) : Option Phase :=
  match Tree.atom? t with
  | some atom =>
      let (stack, e) := settle stack atom
      some (.operator head stack e)
  | none =>
      if t.kind = .mark .leftParen then some (.operand head (.group :: stack))
      else if t.kind.isUnary then some (.operand head (.sign t :: stack))
      else none

/-- The phase after an operator behind an operand. -/
def infixStep (head : Head) (stack : List Frame) (e : Tree) (tier : Tier) (t : Token) : Phase :=
  let (stack, l) := reduceTo tier stack e
  .operand head (.left tier l t :: stack)

/-- The phase after the `=` of an assignment. -/
def assignStep? (head : Head) (stack : List Frame) : Tree → Option Phase
  | .reference name =>
      if startsExpression stack then some (.operand head (.target name :: stack)) else none
  | _ => none

/-- The phase after a closing parenthesis. -/
def groupStep? (head : Head) (stack : List Frame) (e : Tree) : Option Phase :=
  match close stack e with
  | (.group :: stack, e) =>
      let (stack, e) := settle stack (.grouping e)
      some (.operator head stack e)
  | _ => none

/-- The statement that a semicolon completes. -/
def statement? (head : Head) (stack : List Frame) (e : Tree) : Option Tree :=
  match close stack e with
  | ([], e) => some (complete head e)
  | _ => none

/-- A statement has been read. -/
def add (c : Config) (statement : Tree) : Config :=
  ⟨c.outer, statement :: c.done, .between⟩

/-- The machine in another phase. -/
def inPhase (c : Config) (phase : Phase) : Config := { c with phase := phase }

/-- The machine after a token behind an operand. -/
def operatorStep? (c : Config) (head : Head) (stack : List Frame) (e : Tree) (t : Token) :
    Option Config :=
  match t.kind with
  | .mark .equal => (assignStep? head stack e).map c.inPhase
  | .mark .rightParen => (groupStep? head stack e).map c.inPhase
  | .mark .semicolon => (statement? head stack e).map c.add
  | kind => kind.tier?.map fun tier => c.inPhase (infixStep head stack e tier t)

/-- The machine after a token where a declaration may start. -/
def startStep? (c : Config) (t : Token) : Option Config :=
  match t.kind with
  | .word .var => some (c.inPhase .naming)
  | .word .print => some (c.inPhase (.operand .print []))
  | .mark .leftBrace => some ⟨c.done :: c.outer, [], .between⟩
  | .mark .rightBrace => match c.outer with
    | before :: outer => some ⟨outer, .block c.done.reverse :: before, .between⟩
    | [] => none
  | _ => (operandStep? .discard [] t).map c.inPhase

/-- The machine after a token, if it can take that token. -/
def step? (c : Config) (t : Token) : Option Config :=
  match c.phase with
  | .between => c.startStep? t
  | .naming => if t.kind = .identifier then some (c.inPhase (.named t)) else none
  | .named name => match t.kind with
    | .mark .equal => some (c.inPhase (.operand (.define name) []))
    | .mark .semicolon => some (c.add (.declare name))
    | _ => none
  | .operand head stack => (operandStep? head stack t).map c.inPhase
  | .operator head stack e => c.operatorStep? head stack e t

/-- The program read, if it may end here. -/
def finish? (c : Config) : Option (List Tree) :=
  match c.phase, c.outer with
  | .between, [] => some c.done.reverse
  | _, _ => none

end Config

end RoxLang.Automaton
