/-
# `RoxLang.Proofs.Descent.Cursor` — the descent with a cursor that is watched

To the descent a place is a list of tokens: it cannot look at a token that it has left, and it
cannot go beyond the end.  Here the rules are read by a cursor that moves over all of the tokens,
end tokens and what follows them included.  A rule looks at the token that the cursor is on or at
the one before, a loop goes round for as long as it takes, and a fault is thrown where it is met and
caught by the declaration around it.  A number that is misread is thrown too, but no declaration
catches that.

The cursor is watched.  It must not look before the first token nor behind the first end token, each
round of a loop over declarations has to move it unless it is at the end, and no loop may go round
more often than there are tokens.  Where one of these is broken, reading stops for good, and no
declaration catches that.
-/
import RoxLang.Descent.Program

namespace RoxLang.Descent

/-! ## The cursor -/

/-- What reading with a cursor must not come to. -/
inductive Violation where
  /-- There is no token before the cursor where one is asked for. -/
  | lookedBeforeStart
  /-- A token behind the first end token is looked at. -/
  | passedEnd
  /-- A round of a loop over declarations leaves the cursor in its place, in front of the end. -/
  | stoodStill
  /-- A loop goes round more often than there are tokens. -/
  | cutShort
deriving DecidableEq

/-- What stops the reading of a rule: a fault, levels that have run out, a number that is misread,
or a violation. -/
inductive Interrupt where
  | fault (blame : Blame)
  | tooDeep
  | misread (token : Token)
  | violation (v : Violation)
deriving DecidableEq

/-- The state of a reading: the position of the cursor, the faults that are recorded, and the
positions of the left braces of all blocks that have been entered and not been left. -/
structure Cursor where
  position : Nat
  recorded : List Blame
  entered : List Nat
deriving DecidableEq

/-- The state in which reading starts. -/
def Cursor.start : Cursor := ⟨0, [], []⟩

/-- A reading that moves the cursor.  What stops it leaves the state as it is. -/
abbrev Walk (α : Type) : Type := EStateM Interrupt Cursor α

def violate {α : Type} (v : Violation) : Walk α := throw (.violation v)

section

variable (tokens : List Token)

/-- The token at an index. -/
def lookAt (i : Nat) : Walk Token :=
  match tokens[i]? with
  | none => violate .passedEnd
  | some t => if (tokens.take i).any Token.isEof then violate .passedEnd else return t

/-- The token that the cursor is on. -/
def peek : Walk Token := do
  let c ← get
  lookAt tokens c.position

/-- The token before the cursor. -/
def previous : Walk Token := do
  let c ← get
  match c.position with
  | 0 => violate .lookedBeforeStart
  | i + 1 => lookAt tokens i

/-- Move on by one token, unless the cursor is at the end, and give the token before it. -/
def advance : Walk Token := do
  let t ← peek tokens
  if t.isEof then previous tokens
  else do
    modify fun c => { c with position := c.position + 1 }
    previous tokens

/-- Take a token with a property, if the cursor is on one. -/
def take (p : Token → Bool) : Walk Bool := do
  let t ← peek tokens
  if p t then do
    let _ ← advance tokens
    return true
  else return false

/-- The token that the cursor is on, to be blamed. -/
def blameHere (reason : Reason) : Walk Blame := do
  let t ← peek tokens
  let c ← get
  return ⟨reason, t, c.position⟩

/-- The token before the cursor, to be blamed. -/
def blameBefore (reason : Reason) : Walk Blame := do
  let t ← previous tokens
  let c ← get
  return ⟨reason, t, c.position - 1⟩

def fail {α : Type} (reason : Reason) : Walk α := do
  let b ← blameHere tokens reason
  throw (.fault b)

/-- Take a token of a fixed kind. -/
def consume (kind : Kind) (reason : Reason) : Walk Token := do
  let t ← peek tokens
  if t.kind = kind then advance tokens else fail tokens reason

/-! ## Expressions -/

/-- The steps of a chain behind its operands so far, at most so many looks for one. -/
def walkSteps (tier : Tier) (operand : Walk Tree) : (rounds : Nat) → Tree → Walk Tree
  | 0, _ => violate .cutShort
  | rounds + 1, left => do
      if ← take tokens (·.kind.tier? = some tier) then do
        let operator ← previous tokens
        let right ← operand
        walkSteps tier operand rounds (.binary left operator right)
      else return left

/-- The assignment of a value to what was read as its target. -/
def assignTo (target : Tree) (wrong : Blame) (value : Tree) : Walk Tree :=
  match target with
  | .reference name => return .assign name value
  | _ => throw (.fault wrong)

/-- Read by a rule within so many levels. -/
def walkWithin : (levels : Nat) → Rule → Walk Tree
  | 0, _ => throw .tooDeep
  | n + 1, .assignment => do
      let target ← walkWithin n (.chain .equality)
      if ← take tokens (·.kind = .mark .equal) then do
        let wrong ← blameBefore tokens .assignmentTarget
        let value ← walkWithin n .assignment
        assignTo target wrong value
      else return target
  | n + 1, .chain tier => do
      let first ← walkWithin n (.operandOf tier)
      walkSteps tokens tier (walkWithin n (.operandOf tier)) tokens.length first
  | n + 1, .unary => do
      if ← take tokens (·.kind.isUnary) then do
        let operator ← previous tokens
        let operand ← walkWithin n .unary
        return .unary operator operand
      else walkWithin n .primary
  | n + 1, .primary => do
      let t ← peek tokens
      match Tree.atom? t with
      | some atom => do
          let _ ← advance tokens
          return atom
      | none => do
          if ← take tokens (·.kind = .number) then do
            let number ← previous tokens
            throw (.misread number)
          else if ← take tokens (·.kind = .mark .leftParen) then do
            let inner ← walkWithin n .assignment
            let _ ← consume tokens (.mark .rightParen) .groupEnd
            return .grouping inner
          else fail tokens .noExpression

/-! ## Statements without blocks -/

def walkTerminated (levels : Nat) (reason : Reason) : Walk Tree := do
  let value ← walkWithin tokens levels .assignment
  let _ ← consume tokens (.mark .semicolon) reason
  return value

/-- What follows the word that starts a declaration. -/
def walkDeclaration (levels : Nat) : Walk Tree := do
  let name ← consume tokens .identifier .variableName
  if ← take tokens (·.kind = .mark .equal) then do
    let value ← walkTerminated tokens levels .declarationEnd
    return .define name value
  else do
    let _ ← consume tokens (.mark .semicolon) .declarationEnd
    return .declare name

/-- What follows the word that starts a print statement. -/
def walkPrint (levels : Nat) : Walk Tree := do
  let value ← walkTerminated tokens levels .valueEnd
  return .print value

/-- An expression as a statement. -/
def walkDiscard (levels : Nat) : Walk Tree := do
  let value ← walkTerminated tokens levels .expressionEnd
  return .discard value

/-! ## Recovery -/

/-- Skip to a boundary, with at most so many looks for one. -/
def walkSkip : (rounds : Nat) → Walk Unit
  | 0 => violate .cutShort
  | rounds + 1 => do
      let t ← peek tokens
      if t.isEof then return ()
      else do
        let before ← previous tokens
        if before.kind = .mark .semicolon || t.kind.startsStatement then return ()
        else do
          let _ ← advance tokens
          walkSkip rounds

/-- Record a fault and go on at the next boundary. -/
def recover (b : Blame) : Walk (Option Tree) := do
  modify fun c => { c with recorded := c.recorded ++ [b] }
  let _ ← advance tokens
  walkSkip tokens tokens.length
  return none

/-- What a declaration does about what stops it: it recovers, but neither from a misread number nor
from a violation. -/
def recoverFrom : Interrupt → Walk (Option Tree)
  | .fault b => recover tokens b
  | .tooDeep => do
      let b ← blameHere tokens .nestingTooDeep
      recover tokens b
  | .misread t => throw (.misread t)
  | .violation v => violate v

def recovering (walk : Walk Tree) : Walk (Option Tree) :=
  tryCatch (do return some (← walk)) (recoverFrom tokens)

/-! ## Declarations and blocks -/

/-- A round of a loop over declarations, which has to move the cursor or to end at the end. -/
def moving (one : Walk (Option Tree)) : Walk (Option Tree) := do
  let before ← get
  let tree? ← one
  let after ← get
  let t ← peek tokens
  if before.position < after.position || t.isEof then return tree? else violate .stoodStill

/-- One declaration after another, until the end or until a token at which to stop. -/
def walkAll (one : Walk (Option Tree)) (stop : Token → Bool) : (rounds : Nat) → Walk (List Tree)
  | 0 => violate .cutShort
  | rounds + 1 => do
      let t ← peek tokens
      if stop t || t.isEof then return []
      else do
        let tree? ← moving tokens one
        let others ← walkAll one stop rounds
        return tree?.toList ++ others

/-- What follows the left brace of a block. -/
def walkBlock (one : Walk (Option Tree)) : Walk Tree := do
  modify fun c => { c with entered := (c.position - 1) :: c.entered }
  let trees ← walkAll tokens one closesBlock tokens.length
  let _ ← consume tokens (.mark .rightBrace) .blockEnd
  modify fun c => { c with entered := c.entered.tail }
  return .block trees

/-- A declaration within so many levels. -/
def walkAttempt : (levels : Nat) → Walk (Option Tree)
  | 0 => recovering tokens (throw .tooDeep)
  | n + 1 => recovering tokens do
      if ← take tokens (·.kind = .word .var) then walkDeclaration tokens n
      else if ← take tokens (·.kind = .word .print) then walkPrint tokens n
      else if ← take tokens (·.kind = .mark .leftBrace) then walkBlock tokens (walkAttempt n)
      else walkDiscard tokens n

/-- A whole program. -/
def walkProgram : Walk (Except Rejection (List Tree)) := do
  let trees ← walkAll tokens (walkAttempt tokens levelLimit) (fun _ => false) tokens.length
  let c ← get
  return outcome trees c.recorded

end

end RoxLang.Descent
