/-
# `RoxLang.Descent.Expression` — expressions read by descent through the rules

Each rule of the expression grammar reads a prefix of the tokens and leaves the rest:

    assignment  →  name "=" assignment  |  equality chain
    chain       →  operand ( operator operand )*        one rule for each of the four tiers
    unary       →  ( "!" | "-" ) unary  |  primary
    primary     →  a literal  |  a name  |  "(" assignment ")"

The left side of an assignment is read as an equality chain first and judged afterwards, so a
wrong target is found only when the value behind it has been read: the fault blames the `=`, but
reading has gone on past it.  A fault therefore keeps two places, the blamed one and the one where
reading stopped.

A number token whose lexeme does not read as a number is no operand either, and what is wrong with
it is a reason of its own: the program above does not recover from it.

A place is the list of tokens from there on; the end is the empty list.  Every rule entered costs
one level of a budget, and where the budget runs out the expression nests too deeply.
-/
import RoxLang.ParseFault
import RoxLang.Tree.Operator

namespace RoxLang.Descent

/-- Why a rule does not apply: the reason, the place to blame, and where reading stopped. -/
structure Failure where
  reason : Reason
  blamed : List Token
  resume : List Token
deriving DecidableEq, Inhabited

/-- A failure that blames the place where reading stopped. -/
def Failure.here (reason : Reason) (place : List Token) : Failure := ⟨reason, place, place⟩

/-- The rules of the expression grammar. -/
inductive Rule where
  | assignment
  | chain (tier : Tier)
  | unary
  | primary
deriving DecidableEq, Inhabited

/-- The rule for the operands of a tier: the next tighter tier. -/
def Rule.operandOf : Tier → Rule
  | .equality => .chain .comparison
  | .comparison => .chain .term
  | .term => .chain .factor
  | .factor => .unary

/-- Read one token of a fixed kind. -/
def expect (kind : Kind) (reason : Reason) : List Token → Except Failure (Token × List Token)
  | t :: ts => if t.kind = kind then .ok (t, ts) else .error (.here reason (t :: ts))
  | [] => .error (.here reason [])

/-- Read the steps of a chain behind its operands so far, at most so many. -/
def readSteps (tier : Tier) (operand : List Token → Except Failure (Tree × List Token)) :
    Nat → Tree → List Token → Except Failure (Tree × List Token)
  | steps + 1, left, t :: ts =>
      if t.kind.tier? = some tier then do
        let (right, rest) ← operand ts
        readSteps tier operand steps (.binary left t right) rest
      else .ok (left, t :: ts)
  | _, left, ts => .ok (left, ts)

/-- The assignment of a value to what was read as its target; `place` is that of the `=`. -/
def assigned (target : Tree) (place : List Token) :
    Except Failure (Tree × List Token) → Except Failure (Tree × List Token)
  | .error f => .error f
  | .ok (value, rest) => match target with
    | .reference name => .ok (.assign name value, rest)
    | _ => .error ⟨.assignmentTarget, place, rest⟩

/-- Why no operand starts with a token: nothing starts so, or it is a number that is misread. -/
def noOperand (t : Token) : Reason := if t.kind = .number then .misreadNumber else .noExpression

/-- Read by a rule within so many levels. -/
def readWithin : (levels : Nat) → Rule → List Token → Except Failure (Tree × List Token)
  | 0, _, ts => .error (.here .nestingTooDeep ts)
  | n + 1, .assignment, ts => do
      let (target, rest) ← readWithin n (.chain .equality) ts
      match rest with
      | [] => .ok (target, [])
      | t :: after =>
          if t.kind = .mark .equal then assigned target rest (readWithin n .assignment after)
          else .ok (target, rest)
  | n + 1, .chain tier, ts => do
      let (first, rest) ← readWithin n (.operandOf tier) ts
      readSteps tier (readWithin n (.operandOf tier)) rest.length first rest
  | n + 1, .unary, t :: ts =>
      if t.kind.isUnary then do
        let (operand, rest) ← readWithin n .unary ts
        .ok (.unary t operand, rest)
      else readWithin n .primary (t :: ts)
  | n + 1, .unary, [] => readWithin n .primary []
  | _ + 1, .primary, [] => .error (.here .noExpression [])
  | n + 1, .primary, t :: ts =>
      match Tree.atom? t with
      | some atom => .ok (atom, ts)
      | none =>
          if t.kind = .mark .leftParen then do
            let (inner, rest) ← readWithin n .assignment ts
            let (_, rest) ← expect (.mark .rightParen) .groupEnd rest
            .ok (.grouping inner, rest)
          else .error (.here (noOperand t) (t :: ts))

end RoxLang.Descent
