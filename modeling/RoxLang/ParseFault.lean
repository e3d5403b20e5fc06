/-
# `RoxLang.ParseFault` — why tokens are no program

A fault has a reason and blames one token.  The reader that recovers from faults gives the reasons
up to `nestingTooDeep`, the one that stops at the first fault gives `nestingTooDeep` and the two
behind it.  A number that is misread is no fault of a program: only a token made by hand can be such
a one, and it is never reported like the others.
-/
import RoxLang.Diagnostic

namespace RoxLang

/-- What is wrong at the blamed token. -/
inductive Reason where
  | variableName
  | declarationEnd
  | valueEnd
  | expressionEnd
  | blockEnd
  | groupEnd
  | noExpression
  | assignmentTarget
  | nestingTooDeep
  | unexpectedToken
  | unexpectedCharacter
  | misreadNumber
deriving DecidableEq, Inhabited

def Reason.message : Reason → String
  | .variableName => "Expect variable name."
  | .declarationEnd => "Expect ';' after variable declaration."
  | .valueEnd => "Expect ';' after value."
  | .expressionEnd => "Expect ';' after expression."
  | .blockEnd => "Expect '\x7d' after block."
  | .groupEnd => "Expect ')' after expression."
  | .noExpression => "Expected expression"
  | .assignmentTarget => "Invalid assignment target"
  | .nestingTooDeep => "Expression nesting too deep"
  | .unexpectedToken => "Unexpected token"
  | .unexpectedCharacter => "Unexpected character"
  | .misreadNumber => "Misread number"

/-- A reason and the token it blames. -/
structure ParseFault where
  reason : Reason
  token : Token
deriving DecidableEq, Inhabited

def ParseFault.diagnostic (f : ParseFault) : Diagnostic := .parse f.reason.message f.token

end RoxLang
