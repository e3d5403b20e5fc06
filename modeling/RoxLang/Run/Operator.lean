/-
# `RoxLang.Run.Operator` — operators applied to values

Equality takes operands of any kind.  `+` takes two numbers or two strings.  Everything else
takes two numbers, and the left operand is looked at first.  An operator is told by the kind of its
token; diagnostics show the token's lexeme.

The machine divides by anything but zero.  The language divides by zeros too, so `divide` looks at
the divisor first and leaves to the machine only what it takes.
-/
import RoxLang.Run.Fault

namespace RoxLang

/-! ## Division -/

namespace Number

/-- The machine's quotient, which a zero divisor denies. -/
def quotient (x y : Number) : Except RunFault Number :=
  if y.same zero then .error .divisionByZero else .ok (x / y)

/-- The quotient of the language.  A zero under anything else gives an infinity with the sign of
both, and a zero under a zero or a NaN gives a NaN. -/
def divide (x y : Number) : Except RunFault Number :=
  if y.same zero then
    if x.same zero || x.isNaN then .ok nan
    else .ok (if x.lt zero != y.isNegative then -infinity else infinity)
  else x.quotient y

/-- The machine is never asked to divide by zero. -/
theorem exists_divide (x y : Number) : ∃ z, x.divide y = .ok z := by
  unfold divide
  split
  · split <;> exact ⟨_, rfl⟩
  · next hzero => exact ⟨_, if_neg hzero⟩

end Number

/-! ## Operators -/

/-- An operator before its operand. -/
def applyUnary (operator : Token) (operand : Value) : Except RunFault Value :=
  match operator.kind, operand with
  | .mark .minus, .number x => .ok (.number (-x))
  | .mark .minus, v => .error (.negatedKind v.kind)
  | .mark .bang, v => .ok (.boolean (!v.isTruthy))
  | _, _ => .error (.unsupportedUnary operator.lexeme)

/-- What an operator that takes numbers makes of two of them. -/
def arithmetic (operator : Token) (x y : Number) : Except RunFault Value :=
  match operator.kind with
  | .mark .minus => .ok (.number (x - y))
  | .mark .star => .ok (.number (x * y))
  | .mark .slash => (x.divide y).map .number
  | .mark .greater => .ok (.boolean (y.lt x))
  | .mark .greaterEqual => .ok (.boolean (y.le x))
  | .mark .less => .ok (.boolean (x.lt y))
  | .mark .lessEqual => .ok (.boolean (x.le y))
  | _ => .error (.unsupportedBinary operator.lexeme)

/-- The sum of two numbers, or two strings end to end. -/
def addValues : Value → Value → Except RunFault Value
  | .number x, .number y => .ok (.number (x + y))
  | .string s, .string t => .ok (.string (s ++ t))
  | v, w => .error (.addedKinds v.kind w.kind)

/-- An operator that takes numbers only.  Wrong operands are found before it is found that there
is no such operator. -/
def applyToNumbers (operator : Token) : Value → Value → Except RunFault Value
  | .number x, .number y => arithmetic operator x y
  | .number _, w => .error (.rightOperand operator.lexeme w.kind)
  | v, _ => .error (.leftOperand operator.lexeme v.kind)

/-- An operator between its operands. -/
def applyBinary (operator : Token) (left right : Value) : Except RunFault Value :=
  match operator.kind with
  | .mark .equalEqual => .ok (.boolean (left.same right))
  | .mark .bangEqual => .ok (.boolean (!left.same right))
  | .mark .plus => addValues left right
  | _ => applyToNumbers operator left right

end RoxLang
