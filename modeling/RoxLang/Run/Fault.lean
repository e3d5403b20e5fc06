/-
# `RoxLang.Run.Fault` — what can stop a run

Operators refuse operands of the wrong kind, a name may be undefined, an expression may nest too
deeply.  Trees that no reader makes can fail in further ways: an operator that is none, or a node
that is no node of the language.  The last is no fault of a program and belongs to no category.
It stops the printer of trees as it stops a run.  Nor does the machine's refusal to divide by zero
belong to a category, since no program is to meet it.
-/
import RoxLang.Diagnostic
import RoxLang.Value

namespace RoxLang

/-- Why a run stops. -/
inductive RunFault where
  | negatedKind (operand : Value.Kind)
  | addedKinds (left right : Value.Kind)
  | leftOperand (operator : String) (kind : Value.Kind)
  | rightOperand (operator : String) (kind : Value.Kind)
  | unsupportedUnary (operator : String)
  | unsupportedBinary (operator : String)
  | undefinedVariable (name : String)
  | nestingTooDeep
  | foreignNode (className : String)
  | divisionByZero
deriving DecidableEq, Inhabited

namespace RunFault

/-- The category of a fault.  A foreign node has none, and a division that the machine refuses has
none either. -/
def category? : RunFault → Option Category
  | .undefinedVariable _ => some .undefinedVariable
  | .nestingTooDeep => some .runtime
  | .foreignNode _ | .divisionByZero => none
  | _ => some .typeMismatch

def message : RunFault → String
  | .negatedKind kind => s!"Operand of unary '-' must be a Number, got {kind.name}"
  | .addedKinds left right =>
      s!"Operands of '+' must be two Numbers or two Strings, got {left.name} and {right.name}"
  | .leftOperand operator kind =>
      s!"Left operand of '{operator}' must be a Number, got {kind.name}"
  | .rightOperand operator kind =>
      s!"Right operand of '{operator}' must be a Number, got {kind.name}"
  | .unsupportedUnary operator => s!"Unsupported unary operator '{operator}'"
  | .unsupportedBinary operator => s!"Unsupported binary operator '{operator}'"
  | .undefinedVariable name => s!"Undefined variable '{name}'"
  | .nestingTooDeep => "Expression nesting too deep"
  | .foreignNode className => s!"accept: unexpected node type {className}"
  | .divisionByZero => "float division by zero"

/-- The line that reports a fault.  Faults of a run carry no source line. -/
def render (f : RunFault) : String :=
  match f.category? with
  | some category => Diagnostic.render ⟨category, f.message, none⟩
  | none => f.message

end RunFault

end RoxLang
