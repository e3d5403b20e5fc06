/-
# `RoxLang.Value` — what an expression evaluates to

Four kinds of value, told apart by their tag alone: no value of one kind equals a value of
another, and only `nil` and `false` are untrue.
-/
import RoxLang.Number.Numeral

namespace RoxLang

inductive Value where
  | nil
  | boolean (b : Bool)
  | number (x : Number)
  | string (s : String)
deriving DecidableEq, Inhabited

namespace Value

/-- The four kinds. -/
inductive Kind where
  | nil | boolean | number | string
deriving DecidableEq, Inhabited

/-- The name of a kind, as diagnostics and traces give it. -/
def Kind.name : Kind → String
  | .nil => "Nil"
  | .boolean => "Boolean"
  | .number => "Number"
  | .string => "String"

def kind : Value → Kind
  | .nil => .nil
  | .boolean _ => .boolean
  | .number _ => .number
  | .string _ => .string

/-- Zero and the empty string are true. -/
def isTruthy : Value → Bool
  | .nil => false
  | .boolean b => b
  | .number _ => true
  | .string _ => true

/-- Equality of the language: within a kind, and for numbers that of the number format. -/
def same : Value → Value → Bool
  | .nil, .nil => true
  | .boolean a, .boolean b => a == b
  | .number x, .number y => x.same y
  | .string s, .string t => s == t
  | _, _ => false

/-- The text of a value, as `print` writes it: a string stands for itself, without quotes. -/
def text : Value → String
  | .nil => "nil"
  | .boolean b => if b then "true" else "false"
  | .number x => x.text
  | .string s => s

/-- What is said of something that is no value of the language, given how it shows itself. -/
def rejection (shown : String) : String := s!"not a Rox value: {shown}"

end Value

end RoxLang
