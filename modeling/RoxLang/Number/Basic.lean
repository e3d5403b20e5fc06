/-
# `RoxLang.Number.Basic` — numbers as binary64 words

A number is a 64-bit word in the binary64 format, so the two zeros differ, a NaN equals itself
as a word, and equality of numbers *as values of the language* is a separate operation.

Magnitudes are exact: every finite number is a whole multiple of the least positive one, which
is 2⁻¹⁰⁷⁴, and `units` is that multiple.  Rounding works on this scale in natural numbers.
`ofRatio` rounds a quotient to the nearest number, a half to the even neighbour, and is the
only way a numeral becomes a number.
-/

namespace RoxLang

/-- A number of the language: a binary64 word. -/
structure Number where
  bits : UInt64
deriving DecidableEq, Inhabited

namespace Number

/-! ## The fields of the word -/

/-- The weight of the sign bit. -/
def signWeight : Nat := Nat.pow 2 63

/-- The weight of the exponent field's lowest bit. -/
def exponentWeight : Nat := Nat.pow 2 52

/-- The word of positive infinity; larger magnitudes are NaNs. -/
def infinityWord : Nat := 2047 * exponentWeight

/-- How many times the least positive number goes into one. -/
def unitsPerOne : Nat := Nat.pow 2 1074

/-- The word without its sign. -/
def magnitude (x : Number) : Nat := x.bits.toNat % signWeight

def isNegative (x : Number) : Bool := decide (signWeight ≤ x.bits.toNat)

def isNaN (x : Number) : Bool := decide (infinityWord < x.magnitude)

def isInfinite (x : Number) : Bool := decide (x.magnitude = infinityWord)

/-- The magnitude of a finite number in units of the least positive one. -/
def units (x : Number) : Nat :=
  let exponent := x.magnitude / exponentWeight
  let fraction := x.magnitude % exponentWeight
  if exponent = 0 then fraction else (exponentWeight + fraction) * Nat.pow 2 (exponent - 1)

/-- The number with the given word; only the low 64 bits count. -/
def ofWord (word : Nat) : Number := ⟨UInt64.ofNat word⟩

def zero : Number := ofWord 0

/-- What too large a numeral reads as. -/
def infinity : Number := ofWord infinityWord

/-- The NaN whose only fraction bit is the highest one. -/
def nan : Number := ofWord (infinityWord + exponentWeight / 2)

/-! ## Rounding -/

/-- The whole number nearest to a quotient; a half goes to the even neighbour. -/
def roundHalfEven (num den : Nat) : Nat :=
  let floor := num / den
  let twice := 2 * (num % den)
  if twice < den then floor
  else if den < twice then floor + 1
  else floor + floor % 2

/-- The number nearest to `num / den`, a half to the even neighbour, and infinity from half a
unit past the largest finite number on.  The quotient is scaled so that its rounded significand
has at most 53 bits; adding the scale to the exponent field is then exact even when rounding
carries into the next power of two. -/
def ofRatio (num den : Nat) : Number :=
  let scaled := num * unitsPerOne
  let shift := (scaled / den).log2 - 52
  let significand := roundHalfEven scaled (den * Nat.pow 2 shift)
  ofWord (min infinityWord (shift * exponentWeight + significand))

/-! ## Arithmetic -/

/-- The number as a machine word of the floating-point unit. -/
def toFloat (x : Number) : Float := Float.ofBits x.bits

def ofFloat (x : Float) : Number := ⟨x.toBits⟩

/-- Negation flips the sign bit, of zeros and NaNs too. -/
protected def neg (x : Number) : Number := ⟨x.bits ^^^ UInt64.ofNat signWeight⟩

protected def add (x y : Number) : Number := ofFloat (x.toFloat + y.toFloat)

protected def sub (x y : Number) : Number := ofFloat (x.toFloat - y.toFloat)

protected def mul (x y : Number) : Number := ofFloat (x.toFloat * y.toFloat)

protected def div (x y : Number) : Number := ofFloat (x.toFloat / y.toFloat)

instance : Neg Number := ⟨Number.neg⟩
instance : Add Number := ⟨Number.add⟩
instance : Sub Number := ⟨Number.sub⟩
instance : Mul Number := ⟨Number.mul⟩
instance : Div Number := ⟨Number.div⟩

/-- Order of the format: a NaN is on no side of anything. -/
def lt (x y : Number) : Bool := decide (x.toFloat < y.toFloat)

def le (x y : Number) : Bool := decide (x.toFloat ≤ y.toFloat)

/-- Equality of the format: the zeros are equal, a NaN is unequal to itself. -/
def same (x y : Number) : Bool := x.toFloat == y.toFloat

end Number

end RoxLang
