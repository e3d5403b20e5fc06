/-
# `RoxLang.Number.Numeral` — decimal numerals, read and written

A numeral of the language is a run of digits, with or without a point and a second run; there is no
sign and no exponent.  Reading one rounds the exact decimal to the nearest number.

The reader knows more than these, and refuses what it does not know: a token made by hand may claim
to be a number and be spelled in any way.  Signs, exponents, the words for infinities and NaNs,
digits of other scripts, white space around the whole and single underscores between digits are all
read.

Writing never uses an exponent.  A whole number is written with all its digits.  Any other
finite number is written with the fewest decimal places at which some numeral reads back as that
number, and of the numerals with so many places the one nearest to it.  Such a number lies
strictly between two neighbours of every grid of decimals, and if any point of the grid reads
back then one of the two does, so only they are tried.
-/
import RoxLang.Number.Basic
import RoxLang.Text.Characters

namespace RoxLang

/-- A decimal: the coefficient over a power of ten. -/
structure Decimal where
  coefficient : Nat
  places : Nat
deriving DecidableEq, Inhabited

namespace Decimal

/-- The number a decimal stands for. -/
def toNumber (d : Decimal) : Number := Number.ofRatio d.coefficient (Nat.pow 10 d.places)

/-- Read a numeral: the digits before the point and those after it. -/
def ofDigits (whole fraction : List Char) : Decimal :=
  ⟨Nat.ofDigitChars 10 (whole ++ fraction) 0, fraction.length⟩

/-- Write a decimal: at least one digit before the point, exactly `places` after it, and no
point when there are none. -/
def digits (d : Decimal) : List Char :=
  let whole := Nat.toDigits 10 (d.coefficient / Nat.pow 10 d.places)
  if d.places = 0 then whole
  else
    let fraction := Nat.toDigits 10 (d.coefficient % Nat.pow 10 d.places)
    whole ++ '.' :: (List.replicate (d.places - fraction.length) '0' ++ fraction)

/-- The number a decimal stands for once its point has been moved so far to the right.  The point
need not be moved any farther than to where the number is infinity, or zero. -/
def shifted (d : Decimal) (exponent : Int) : Number :=
  let up := min exponent.toNat (d.places + 400)
  let down := min (-exponent).toNat (d.coefficient.log2 + 400)
  Number.ofRatio (d.coefficient * Nat.pow 10 up) (Nat.pow 10 (d.places + down))

end Decimal

namespace Number

/-! ## Reading -/

/-- The white space that may stand around a number: all but the information separators. -/
def isPadding (c : Char) : Bool := Text.isBlank c && !(0x1c ≤ c.toNat && c.toNat ≤ 0x1f)

/-- Take the underscores out, where each stands between two digits; `previous` is the character in
front. -/
def withoutUnderscores? : (previous : Char) → List Char → Option (List Char)
  | _, [] => some []
  | previous, c :: cs =>
      if c = '_' then
        if previous.isDigit && cs.head?.any Char.isDigit then withoutUnderscores? c cs else none
      else (withoutUnderscores? c cs).map (c :: ·)

/-- The natural number that digits spell.  There has to be one at least. -/
def natural? (cs : List Char) : Option Nat :=
  if !cs.isEmpty && cs.all Char.isDigit then some (Nat.ofDigitChars 10 cs 0) else none

/-- How far what stands behind the digits moves the point, if it is an exponent or nothing. -/
def exponent? : List Char → Option Int
  | [] => some 0
  | letter :: cs =>
      if letter = 'e' ∨ letter = 'E' then match cs with
        | '-' :: digits => (natural? digits).map fun n => -(n : Int)
        | '+' :: digits => (natural? digits).map Int.ofNat
        | digits => (natural? digits).map Int.ofNat
      else none

/-- The number that digits spell, with or without a point among them and an exponent behind. -/
def decimal? (cs : List Char) : Option Number :=
  let whole := cs.takeWhile Char.isDigit
  let (fraction, rest) := match cs.dropWhile Char.isDigit with
    | '.' :: cs => (cs.takeWhile Char.isDigit, cs.dropWhile Char.isDigit)
    | cs => ([], cs)
  if whole = [] ∧ fraction = [] then none
  else (exponent? rest).map (Decimal.ofDigits whole fraction).shifted

/-- The number that a word names, in letters of either case. -/
def named? (cs : List Char) : Option Number :=
  let word := cs.map Char.toLower
  if word = "inf".toList ∨ word = "infinity".toList then some infinity
  else if word = "nan".toList then some nan
  else none

/-- The number that a text reads as, if it is one.  In front may be a sign. -/
def ofText? (s : String) : Option Number :=
  let size? (cs : List Char) : Option Number := (decimal? cs).or (named? cs)
  match withoutUnderscores? ' ' ((Text.trimmedOf isPadding s.toList).map Text.asciiDigit) with
  | some ('-' :: cs) => (size? cs).map Number.neg
  | some ('+' :: cs) => size? cs
  | some cs => size? cs
  | none => none

/-- What is said of a text that is no number, given how it is quoted. -/
def misreading (quoted : String) : String := s!"could not convert string to float: {quoted}"

/-! ## The fewest places that read back -/

/-- Of the two neighbours of a magnitude on the grid with so many places, the nearer one that
reads back as that magnitude; of two equally near the even one. -/
def readingBack? (units magnitude places : Nat) : Option Decimal :=
  let scaled := units * Nat.pow 10 places
  let floor := scaled / unitsPerOne
  let nearest := roundHalfEven scaled unitsPerOne
  let farther := if nearest = floor then floor + 1 else floor
  let readsBack (coefficient : Nat) : Bool :=
    (Decimal.toNumber ⟨coefficient, places⟩).bits.toNat == magnitude
  if readsBack nearest then some ⟨nearest, places⟩
  else if readsBack farther then some ⟨farther, places⟩
  else none

/-- The decimal with so many places that is a magnitude, where the magnitude is one. -/
def exactly (units places : Nat) : Decimal := ⟨units * Nat.pow 10 places / unitsPerOne, places⟩

/-- Try one more place at a time, and take what is exact when the last one has been tried. -/
def fewestPlaces (candidate? : Nat → Option Decimal) (exact : Nat → Decimal) :
    (more : Nat) → (places : Nat) → Decimal
  | 0, places => exact places
  | more + 1, places =>
      match candidate? places with
      | some d => d
      | none => fewestPlaces candidate? exact more (places + 1)

/-- The decimal a finite magnitude is written as.  With 1074 places every finite number is a
decimal, which is where the search ends if it has not before. -/
def toDecimal (x : Number) : Decimal :=
  if x.units % unitsPerOne = 0 then ⟨x.units / unitsPerOne, 0⟩
  else fewestPlaces (readingBack? x.units x.magnitude) (exactly x.units) 1073 1

/-- The text of a number.  The sign of a zero is written, that of a NaN is not. -/
def text (x : Number) : String :=
  if x.isNaN then "NaN"
  else
    let size := if x.isInfinite then ['i', 'n', 'f'] else x.toDecimal.digits
    String.ofList (if x.isNegative then '-' :: size else size)

end Number

end RoxLang
