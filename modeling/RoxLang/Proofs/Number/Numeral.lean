/-
# `RoxLang.Proofs.Number.Numeral` — numerals that read back

A numeral has no sign, no exponent and nothing else that the reader of numbers has to see to, so it
reads as the decimal of its digits.

A finite number is written as a decimal, and the decimal as a numeral.  Both steps can be undone.
The numeral has the digits of the decimal and no others, so it reads as that decimal.  The decimal
is either a whole number or the first that the search for the fewest places has seen read back; and
the search does not end before it has seen one, because with 1074 places every finite number is a
decimal exactly, and what is exact is not rounded.
-/
import Mathlib.Data.List.TakeWhile
import RoxLang.Number.Numeral
import RoxLang.Proofs.Lexeme.Rules
import RoxLang.Proofs.Number.Exact

namespace RoxLang

open Nat (ofDigitChars toDigits)

/-! ## Reading a numeral -/

namespace Number

/-- A character that a number is read from as it stands: no padding, no digit of another script, no
underscore and no sign. -/
structure Plain (c : Char) : Prop where
  unpadded : isPadding c = false
  ascii : Text.asciiDigit c = c
  joined : c ≠ '_'
  unsigned : c ≠ '-' ∧ c ≠ '+'

theorem plain_of_isDigit {c : Char} (h : c.isDigit = true) : Plain c := by
  have hdigits : ∀ n < 10, isPadding n.digitChar = false ∧
      Text.asciiDigit n.digitChar = n.digitChar ∧ n.digitChar ≠ '_' ∧ n.digitChar ≠ '-' ∧
      n.digitChar ≠ '+' := by decide
  obtain ⟨hle : 48 ≤ c.toNat, hge : c.toNat ≤ 57⟩ := Char.isDigit_iff_toNat.mp h
  have hlt : c.toNat - 48 < 10 := by omega
  have hc : (c.toNat - 48).digitChar = c := by
    refine Char.toNat_inj.mp ?_
    rw [Nat.toNat_digitChar_of_lt_ten hlt]
    omega
  have hplain := hdigits _ hlt
  rw [hc] at hplain
  exact ⟨hplain.1, hplain.2.1, hplain.2.2.1, hplain.2.2.2⟩

theorem plain_point : Plain '.' := ⟨by decide, by decide, by decide, by decide⟩

theorem withoutUnderscores?_plain : ∀ {cs : List Char} (previous : Char),
    (∀ c ∈ cs, Plain c) → withoutUnderscores? previous cs = some cs
  | [], _, _ => rfl
  | c :: cs, _, h => by
      obtain ⟨hc, hcs⟩ := List.forall_mem_cons.mp h
      rw [withoutUnderscores?, if_neg hc.joined, withoutUnderscores?_plain c hcs]
      rfl

theorem trimmedOf_plain {cs : List Char} (h : ∀ c ∈ cs, Plain c) :
    Text.trimmedOf isPadding cs = cs := by
  have hkeep {ds : List Char} (h : ∀ c ∈ ds, Plain c) : ds.dropWhile isPadding = ds := by
    cases ds with
    | nil => rfl
    | cons d ds =>
        exact List.dropWhile_cons_of_neg (ne_true_of_eq_false (h d List.mem_cons_self).unpadded)
  have hreverse : ∀ c ∈ cs.reverse, Plain c := fun c hc => h c (List.mem_reverse.mp hc)
  rw [Text.trimmedOf, hkeep h, hkeep hreverse, List.reverse_reverse]

/-- A plain text reads as its digits say. -/
theorem ofText?_plain {s : String} (h : ∀ c ∈ s.toList, Plain c) :
    ofText? s = (decimal? s.toList).or (named? s.toList) := by
  have hmap : s.toList.map Text.asciiDigit = s.toList :=
    (List.map_congr_left fun c hc => (h c hc).ascii).trans (List.map_id' _)
  simp only [ofText?, trimmedOf_plain h, hmap, withoutUnderscores?_plain ' ' h]
  generalize s.toList = cs at h
  split
  · next heq =>
      cases heq
      exact absurd rfl (h _ List.mem_cons_self).unsigned.1
  · next heq =>
      cases heq
      exact absurd rfl (h _ List.mem_cons_self).unsigned.2
  · next heq =>
      cases heq
      rfl
  · next heq => cases heq

theorem decimal?_numeral {whole fraction : List Char}
    (h : (Piece.number whole fraction).Lawful) :
    decimal? (Piece.number whole fraction).text
      = some (Decimal.ofDigits whole fraction).toNumber := by
  have hpoint : ¬ '.'.isDigit = true := by decide
  have hmove : (Decimal.ofDigits whole fraction).shifted 0
      = (Decimal.ofDigits whole fraction).toNumber := by
    simp [Decimal.shifted, Decimal.toNumber]
  rw [← hmove]
  cases h with
  | number hne hwhole hfraction =>
      have hend : exponent? [] = some 0 := rfl
      by_cases hf : fraction = []
      · subst hf
        simp only [decimal?, Piece.text, if_true, List.takeWhile_eq_self_iff.mpr hwhole,
          List.dropWhile_eq_nil_iff.mpr hwhole, hne, false_and, if_false, hend, Option.map_some]
      · simp only [decimal?, Piece.text, hf, List.takeWhile_append_of_pos hwhole,
          List.dropWhile_append_of_pos hwhole, List.takeWhile_cons_of_neg hpoint,
          List.dropWhile_cons_of_neg hpoint, List.append_nil,
          List.takeWhile_eq_self_iff.mpr hfraction, List.dropWhile_eq_nil_iff.mpr hfraction,
          and_false, if_false, hend, Option.map_some]

theorem plain_of_mem_numeral {whole fraction : List Char}
    (h : (Piece.number whole fraction).Lawful) :
    ∀ c ∈ (Piece.number whole fraction).text, Plain c := by
  cases h with
  | number _ hwhole hfraction =>
      have hwhole := fun c hc => plain_of_isDigit (hwhole c hc)
      have hfraction := fun c hc => plain_of_isDigit (hfraction c hc)
      rw [Piece.text]
      split
      · exact hwhole
      · exact List.forall_mem_append.mpr ⟨hwhole, List.forall_mem_cons.mpr ⟨plain_point, hfraction⟩⟩

/-- A numeral reads as the decimal of its digits. -/
theorem ofText?_numeral {whole fraction : List Char} (h : (Piece.number whole fraction).Lawful)
    {s : String} (hs : s.toList = (Piece.number whole fraction).text) :
    ofText? s = some (Decimal.ofDigits whole fraction).toNumber := by
  rw [ofText?_plain (hs ▸ plain_of_mem_numeral h), hs, decimal?_numeral h, Option.some_or]

end Number

/-! ## The digits of a decimal -/

namespace Decimal

theorem toDigits_ne_nil (n : Nat) : toDigits 10 n ≠ [] :=
  List.length_pos_iff.mp Nat.length_toDigits_pos

theorem isDigit_of_mem_toDigits {n : Nat} : ∀ c ∈ toDigits 10 n, c.isDigit = true :=
  fun _ hc => Nat.isDigit_of_mem_toDigits (by decide) (by decide) hc

/-- A number below a power of ten, with zeros in front up to so many digits. -/
def padded (places n : Nat) : List Char :=
  List.replicate (places - (toDigits 10 n).length) '0' ++ toDigits 10 n

theorem length_padded {places n : Nat} (hplaces : 0 < places) (hn : n < 10 ^ places) :
    (padded places n).length = places := by
  have hle := (Nat.length_toDigits_le_iff (by decide) hplaces).mpr hn
  rw [padded, List.length_append, List.length_replicate, Nat.sub_add_cancel hle]

theorem isDigit_of_mem_padded {places n : Nat} : ∀ c ∈ padded places n, c.isDigit = true := by
  intro c hc
  rcases List.mem_append.mp hc with hc | hc
  · rw [List.eq_of_mem_replicate hc]
    rfl
  · exact isDigit_of_mem_toDigits c hc

theorem ofDigitChars_padded (places n : Nat) : ofDigitChars 10 (padded places n) 0 = n := by
  rw [padded, Nat.ofDigitChars_append, Nat.ofDigitChars_replicate_zero, Nat.mul_zero]
  exact Nat.ofDigitChars_toDigits (by decide) (by decide)

/-- The digits of a decimal are a numeral, and reading them gives the decimal. -/
theorem exists_numeral (d : Decimal) : ∃ whole fraction : List Char,
    (Piece.number whole fraction).Lawful ∧ d.digits = (Piece.number whole fraction).text ∧
      ofDigits whole fraction = d := by
  obtain ⟨coefficient, places⟩ := d
  by_cases hplaces : places = 0
  · subst hplaces
    refine ⟨toDigits 10 coefficient, [], ?_, ?_, ?_⟩
    · exact .number (toDigits_ne_nil _) isDigit_of_mem_toDigits nofun
    · simp [digits, Piece.text]
    · rw [ofDigits, List.append_nil, Nat.ofDigitChars_toDigits (by decide) (by decide)]
      rfl
  · have hpos : 0 < places := Nat.pos_of_ne_zero hplaces
    have hlength : (padded places (coefficient % 10 ^ places)).length = places :=
      length_padded hpos (Nat.mod_lt coefficient (Nat.pow_pos (by decide)))
    have hfraction : padded places (coefficient % 10 ^ places) ≠ [] := by
      refine List.ne_nil_of_length_pos ?_
      rw [hlength]
      exact hpos
    refine ⟨toDigits 10 (coefficient / 10 ^ places), padded places (coefficient % 10 ^ places),
      ?_, ?_, ?_⟩
    · exact .number (toDigits_ne_nil _) isDigit_of_mem_toDigits isDigit_of_mem_padded
    · simp only [digits, hplaces, if_false, Piece.text, hfraction]
      rfl
    · -- the whole digits come first, so they count for as many powers of ten as digits follow
      have hvalue : ofDigitChars 10 (toDigits 10 (coefficient / 10 ^ places)
          ++ padded places (coefficient % 10 ^ places)) 0 = coefficient := by
        rw [Nat.ofDigitChars_append, Nat.ofDigitChars_toDigits (by decide) (by decide),
          Nat.ofDigitChars_eq_ofDigitChars_zero, ofDigitChars_padded, hlength]
        exact Nat.div_add_mod coefficient (10 ^ places)
      rw [ofDigits, hvalue, hlength]

end Decimal

/-! ## The decimal of a number -/

namespace Number

/-- With 1074 places the least positive number is a decimal, and with it every other. -/
theorem unitsPerOne_dvd {places : Nat} (h : places = 1074) : unitsPerOne ∣ Nat.pow 10 places := by
  unfold unitsPerOne
  rw [← h]
  exact ⟨5 ^ places, Nat.mul_pow 2 5 places⟩

variable {x : Number}

/-- Of two candidates the first that passes is taken, so what is taken has passed. -/
theorem exists_of_first_passing (passes : Nat → Bool) (decimal : Nat → Decimal) {near far : Nat}
    {d : Decimal} (h : (if passes near then some (decimal near)
      else if passes far then some (decimal far) else none) = some d) :
    ∃ coefficient, passes coefficient = true ∧ decimal coefficient = d := by
  split at h
  · next hnear => exact ⟨near, hnear, Option.some.inj h⟩
  · split at h
    · next hfar => exact ⟨far, hfar, Option.some.inj h⟩
    · cases h

theorem toNumber_of_readingBack? {units magnitude places : Nat} {d : Decimal}
    (h : readingBack? units magnitude places = some d) : d.toNumber = ofWord magnitude := by
  obtain ⟨coefficient, hreads, rfl⟩ := exists_of_first_passing
    (fun c => (Decimal.toNumber ⟨c, places⟩).bits.toNat == magnitude) (fun c => ⟨c, places⟩) h
  rw [← beq_iff_eq.mp hreads, ofWord, UInt64.ofNat_toNat]

theorem toNumber_exactly (hx : x.IsFinite) {places : Nat} (h : places = 1074) :
    (exactly x.units places).toNumber = ofWord x.magnitude := by
  have hdvd := Nat.dvd_mul_left_of_dvd (unitsPerOne_dvd h) x.units
  have hexact := Nat.div_mul_cancel hdvd
  have hpow : 0 < Nat.pow 10 places := Nat.pow_pos (by decide)
  simp only [exactly, Decimal.toNumber]
  exact ofRatio_of_exact hx hpow hexact

/-- The search ends with a decimal that it has seen to, or with the one for which nothing has to be
seen to. -/
theorem property_fewestPlaces {candidate? : Nat → Option Decimal} {exact : Nat → Decimal}
    {P : Decimal → Prop} (hcandidate : ∀ {places d}, candidate? places = some d → P d)
    {more places : Nat} (hexact : P (exact (places + more))) :
    P (fewestPlaces candidate? exact more places) := by
  induction more generalizing places with
  | zero => exact hexact
  | succ more ih =>
      rw [fewestPlaces]
      split
      · next hd => exact hcandidate hd
      · refine ih ?_
        rw [Nat.add_right_comm]
        exact hexact

/-- The decimal that a finite number is written as reads as that number, but for the sign. -/
theorem toNumber_toDecimal (hx : x.IsFinite) : x.toDecimal.toNumber = ofWord x.magnitude := by
  rw [toDecimal]
  split
  · next hwhole =>
      have hexact : x.units / unitsPerOne * unitsPerOne = x.units * Nat.pow 10 0 := by
        rw [Nat.div_mul_cancel (Nat.dvd_of_mod_eq_zero hwhole)]
        exact (Nat.mul_one x.units).symm
      have hpow : 0 < Nat.pow 10 0 := Nat.pow_pos (by decide)
      simp only [Decimal.toNumber]
      exact ofRatio_of_exact hx hpow hexact
  · exact property_fewestPlaces (P := fun d => d.toNumber = ofWord x.magnitude)
      toNumber_of_readingBack? (toNumber_exactly hx rfl)

/-- The sign that is written in front of a number. -/
def signText (x : Number) : List Char := if x.isNegative then ['-'] else []

theorem toList_text (hx : x.IsFinite) : x.text.toList = x.signText ++ x.toDecimal.digits := by
  obtain ⟨hnan, hinfinite⟩ := x.isFinite_iff.mp hx
  simp only [text, hnan, hinfinite, Bool.false_eq_true, if_false, String.toList_ofList, signText]
  split <;> rfl

/-- The text of a finite number is a numeral behind a sign, and the numeral reads as the number
without its sign. -/
theorem exists_numeral_of_text (hx : x.IsFinite) : ∃ whole fraction : List Char,
    (Piece.number whole fraction).Lawful ∧
      x.text.toList = x.signText ++ (Piece.number whole fraction).text ∧
      (Decimal.ofDigits whole fraction).toNumber = ofWord x.magnitude := by
  obtain ⟨whole, fraction, hlawful, hdigits, hdecimal⟩ := x.toDecimal.exists_numeral
  refine ⟨whole, fraction, hlawful, ?_, ?_⟩
  · rw [toList_text hx, hdigits]
  · rw [hdecimal, toNumber_toDecimal hx]

end Number

end RoxLang
