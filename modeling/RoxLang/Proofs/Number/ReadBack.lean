/-
# `RoxLang.Proofs.Number.ReadBack` — a printed number is a program for that number

The text of a finite number and a semicolon behind it are a source text.  It is cut into a sign, if
the number has one, a numeral and the semicolon; it is read as a statement; and running the
expression of that statement gives the number, the sign of a zero included.  Two numbers of one text
would be two values of one expression.
-/
import RoxLang.Proofs.Descent.Program
import RoxLang.Proofs.Grammar.Proper
import RoxLang.Proofs.Lexeme.Written
import RoxLang.Proofs.Number.Numeral
import RoxLang.Proofs.Run.Refinement

namespace RoxLang

open Text (newlines)
open Grammar (Atom Declaration Derives)

/-! ## Scanning -/

namespace Piece

/-- A numeral is cut off where it ends. -/
theorem cut_number {whole fraction rest : List Char} (h : (Piece.number whole fraction).Lawful)
    (hrest : EndsNumeral rest) :
    cut ((Piece.number whole fraction).text ++ rest) = .number whole fraction :: cut rest := by
  cases h with
  | number hne hwhole hfraction =>
      rw [text]
      split
      · next hnil => rw [cut_whole hne hwhole hrest, hnil]
      · next hsome => exact cut_fraction hne hwhole hsome hfraction hrest

theorem cut_minus (rest : List Char) : cut ('-' :: rest) = .mark .minus :: cut rest :=
  cut_eq rfl

/-- A numeral has no line ends. -/
theorem newlines_number {whole fraction : List Char} (h : (Piece.number whole fraction).Lawful) :
    (Piece.number whole fraction).newlines = 0 := by
  have hdigit : ¬ '\n'.isDigit = true := by decide
  cases h with
  | number _ hwhole hfraction =>
      refine List.count_eq_zero.mpr fun hmem => ?_
      rw [text] at hmem
      split at hmem
      · exact hdigit (hwhole '\n' hmem)
      · rcases List.mem_append.mp hmem with hmem | hmem
        · exact hdigit (hwhole '\n' hmem)
        · rcases List.mem_cons.mp hmem with hpoint | hmem
          · exact absurd hpoint (by decide)
          · exact hdigit (hfraction '\n' hmem)

end Piece

namespace Number

variable {x : Number} {whole fraction : List Char}

/-- The sign of a number as a token. -/
def minus : Token := ⟨.mark .minus, "-", 0⟩

/-- The token of a numeral. -/
def numeral (whole fraction : List Char) : Token :=
  ⟨.number, String.ofList (Piece.number whole fraction).text, 0⟩

/-- The tokens of a number: its sign, if it has one, and its numeral. -/
def tokens (x : Number) (whole fraction : List Char) : List Token :=
  (if x.isNegative then [minus] else []) ++ [numeral whole fraction]

/-- The expression of a number: its size, negated if there is a sign. -/
def expression (x : Number) : Tree :=
  let size : Tree := .literal (.number (ofWord x.magnitude))
  if x.isNegative then .unary minus size else size

/-- The numeral of a number and a semicolon, as they are scanned. -/
theorem scans_numeral (h : (Piece.number whole fraction).Lawful) :
    Scans 0 ((Piece.number whole fraction).text ++ [';'])
      [numeral whole fraction, ⟨.mark .semicolon, ";", 0⟩] := by
  have hsemicolon : Scans (0 + (Piece.number whole fraction).newlines) [';']
      [⟨.mark .semicolon, ";", 0⟩] := by
    rw [Piece.newlines_number h]
    exact ⟨rfl, rfl⟩
  have hscans := hsemicolon.piece h (Piece.cut_number h ⟨rfl, rfl⟩)
  rw [Piece.newlines_number h] at hscans
  exact hscans

/-- The text of a number and a semicolon, as they are scanned. -/
theorem scan_text (htext : x.text.toList = x.signText ++ (Piece.number whole fraction).text)
    (h : (Piece.number whole fraction).Lawful) : scan (x.text ++ ";")
      = .ok (x.tokens whole fraction ++ [⟨.mark .semicolon, ";", 0⟩] ++ [eofToken 0]) := by
  have hsource : (x.text ++ ";").toList
      = x.signText ++ ((Piece.number whole fraction).text ++ [';']) := by
    rw [String.toList_append, htext, List.append_assoc]
    rfl
  have hscans : Scans 0 (x.text ++ ";").toList
      (x.tokens whole fraction ++ [⟨.mark .semicolon, ";", 0⟩]) := by
    rw [hsource, signText, tokens]
    split
    · exact (scans_numeral h).piece (p := .mark .minus) (.mark .minus) (Piece.cut_minus _)
    · exact scans_numeral h
  have hlines : newlines (x.text ++ ";").toList = 0 := by
    have hsign : newlines x.signText = 0 := by
      rw [signText]
      split <;> rfl
    have hnumber : newlines (Piece.number whole fraction).text = 0 := Piece.newlines_number h
    rw [hsource, newlines_append, newlines_append, hsign, hnumber]
    rfl
  rw [scan_ok_iff, hlines]
  exact ⟨hscans.1, congrArg (· ++ [eofToken 0]) hscans.2.symm⟩

/-! ## Parsing -/

/-- The tokens of a number derive its expression. -/
theorem derives_tokens (h : (Piece.number whole fraction).Lawful)
    (hread : (Decimal.ofDigits whole fraction).toNumber = ofWord x.magnitude) :
    Derives .assignment (x.tokens whole fraction) x.expression := by
  have hsize : Derives .unary [numeral whole fraction]
      (.literal (.number (ofWord x.magnitude))) := by
    have hnumber := ofText?_numeral h (s := (numeral whole fraction).lexeme) String.toList_ofList
    rw [hread] at hnumber
    exact .primary (.atom (.number rfl hnumber))
  have hsigned : Derives .unary (x.tokens whole fraction) x.expression := by
    rw [tokens, expression]
    split
    · exact .sign .minus hsize
    · exact hsize
  exact hsigned.loosen (Nat.zero_le _)

theorem levels_expression (x : Number) :
    Tree.levelsOfProgram [.discard x.expression] ≤ Descent.levelLimit := by
  rw [expression]
  split <;> exact Nat.le_of_ble_eq_true rfl

theorem parse_tokens (h : (Piece.number whole fraction).Lawful)
    (hread : (Decimal.ofDigits whole fraction).toNumber = ofWord x.magnitude) :
    Descent.parse (x.tokens whole fraction ++ [⟨.mark .semicolon, ";", 0⟩] ++ [eofToken 0])
      = .ok [.discard x.expression] := by
  refine (Descent.parse_ok_iff rfl _ _).mpr ⟨?_, x.levels_expression⟩
  have hbody : Descent.bodyOf
      (x.tokens whole fraction ++ [⟨.mark .semicolon, ";", 0⟩] ++ [eofToken 0])
        = x.tokens whole fraction ++ [⟨.mark .semicolon, ";", 0⟩] := by
    rw [tokens]
    split <;> rfl
  rw [hbody]
  exact (Declaration.discard (derives_tokens h hread) rfl).program

/-! ## Running -/

/-- The expression of a number has that number as its value. -/
theorem follows_expression (x : Number) (c : Chain) :
    Run.Follows x.expression c [] c (.ok (.number x)) := by
  have hsize := Run.follows_literal (.number (ofWord x.magnitude)) c
  rw [expression]
  split
  · next hnegative =>
      have hvalue : applyUnary minus (.number (ofWord x.magnitude)) = .ok (.number x) :=
        congrArg (fun y => Except.ok (Value.number y)) (neg_ofWord_magnitude hnegative)
      rw [← hvalue]
      exact hsize.unary minus
  · next hnonnegative =>
      rw [ofWord_magnitude (eq_false_of_ne_true hnonnegative)] at hsize ⊢
      exact hsize

theorem gives_expression (x : Number) (m : Machine) :
    Run.Gives (Run.evaluate x.expression) m [] m.scopes (.ok (.number x)) := by
  have hnative : x.expression.isNative = true := by
    rw [expression]
    split <;> rfl
  have hlevels : x.expression.levels false ≤ Run.levelLimit := by
    rw [expression]
    split <;> exact Nat.le_of_ble_eq_true rfl
  have htellable : Run.Tellable m.verbosity x.expression.isNative := .inr hnative
  have hrun := (x.follows_expression m.scopes Run.levelLimit m rfl htellable).1 hlevels
  exact Run.Gives.value hrun htellable

/-- What the text of a finite number and a semicolon scan and parse as has the number as its
value. -/
theorem exists_statement_of_text (hx : x.IsFinite) : ∃ tokens e,
    scan (x.text ++ ";") = .ok tokens ∧ Descent.parse tokens = .ok [.discard e] ∧
      ∀ m : Machine, Run.Gives (Run.evaluate e) m [] m.scopes (.ok (.number x)) := by
  obtain ⟨whole, fraction, hlawful, htext, hread⟩ := exists_numeral_of_text hx
  exact ⟨_, x.expression, scan_text htext hlawful, parse_tokens hlawful hread, x.gives_expression⟩

/-- A text is that of one finite number at most, for scanning, parsing and running are functions. -/
theorem eq_of_text_eq {y : Number} (hx : x.IsFinite) (hy : y.IsFinite) (h : y.text = x.text) :
    y = x := by
  obtain ⟨xs, e, hscanx, hparsex, hx⟩ := exists_statement_of_text hx
  obtain ⟨ys, e', hscany, hparsey, hy⟩ := exists_statement_of_text hy
  obtain rfl : ys = xs := by
    rw [h, hscanx] at hscany
    exact (Except.ok.inj hscany).symm
  obtain rfl : e' = e := by
    rw [hparsex] at hparsey
    simpa using hparsey.symm
  obtain ⟨mx, hrunx, -⟩ := hx (.start [] 0)
  obtain ⟨my, hruny, -⟩ := hy (.start [] 0)
  rw [hrunx] at hruny
  exact (Value.number.inj (Except.ok.inj (Prod.mk.inj hruny).1)).symm

/-- The text of a finite number is a sign or none and a numeral, without an exponent.  With a
semicolon behind it, it is scanned and parsed as one statement, whose expression gives the number to
the bit on every machine, prints nothing and leaves the scopes as they are.  So no other finite
number has that text. -/
theorem text_reads_back {x : Number} (hx : x.IsFinite) :
    (∃ whole fraction : List Char, (Piece.number whole fraction).Lawful ∧
      x.text.toList
        = (if x.isNegative then ['-'] else []) ++ (Piece.number whole fraction).text) ∧
    (∃ tokens e, scan (x.text ++ ";") = .ok tokens ∧ Descent.parse tokens = .ok [.discard e] ∧
      ∀ m : Machine, Run.Gives (Run.evaluate e) m [] m.scopes (.ok (.number x))) ∧
    ∀ y : Number, y.IsFinite → y.text = x.text → y = x := by
  obtain ⟨whole, fraction, hlawful, htext, -⟩ := exists_numeral_of_text hx
  exact ⟨⟨whole, fraction, hlawful, htext⟩, exists_statement_of_text hx,
    fun _ hy => eq_of_text_eq hx hy⟩

/-- The negative zero, and the greatest of the negative subnormal numbers. -/
theorem text_reads_back_negative :
    (∃ tokens e, scan ((⟨0x8000000000000000⟩ : Number).text ++ ";") = .ok tokens ∧
      Descent.parse tokens = .ok [.discard e] ∧
      ∀ m : Machine, Run.Gives (Run.evaluate e) m [] m.scopes
        (.ok (.number ⟨0x8000000000000000⟩))) ∧
    (∃ tokens e, scan ((⟨0x8000000000000001⟩ : Number).text ++ ";") = .ok tokens ∧
      Descent.parse tokens = .ok [.discard e] ∧
      ∀ m : Machine, Run.Gives (Run.evaluate e) m [] m.scopes
        (.ok (.number ⟨0x8000000000000001⟩))) := by
  have hzero : (⟨0x8000000000000000⟩ : Number).IsFinite := by decide
  have hsubnormal : (⟨0x8000000000000001⟩ : Number).IsFinite := by decide
  exact ⟨(text_reads_back hzero).2.1, (text_reads_back hsubnormal).2.1⟩

end Number

end RoxLang
