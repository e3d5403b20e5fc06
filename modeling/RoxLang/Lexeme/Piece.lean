/-
# `RoxLang.Lexeme.Piece` — a source text cut into pieces

A source is cut from the left, and each cut takes the longest piece that starts there: a blank,
a comment up to the end of its line, a mark, a number, a name, a string.  What starts no piece
is a stray character; an opening quote without a closing one takes the rest of the text.  So the
pieces of a text put together are the text, whatever it holds.
-/
import RoxLang.Lexeme.Kind
import RoxLang.Text.Layout

namespace RoxLang

/-- A piece of source text.  The text of a comment is what follows its two slashes, that of a
string what stands between its quotes; a number has no fraction exactly when its fraction has no
digits. -/
inductive Piece where
  | blank (c : Char)
  | comment (text : List Char)
  | mark (m : Mark)
  | number (whole fraction : List Char)
  | name (text : List Char)
  | string (text : List Char)
  | stray (c : Char)
  | unclosed (text : List Char)
deriving DecidableEq, Inhabited

/-! ## Classes of characters -/

/-- What separates tokens. -/
def isSeparator (c : Char) : Bool := c == ' ' || c == '\t' || c == '\r' || c == '\n'

def isNameStart (c : Char) : Bool := c.isAlpha || c == '_'

def isNameChar (c : Char) : Bool := c.isAlphanum || c == '_'

namespace Piece

/-! ## One cut -/

/-- The digits after a point, if a point with a digit behind it comes next. -/
def fractionOf : List Char → List Char
  | '.' :: cs => cs.takeWhile Char.isDigit
  | _ => []

/-- A numeral and what follows it.  A point belongs to it only with a digit behind it. -/
def readNumber (cs : List Char) : Piece × List Char :=
  let after := cs.dropWhile Char.isDigit
  let fraction := fractionOf after
  (.number (cs.takeWhile Char.isDigit) fraction,
    if fraction = [] then after else after.drop (fraction.length + 1))

/-- A string whose opening quote has been passed, and what follows its closing one. -/
def readString (cs : List Char) : Piece × List Char :=
  match cs.dropWhile (· != '"') with
  | _ :: rest => (.string (cs.takeWhile (· != '"')), rest)
  | [] => (.unclosed cs, [])

/-- A mark that starts with `m`, and what follows it. -/
def readMark (m : Mark) (cs : List Char) : Piece × List Char :=
  match m.withEqual?, cs with
  | some long, '=' :: rest => (.mark long, rest)
  | _, _ => (.mark m, cs)

/-- The piece at the start of `c :: cs`, and what follows it. -/
def read (c : Char) (cs : List Char) : Piece × List Char :=
  if isSeparator c then (.blank c, cs)
  else if c = '"' then readString cs
  else if c.isDigit then readNumber (c :: cs)
  else if isNameStart c then
    (.name (c :: cs.takeWhile isNameChar), cs.dropWhile isNameChar)
  else if c = '/' ∧ cs.head? = some '/' then
    (.comment (cs.tail.takeWhile (· != '\n')), cs.tail.dropWhile (· != '\n'))
  else match Mark.ofChar? c with
    | some m => readMark m cs
    | none => (.stray c, cs)

/-- What a piece covers in the source. -/
def text : Piece → List Char
  | .blank c => [c]
  | .comment cs => '/' :: '/' :: cs
  | .mark m => m.text
  | .number whole fraction => if fraction = [] then whole else whole ++ '.' :: fraction
  | .name cs => cs
  | .string cs => '"' :: cs ++ ['"']
  | .stray c => [c]
  | .unclosed cs => '"' :: cs

/-! ## Nothing is lost by a cut -/

theorem fractionOf_cut (cs : List Char) (h : fractionOf cs ≠ []) :
    '.' :: fractionOf cs ++ cs.drop ((fractionOf cs).length + 1) = cs := by
  unfold fractionOf at h ⊢
  split
  · next ds =>
      have hd := List.takeWhile_append_dropWhile (p := Char.isDigit) (l := ds)
      have : ds.drop (ds.takeWhile Char.isDigit).length = ds.dropWhile Char.isDigit := by
        conv => lhs; rw [← hd]
        rw [List.drop_append]
        simp
      simp [this, hd]
  · next h' => simp at h

theorem readNumber_cut (cs : List Char) :
    (readNumber cs).1.text ++ (readNumber cs).2 = cs := by
  unfold readNumber
  by_cases h : fractionOf (cs.dropWhile Char.isDigit) = []
  · simp [text, h]
  · have hc := fractionOf_cut _ h
    simp only [text, h, if_false, List.append_assoc, List.cons_append] at hc ⊢
    rw [hc, List.takeWhile_append_dropWhile]

theorem readString_cut (cs : List Char) :
    (readString cs).1.text ++ (readString cs).2 = '"' :: cs := by
  have hcs := List.takeWhile_append_dropWhile (p := (· != '"')) (l := cs)
  have hq := List.head?_dropWhile_not (· != '"') cs
  unfold readString
  split
  · next q rest h =>
      rw [h] at hcs hq
      have hq : q = '"' := by simpa using hq
      rw [hq] at hcs
      simpa [text] using hcs
  · simp [text]

theorem readMark_cut (m : Mark) (cs : List Char) :
    (readMark m cs).1.text ++ (readMark m cs).2 = m.text ++ cs := by
  unfold readMark
  split
  · next long rest h => simp [text, Mark.text_withEqual h]
  · rfl

/-- What a cut takes and what it leaves are the text that was there. -/
theorem read_cut (c : Char) (cs : List Char) :
    (read c cs).1.text ++ (read c cs).2 = c :: cs := by
  unfold read
  split
  · rfl
  split
  · next h => rw [readString_cut, h]
  split
  · rw [readNumber_cut]
  split
  · simp [text]
  split
  · next h =>
      obtain ⟨rfl, h⟩ := h
      cases cs with
      | nil => simp at h
      | cons d ds => simp_all [text]
  split
  · next m h => rw [readMark_cut, Mark.text_of_ofChar? h]; rfl
  · rfl

/-- A cut takes something. -/
theorem read_text_ne_nil (c : Char) (cs : List Char) : (read c cs).1.text ≠ [] := by
  unfold read
  split
  · simp [text]
  split
  · unfold readString; split <;> simp [text]
  split
  · next h => unfold readNumber; simp only [text]; split <;> simp [h]
  split
  · simp [text]
  split
  · simp [text]
  split
  · unfold readMark; split <;> exact Mark.text_ne_nil _
  · simp [text]

/-- So a cut leaves less than there was. -/
theorem read_rest_length (c : Char) (cs : List Char) : (read c cs).2.length ≤ cs.length := by
  have h := congrArg List.length (read_cut c cs)
  have hp := List.length_pos_iff.mpr (read_text_ne_nil c cs)
  simp only [List.length_append, List.length_cons] at h
  omega

/-! ## All cuts -/

/-- At most so many cuts. -/
def cutWithin : Nat → List Char → List Piece
  | _, [] => []
  | 0, _ => []
  | n + 1, c :: cs => (read c cs).1 :: cutWithin n (read c cs).2

/-- The pieces of a text.  There are no more of them than characters. -/
def cut (cs : List Char) : List Piece := cutWithin cs.length cs

/-- Any number of cuts that is not less than the number of characters is enough. -/
theorem cutWithin_stable : ∀ {n m : Nat} {cs : List Char},
    cs.length ≤ n → cs.length ≤ m → cutWithin n cs = cutWithin m cs
  | n, m, [], _, _ => by cases n <;> cases m <;> rfl
  | 0, _, _ :: _, hn, _ => absurd hn (Nat.not_succ_le_zero _)
  | _, 0, _ :: _, _, hm => absurd hm (Nat.not_succ_le_zero _)
  | n + 1, m + 1, c :: cs, hn, hm => by
      have hr := read_rest_length c cs
      simp only [List.length_cons] at hn hm
      exact congrArg ((read c cs).1 :: ·) (cutWithin_stable (by omega) (by omega))

@[simp] theorem cut_nil : cut [] = [] := rfl

/-- The pieces of a text are its first piece and those of the rest. -/
theorem cut_cons (c : Char) (cs : List Char) :
    cut (c :: cs) = (read c cs).1 :: cut (read c cs).2 :=
  congrArg ((read c cs).1 :: ·) (cutWithin_stable (read_rest_length c cs) (Nat.le_refl _))

/-- The pieces put together are the text. -/
theorem flatMap_text_cut (cs : List Char) : (cut cs).flatMap text = cs := by
  match cs with
  | [] => rfl
  | c :: cs =>
      have := read_rest_length c cs
      rw [cut_cons, List.flatMap_cons, flatMap_text_cut (read c cs).2, read_cut]
termination_by cs.length

end Piece

end RoxLang
