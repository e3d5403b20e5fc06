/-
# `RoxLang.Proofs.Lexeme.Rules` — the lexical rules, and one cut against them

The rules say which pieces there are and say nothing about how a text is cut: a piece is lawful
when its text has the form its rule asks for.  A text may start with several lawful pieces — `1`,
`12` and `12.5` all start `12.5` — and the reference takes the longest.

A cut decides by the first character or two which rule to follow, so the work is to see that no
other rule could have taken as much.  The argument goes by the piece that is to be beaten:
whatever lawful piece starts the text, the cut takes that very piece or a longer one of the same
rule, except that a lone slash gives way to a comment.
-/
import RoxLang.Lexeme.Piece

namespace RoxLang.Piece

/-- The lexical rules. -/
inductive Lawful : Piece → Prop where
  | blank {c : Char} : c ∈ [' ', '\t', '\r', '\n'] → Lawful (.blank c)
  | comment {cs : List Char} : '\n' ∉ cs → Lawful (.comment cs)
  | mark (m : Mark) : Lawful (.mark m)
  | number {whole fraction : List Char} : whole ≠ [] → (∀ d ∈ whole, d.isDigit = true) →
      (∀ d ∈ fraction, d.isDigit = true) → Lawful (.number whole fraction)
  | name {c : Char} {cs : List Char} : isNameStart c = true → (∀ d ∈ cs, isNameChar d = true) →
      Lawful (.name (c :: cs))
  | string {cs : List Char} : '"' ∉ cs → Lawful (.string cs)

/-- A lawful piece that a text starts with. -/
def Starts (p : Piece) (cs : List Char) : Prop := p.Lawful ∧ p.text <+: cs

/-- A lawful piece that a text starts with, and none is longer. -/
def Longest (p : Piece) (cs : List Char) : Prop :=
  p.Starts cs ∧ ∀ q : Piece, q.Starts cs → q.text.length ≤ p.text.length

theorem Lawful.text_ne_nil {p : Piece} (h : p.Lawful) : p.text ≠ [] := by
  cases h with
  | blank _ | comment _ | name _ _ | string _ => simp [text]
  | mark m => exact Mark.text_ne_nil m
  | number hw _ _ => simp only [text]; split <;> simp [hw]

/-! ## Characters -/

theorem isSeparator_of_mem {c : Char} (h : c ∈ [' ', '\t', '\r', '\n']) : isSeparator c = true := by
  simpa [isSeparator, or_assoc] using h

theorem mem_of_isSeparator {c : Char} (h : isSeparator c = true) : c ∈ [' ', '\t', '\r', '\n'] := by
  simpa [isSeparator, or_assoc] using h

/-- A class without separators and without the quote. -/
theorem plain_of_class {class? : Char → Bool}
    (hclass : [' ', '\t', '\r', '\n', '"'].any class? = false) {c : Char}
    (h : class? c = true) : isSeparator c = false ∧ c ≠ '"' := by
  have hne : c ∉ [' ', '\t', '\r', '\n', '"'] := by
    intro hc
    exact List.any_eq_false.mp hclass c hc h
  refine ⟨?_, ?_⟩
  · rw [Bool.eq_false_iff]
    intro hs
    exact hne (List.mem_append_left ['"'] (mem_of_isSeparator hs))
  · rintro rfl
    exact hne (by simp)

/-- A digit is neither a separator nor a quote. -/
theorem plain_of_isDigit {c : Char} (h : c.isDigit = true) : isSeparator c = false ∧ c ≠ '"' :=
  plain_of_class rfl h

theorem toNat_of_isNameStart {c : Char} (h : isNameStart c = true) : 65 ≤ c.toNat := by
  rcases Bool.or_eq_true_iff.mp h with h | h
  · rcases Bool.or_eq_true_iff.mp (h : (c.isUpper || c.isLower) = true) with h | h
    · exact UInt32.le_iff_toNat_le.mp (of_decide_eq_true h).1
    · have h : 97 ≤ c.toNat :=
        UInt32.le_iff_toNat_le.mp (of_decide_eq_true (Bool.and_eq_true_iff.mp h).1)
      omega
  · rw [beq_iff_eq.mp h]
    decide

/-- What starts a name starts nothing else. -/
theorem plain_of_isNameStart {c : Char} (h : isNameStart c = true) :
    isSeparator c = false ∧ c ≠ '"' ∧ c.isDigit = false := by
  obtain ⟨hs, hq⟩ := plain_of_class rfl h
  refine ⟨hs, hq, ?_⟩
  rw [Bool.eq_false_iff]
  intro hd
  have hname := toNat_of_isNameStart h
  have hd : c.toNat ≤ 57 := (Char.isDigit_iff_toNat.mp hd).2
  omega

theorem forall_mem_takeWhile (class? : Char → Bool) (cs : List Char) :
    ∀ c ∈ cs.takeWhile class?, class? c = true :=
  List.all_eq_true.mp List.all_takeWhile

theorem notMem_takeWhile_bne (c : Char) (cs : List Char) : c ∉ cs.takeWhile (· != c) := by
  intro hc
  simpa using forall_mem_takeWhile (· != c) cs c hc

theorem forall_bne_of_notMem {c : Char} {cs : List Char} (h : c ∉ cs) :
    ∀ d ∈ cs, (d != c) = true := by
  intro d hd
  rw [bne_iff_ne]
  exact fun e => h (e ▸ hd)

theorem forall_mem_fractionOf (cs : List Char) : ∀ d ∈ fractionOf cs, d.isDigit = true := by
  unfold fractionOf
  split
  · exact forall_mem_takeWhile Char.isDigit _
  · intro d hd
    cases hd

/-! ## What a cut takes where a lawful piece starts -/

/-- What is taken is the piece itself, or a longer lawful one. -/
def Beats (taken p : Piece) : Prop :=
  taken = p ∨ taken.Lawful ∧ p.text.length < taken.text.length

theorem read_blank {c : Char} (h : isSeparator c = true) (cs : List Char) :
    read c cs = (.blank c, cs) := by
  simp only [read, h, if_true]

theorem read_quote (cs : List Char) : read '"' cs = readString cs := by
  have h : isSeparator '"' = false := by decide
  simp [read, h]

theorem read_digit {c : Char} (h : c.isDigit = true) (cs : List Char) :
    read c cs = readNumber (c :: cs) := by
  obtain ⟨hs, hq⟩ := plain_of_isDigit h
  simp [read, hs, hq, h]

theorem read_name {c : Char} (h : isNameStart c = true) (cs : List Char) :
    read c cs = (.name (c :: cs.takeWhile isNameChar), cs.dropWhile isNameChar) := by
  obtain ⟨hs, hq, hd⟩ := plain_of_isNameStart h
  simp [read, hs, hq, hd, h]

theorem read_comment (cs : List Char) :
    read '/' ('/' :: cs) = (.comment (cs.takeWhile (· != '\n')), cs.dropWhile (· != '\n')) := rfl

/-- A character that is a mark starts nothing else, but for a second slash. -/
theorem read_mark {c : Char} {m : Mark} (h : Mark.ofChar? c = some m) {cs : List Char}
    (hc : ¬ (c = '/' ∧ cs.head? = some '/')) : read c cs = readMark m cs := by
  have hm : [c] = m.text := (Mark.text_of_ofChar? h).symm
  have hplain : isSeparator c = false ∧ c ≠ '"' ∧ c.isDigit = false ∧ isNameStart c = false := by
    cases m <;> simp [Mark.text] at hm <;> subst hm <;> decide
  obtain ⟨hs, hq, hd, hn⟩ := hplain
  simp only [read, hs, hq, hd, hn, hc, h, if_false, Bool.false_eq_true]

theorem lawful_readNumber {c : Char} (h : c.isDigit = true) (cs : List Char) :
    (readNumber (c :: cs)).1.Lawful := by
  refine .number ?_ (forall_mem_takeWhile Char.isDigit _) (forall_mem_fractionOf _)
  rw [List.takeWhile_cons_of_pos h]
  exact List.cons_ne_nil _ _

/-- A numeral without a fraction grows by the digits that follow, or else by a fraction. -/
theorem readNumber_whole {whole : List Char} (rest : List Char)
    (hw : ∀ d ∈ whole, d.isDigit = true) :
    (readNumber (whole ++ rest)).1 = .number whole [] ∨
      whole.length < (readNumber (whole ++ rest)).1.text.length := by
  simp only [readNumber, List.takeWhile_append_of_pos hw, List.dropWhile_append_of_pos hw]
  by_cases hr : rest.takeWhile Char.isDigit = [] ∧ fractionOf (rest.dropWhile Char.isDigit) = []
  · left
    rw [hr.1, hr.2, List.append_nil]
  · right
    simp only [text]
    split
    · next hnil =>
        have := List.length_pos_iff.mpr fun e => hr ⟨e, hnil⟩
        rw [List.length_append]
        omega
    · simp only [List.length_append, List.length_cons]
      omega

/-- A numeral with a fraction grows by the digits that follow. -/
theorem readNumber_fraction {whole fraction : List Char} (rest : List Char)
    (hw : ∀ d ∈ whole, d.isDigit = true) (hf : ∀ d ∈ fraction, d.isDigit = true) :
    (readNumber (whole ++ '.' :: fraction ++ rest)).1
      = .number whole (fraction ++ rest.takeWhile Char.isDigit) := by
  have hpoint : ¬ Char.isDigit '.' = true := by decide
  have hwhole : (whole ++ '.' :: fraction ++ rest).takeWhile Char.isDigit = whole := by
    rw [List.append_assoc, List.takeWhile_append_of_pos hw, List.cons_append,
      List.takeWhile_cons_of_neg hpoint, List.append_nil]
  have hafter : (whole ++ '.' :: fraction ++ rest).dropWhile Char.isDigit
      = '.' :: (fraction ++ rest) := by
    rw [List.append_assoc, List.dropWhile_append_of_pos hw, List.cons_append,
      List.dropWhile_cons_of_neg hpoint]
  simp only [readNumber, hwhole, hafter, fractionOf, List.takeWhile_append_of_pos hf]

theorem number_beats {c : Char} {cs rest whole fraction : List Char}
    (hw : ∀ d ∈ whole, d.isDigit = true) (hf : ∀ d ∈ fraction, d.isDigit = true)
    (hc : c.isDigit = true) (h : (Piece.number whole fraction).text ++ rest = c :: cs) :
    Beats (readNumber (c :: cs)).1 (.number whole fraction) := by
  have hlawful := lawful_readNumber hc cs
  rw [← h] at hlawful ⊢
  by_cases hnil : fraction = []
  · subst hnil
    rcases readNumber_whole rest hw with heq | hlt
    · exact .inl heq
    · exact .inr ⟨hlawful, hlt⟩
  · by_cases hr : rest.takeWhile Char.isDigit = []
    · left
      simp only [text, hnil, if_false, readNumber_fraction rest hw hf, hr, List.append_nil]
    · refine .inr ⟨hlawful, ?_⟩
      have := List.length_pos_iff.mpr hr
      simp only [text, hnil, if_false, readNumber_fraction rest hw hf, List.append_eq_nil_iff,
        false_and, List.length_append, List.length_cons]
      omega

theorem comment_beats {cs : List Char} (hc : '\n' ∉ cs) (rest : List Char) :
    Beats (read '/' ('/' :: (cs ++ rest))).1 (.comment cs) := by
  rw [read_comment, List.takeWhile_append_of_pos (forall_bne_of_notMem hc)]
  by_cases hr : rest.takeWhile (· != '\n') = []
  · left
    rw [hr, List.append_nil]
  · refine .inr ⟨.comment fun hn => ?_, ?_⟩
    · rcases List.mem_append.mp hn with hn | hn
      · exact hc hn
      · exact notMem_takeWhile_bne '\n' rest hn
    · have := List.length_pos_iff.mpr hr
      simp only [text, List.length_cons, List.length_append]
      omega

theorem name_beats {c : Char} {cs : List Char} (hc : isNameStart c = true)
    (hcs : ∀ d ∈ cs, isNameChar d = true) (rest : List Char) :
    Beats (read c (cs ++ rest)).1 (.name (c :: cs)) := by
  rw [read_name hc, List.takeWhile_append_of_pos hcs]
  by_cases hr : rest.takeWhile isNameChar = []
  · left
    rw [hr, List.append_nil]
  · refine .inr ⟨.name hc fun d hd => ?_, ?_⟩
    · rcases List.mem_append.mp hd with hd | hd
      · exact hcs d hd
      · exact forall_mem_takeWhile isNameChar rest d hd
    · have := List.length_pos_iff.mpr hr
      simp only [text, List.length_cons, List.length_append]
      omega

theorem read_string {cs : List Char} (hq : '"' ∉ cs) (rest : List Char) :
    read '"' (cs ++ '"' :: rest) = (.string cs, rest) := by
  have hrun := forall_bne_of_notMem hq
  rw [read_quote]
  simp [readString, List.dropWhile_append_of_pos hrun, List.takeWhile_append_of_pos hrun]

theorem readMark_beats {m base : Mark} (h : m = base ∨ base.withEqual? = some m)
    {cs rest : List Char} (hcs : base.text ++ cs = m.text ++ rest) :
    Beats (readMark base cs).1 (.mark m) := by
  rcases h with rfl | h
  · unfold readMark
    split
    · next long _ hlong =>
        refine .inr ⟨.mark long, ?_⟩
        simp [text, Mark.text_withEqual hlong]
    · exact .inl rfl
  · rw [Mark.text_withEqual h, List.append_assoc, List.append_cancel_left_eq] at hcs
    subst hcs
    left
    simp [readMark, h]

theorem ofChar?_of_text {m : Mark} {c : Char} (h : m.text = [c]) : Mark.ofChar? c = some m := by
  cases m <;> simp [Mark.text] at h <;> subst h <;> rfl

/-- Every mark is one character, or one character and an equals sign. -/
theorem exists_base (m : Mark) : ∃ (c : Char) (base : Mark),
    Mark.ofChar? c = some base ∧ (m = base ∨ base.withEqual? = some m) := by
  cases m
  case bangEqual => exact ⟨_, .bang, ofChar?_of_text rfl, .inr rfl⟩
  case equalEqual => exact ⟨_, .equal, ofChar?_of_text rfl, .inr rfl⟩
  case greaterEqual => exact ⟨_, .greater, ofChar?_of_text rfl, .inr rfl⟩
  case lessEqual => exact ⟨_, .less, ofChar?_of_text rfl, .inr rfl⟩
  all_goals exact ⟨_, _, ofChar?_of_text rfl, .inl rfl⟩

theorem mark_beats {m : Mark} {c : Char} {cs rest : List Char}
    (h : m.text ++ rest = c :: cs) : Beats (read c cs).1 (.mark m) := by
  obtain ⟨d, base, hbase, hm⟩ := exists_base m
  have htext : base.text = [d] := Mark.text_of_ofChar? hbase
  obtain ⟨tail, htail⟩ : ∃ tail, m.text = d :: tail := by
    rcases hm with rfl | hm
    · exact ⟨[], htext⟩
    · exact ⟨['='], by rw [Mark.text_withEqual hm, htext]; rfl⟩
  obtain ⟨rfl, hcs⟩ : d = c ∧ tail ++ rest = cs := by simpa [htail] using h
  by_cases hslash : d = '/' ∧ cs.head? = some '/'
  · -- the one piece that a cut passes over for another rule
    obtain ⟨rfl, hhead⟩ := hslash
    obtain ⟨ds, rfl⟩ : ∃ ds, cs = '/' :: ds := by
      cases cs with
      | nil => cases hhead
      | cons e ds => exact ⟨ds, by simpa using hhead⟩
    obtain rfl : base = .slash := Option.some.inj (hbase.symm.trans (ofChar?_of_text rfl))
    obtain rfl : m = .slash := by simpa [Mark.withEqual?] using hm
    rw [read_comment]
    exact .inr ⟨.comment (notMem_takeWhile_bne '\n' ds), by simp [text, Mark.text]⟩
  · rw [read_mark hbase hslash]
    exact readMark_beats hm (by rw [htext, htail, ← hcs]; rfl)

/-- Where a lawful piece starts, a cut takes it or a longer one. -/
theorem read_beats {p : Piece} (hp : p.Lawful) {c : Char} {cs rest : List Char}
    (h : p.text ++ rest = c :: cs) : Beats (read c cs).1 p := by
  cases hp with
  | blank hc =>
      obtain ⟨rfl, rfl⟩ : _ = c ∧ rest = cs := by simpa [text] using h
      rw [read_blank (isSeparator_of_mem hc)]
      exact .inl rfl
  | @comment text' hc =>
      obtain ⟨rfl, rfl⟩ : '/' = c ∧ '/' :: (text' ++ rest) = cs := by simpa [text] using h
      exact comment_beats hc rest
  | mark m => exact mark_beats h
  | @number whole fraction hw hd hf =>
      have hc : c.isDigit = true := by
        obtain ⟨e, whole', rfl⟩ := List.exists_cons_of_ne_nil hw
        have : e = c := by
          simp only [text] at h
          split at h <;> exact (List.cons.inj h).1
        exact this ▸ hd e (List.mem_cons_self)
      rw [read_digit hc]
      exact number_beats hd hf hc h
  | @name d ds hd hds =>
      obtain ⟨rfl, rfl⟩ : d = c ∧ ds ++ rest = cs := by simpa [text] using h
      exact name_beats hd hds rest
  | @string text' hq =>
      obtain ⟨rfl, rfl⟩ : '"' = c ∧ text' ++ '"' :: rest = cs := by simpa [text] using h
      rw [read_string hq]
      exact .inl rfl

/-! ## What a cut takes -/

/-- A cut takes a lawful piece, a stray character, or the whole rest after an open quote. -/
theorem read_cases (c : Char) (cs : List Char) :
    (read c cs).1.Lawful ∨ (c ≠ '"' ∧ read c cs = (.stray c, cs)) ∨
      (c = '"' ∧ read c cs = (.unclosed cs, [])) := by
  unfold read
  split
  · next h => exact .inl (.blank (mem_of_isSeparator h))
  split
  · next h =>
      unfold readString
      split
      · exact .inl (.string (notMem_takeWhile_bne '"' cs))
      · exact .inr (.inr ⟨h, rfl⟩)
  next hq =>
  split
  · next h => exact .inl (lawful_readNumber h cs)
  split
  · next h => exact .inl (.name h (forall_mem_takeWhile isNameChar cs))
  split
  · exact .inl (.comment (notMem_takeWhile_bne '\n' cs.tail))
  split
  · next m _ =>
      left
      unfold readMark
      split
      · exact .mark _
      · exact .mark _
  · exact .inr (.inl ⟨hq, rfl⟩)

/-- A cut takes the longest lawful piece, if there is any. -/
theorem longest_read {c : Char} {cs : List Char} (h : (read c cs).1.Lawful) :
    (read c cs).1.Longest (c :: cs) := by
  refine ⟨⟨h, (read c cs).2, read_cut c cs⟩, ?_⟩
  rintro q ⟨hq, rest, hrest⟩
  rcases read_beats hq hrest with he | ⟨-, hlt⟩
  · exact Nat.le_of_eq (by rw [he])
  · exact Nat.le_of_lt hlt

/-- There is one longest piece, and a cut takes it. -/
theorem read_of_longest {p : Piece} {c : Char} {cs rest : List Char}
    (hp : p.Longest (c :: cs)) (h : p.text ++ rest = c :: cs) : read c cs = (p, rest) := by
  obtain ⟨⟨hlawful, -⟩, hmax⟩ := hp
  rcases read_beats hlawful h with he | ⟨hl, hlt⟩
  · refine Prod.ext he ?_
    have hcut := read_cut c cs
    rw [he, ← h] at hcut
    exact List.append_cancel_left hcut
  · exact absurd hlt (Nat.not_lt_of_le (hmax _ (longest_read hl).1))

/-- Where no lawful piece starts, none is taken. -/
theorem not_lawful_read {c : Char} {cs : List Char} (h : ∀ p : Piece, ¬ p.Starts (c :: cs)) :
    ¬ (read c cs).1.Lawful := by
  intro hl
  exact h _ (longest_read hl).1

/-- And where one starts, one is taken. -/
theorem lawful_read {p : Piece} {c : Char} {cs : List Char} (h : p.Starts (c :: cs)) :
    (read c cs).1.Lawful := by
  obtain ⟨hp, rest, hrest⟩ := h
  rcases read_beats hp hrest with he | ⟨hl, -⟩
  · exact he ▸ hp
  · exact hl

end RoxLang.Piece
