/-
# `RoxLang.Proofs.Lexeme.Written` — scanning undoes writing tokens out

A token is written as its lexeme, a string between quotes.  Tokens are written one after the other
with separators around them, which are blanks and comments in any number, but at least one between
two tokens.  A scan of the text gives the tokens back, each on the line on which it ends: what is
written of a token is a piece, and neither a blank nor the slash of a comment goes on any piece —
except that a slash in front of a comment makes one comment with it.  Such a slash is swallowed: it
is text of the comment and no token.
-/
import RoxLang.Proofs.Lexeme.Scan

namespace RoxLang

open Text (newlines)
open Piece (isSeparator_of_mem)

/-! ## Tokens and separators as they are written -/

/-- The lexemes that tokens of each kind may have. -/
inductive Shaped : Kind → List Char → Prop
  | mark (m : Mark) : Shaped (.mark m) m.text
  | word (w : Word) : Shaped (.word w) w.text
  | identifier {c : Char} {cs : List Char} : isNameStart c = true →
      (∀ d ∈ cs, isNameChar d = true) → (∀ w : Word, w.text ≠ c :: cs) →
      Shaped .identifier (c :: cs)
  | whole {ds : List Char} : ds ≠ [] → (∀ d ∈ ds, d.isDigit = true) → Shaped .number ds
  | fraction {ds es : List Char} : ds ≠ [] → (∀ d ∈ ds, d.isDigit = true) → es ≠ [] →
      (∀ d ∈ es, d.isDigit = true) → Shaped .number (ds ++ '.' :: es)
  | string {cs : List Char} : '"' ∉ cs → Shaped .string cs

/-- Blanks and comments, each comment with the end of its line. -/
inductive Separator : List Char → Prop
  | nil : Separator []
  | blank {c : Char} {cs : List Char} : c ∈ [' ', '\t', '\r', '\n'] → Separator cs →
      Separator (c :: cs)
  | comment {text cs : List Char} : '\n' ∉ text → Separator cs →
      Separator ('/' :: '/' :: (text ++ '\n' :: cs))

/-- How a token of a kind is written, given its lexeme: strings are in quotes. -/
def writtenAs (kind : Kind) (lexeme : List Char) : List Char :=
  if kind = .string then '"' :: lexeme ++ ['"'] else lexeme

/-- A token to write, and the separator behind it. -/
structure Written where
  kind : Kind
  lexeme : List Char
  after : List Char

namespace Written

/-- What is written of the token. -/
def text (w : Written) : List Char := writtenAs w.kind w.lexeme

/-- Whether the token is a slash that a comment follows. -/
def swallowed (w : Written) : Bool := w.kind = .mark .slash ∧ w.after.take 2 = ['/', '/']

/-- The text of several tokens. -/
def textOfAll : List Written → List Char
  | [] => []
  | w :: ws => w.text ++ (w.after ++ textOfAll ws)

/-- The tokens that are written behind some text, each on the line on which it ends. -/
def placed (before : List Char) : List Written → List (Written × Token)
  | [] => []
  | w :: ws => (w, ⟨w.kind, String.ofList w.lexeme, newlines (before ++ w.text)⟩) ::
      placed (before ++ w.text ++ w.after) ws

/-- The tokens that are not swallowed, behind some text. -/
def kept (before : List Char) (ws : List Written) : List Token :=
  ((placed before ws).filter fun p => !p.1.swallowed).map (·.2)

/-- The text of tokens, with a separator in front of them. -/
def source (lead : List Char) (ws : List Written) : String := String.ofList (lead ++ textOfAll ws)

/-- Tokens that can be written so: they have lexemes of their kinds, what is between them are
separators, and no two of them are written without one. -/
structure WellFormed (ws : List Written) : Prop where
  shaped : ∀ w ∈ ws, Shaped w.kind w.lexeme
  separated : ∀ w ∈ ws, Separator w.after
  apart : ∀ w ∈ ws.dropLast, w.after ≠ []

theorem placed_fst (ws : List Written) : ∀ before : List Char,
    (placed before ws).map (·.1) = ws := by
  induction ws with
  | nil => exact fun _ => rfl
  | cons w ws ih => exact fun before => congrArg (w :: ·) (ih _)

end Written

/-! ## What may follow a token -/

/-- A text that is empty or starts as separators do. -/
def Halts (cs : List Char) : Prop := ∀ c ∈ cs.head?, c ∈ [' ', '\t', '\r', '\n', '/']

theorem halts_nil : Halts [] := nofun

/-- A separator halts, and so does the end of the text. -/
theorem Separator.halts {s rest : List Char} (h : Separator s) (hrest : s = [] → Halts rest) :
    Halts (s ++ rest) := by
  cases h with
  | nil => exact hrest rfl
  | blank hc _ =>
      rintro _ ⟨⟩
      exact List.mem_append_left ['/'] hc
  | comment _ _ =>
      rintro _ ⟨⟩
      decide

namespace Halts

variable {rest : List Char}

/-- A class without the characters that start separators. -/
theorem not_class (h : Halts rest) {class? : Char → Bool}
    (hclass : [' ', '\t', '\r', '\n', '/'].any class? = false) {c : Char} (hc : c ∈ rest.head?) :
    ¬ class? c = true := List.any_eq_false.mp hclass c (h c hc)

theorem takeWhile (h : Halts rest) (class? : Char → Bool)
    (hclass : [' ', '\t', '\r', '\n', '/'].any class? = false) :
    rest.takeWhile class? = [] := by
  cases rest with
  | nil => rfl
  | cons c cs => exact List.takeWhile_cons_of_neg (h.not_class hclass rfl)

theorem dropWhile (h : Halts rest) (class? : Char → Bool)
    (hclass : [' ', '\t', '\r', '\n', '/'].any class? = false) :
    rest.dropWhile class? = rest := by
  cases rest with
  | nil => rfl
  | cons c cs => exact List.dropWhile_cons_of_neg (h.not_class hclass rfl)

theorem fractionOf (h : Halts rest) : Piece.fractionOf rest = [] := by
  unfold Piece.fractionOf
  split
  · exact absurd (h '.' rfl) (by decide)
  · rfl

theorem readMark (h : Halts rest) (m : Mark) : Piece.readMark m rest = (.mark m, rest) := by
  unfold Piece.readMark
  split
  · exact absurd (h '=' rfl) (by decide)
  · rfl

end Halts

/-- Neither digits nor a point with digits behind it come next, so a numeral in front has ended. -/
def EndsNumeral (cs : List Char) : Prop :=
  cs.takeWhile Char.isDigit = [] ∧ Piece.fractionOf cs = []

theorem Halts.endsNumeral {rest : List Char} (h : Halts rest) : EndsNumeral rest :=
  ⟨h.takeWhile Char.isDigit rfl, h.fractionOf⟩

theorem EndsNumeral.dropWhile {rest : List Char} (h : EndsNumeral rest) :
    rest.dropWhile Char.isDigit = rest := by
  have hsplit := List.takeWhile_append_dropWhile (p := Char.isDigit) (l := rest)
  rwa [h.1] at hsplit

/-! ## One cut -/

namespace Piece

variable {rest : List Char}

theorem cut_eq {c : Char} {cs : List Char} {p : Piece} (hread : read c cs = (p, rest)) :
    cut (c :: cs) = p :: cut rest := by
  rw [cut_cons, hread]

theorem cut_blank {c : Char} (hc : c ∈ [' ', '\t', '\r', '\n']) (rest : List Char) :
    cut (c :: rest) = .blank c :: cut rest := cut_eq (read_blank (isSeparator_of_mem hc) rest)

theorem cut_comment {text : List Char} (h : '\n' ∉ text) (rest : List Char) :
    cut ('/' :: '/' :: (text ++ '\n' :: rest)) = .comment text :: cut ('\n' :: rest) := by
  have hclass := forall_bne_of_notMem h
  refine cut_eq ((read_comment _).trans ?_)
  rw [List.takeWhile_append_of_pos hclass, List.dropWhile_append_of_pos hclass]
  exact congrArg (Piece.comment · , _) (List.append_nil text)

theorem cut_mark (m : Mark) (h : Halts rest) (hslash : m = .slash → rest.head? ≠ some '/') :
    cut (m.text ++ rest) = .mark m :: cut rest := by
  obtain ⟨c, base, hbase, rfl | hlong⟩ := exists_base m
  · have htext : m.text = [c] := Mark.text_of_ofChar? hbase
    have hcomment : ¬ (c = '/' ∧ rest.head? = some '/') := by
      rintro ⟨rfl, hhead⟩
      exact hslash (Option.some.inj (hbase.symm.trans (ofChar?_of_text rfl))) hhead
    rw [htext]
    exact cut_eq ((read_mark hbase hcomment).trans (h.readMark m))
  · have htext : m.text = [c, '='] := by
      rw [Mark.text_withEqual hlong, Mark.text_of_ofChar? hbase]
      rfl
    have hcomment : ¬ (c = '/' ∧ ('=' :: rest).head? = some '/') := by simp
    rw [htext]
    refine cut_eq ((read_mark hbase hcomment).trans ?_)
    simp only [readMark, hlong]

theorem cut_name {c : Char} {cs : List Char} (hc : isNameStart c = true)
    (hcs : ∀ d ∈ cs, isNameChar d = true) (h : Halts rest) :
    cut (c :: cs ++ rest) = .name (c :: cs) :: cut rest := by
  refine cut_eq ((read_name hc (cs ++ rest)).trans ?_)
  rw [List.takeWhile_append_of_pos hcs, List.dropWhile_append_of_pos hcs,
    h.takeWhile isNameChar rfl, h.dropWhile isNameChar rfl, List.append_nil]

theorem cut_digits {ds after : List Char} {p : Piece} (hne : ds ≠ [])
    (hds : ∀ d ∈ ds, d.isDigit = true) (hread : readNumber (ds ++ rest) = (p, after)) :
    cut (ds ++ rest) = p :: cut after := by
  obtain ⟨c, cs, rfl⟩ := List.exists_cons_of_ne_nil hne
  exact cut_eq ((read_digit (hds c List.mem_cons_self) (cs ++ rest)).trans hread)

theorem cut_whole {ds : List Char} (hne : ds ≠ []) (hds : ∀ d ∈ ds, d.isDigit = true)
    (h : EndsNumeral rest) : cut (ds ++ rest) = .number ds [] :: cut rest := by
  refine cut_digits hne hds ?_
  simp only [readNumber, List.takeWhile_append_of_pos hds, List.dropWhile_append_of_pos hds,
    h.1, h.dropWhile, h.2, List.append_nil, if_true]

theorem cut_fraction {ds es : List Char} (hne : ds ≠ []) (hds : ∀ d ∈ ds, d.isDigit = true)
    (hfraction : es ≠ []) (hes : ∀ d ∈ es, d.isDigit = true) (h : EndsNumeral rest) :
    cut (ds ++ '.' :: es ++ rest) = .number ds es :: cut rest := by
  have hpoint : ¬ '.'.isDigit = true := by decide
  have hdigits : fractionOf ('.' :: (es ++ rest)) = es := by
    rw [fractionOf, List.takeWhile_append_of_pos hes, h.1, List.append_nil]
  rw [List.append_assoc]
  refine cut_digits hne hds ?_
  simp only [readNumber, List.cons_append, List.takeWhile_append_of_pos hds,
    List.dropWhile_append_of_pos hds, List.takeWhile_cons_of_neg hpoint,
    List.dropWhile_cons_of_neg hpoint, hdigits, hfraction, if_false, List.append_nil,
    List.drop_succ_cons, List.drop_left]

theorem cut_string {cs : List Char} (h : '"' ∉ cs) (rest : List Char) :
    cut ('"' :: cs ++ ['"'] ++ rest) = .string cs :: cut rest := by
  rw [List.append_assoc]
  exact cut_eq (read_string h rest)

theorem exists_name (w : Word) : ∃ c cs, w.text = c :: cs ∧ isNameStart c = true ∧
    ∀ d ∈ cs, isNameChar d = true := by
  cases w <;> exact ⟨_, _, rfl, rfl, List.all_eq_true.mp rfl⟩

/-- A reserved word is cut off as a name. -/
theorem cut_word (w : Word) (h : Halts rest) :
    (Piece.name w.text).Lawful ∧ cut (w.text ++ rest) = .name w.text :: cut rest := by
  obtain ⟨c, cs, htext, hc, hcs⟩ := exists_name w
  rw [htext]
  exact ⟨.name hc hcs, cut_name hc hcs h⟩

end Piece

/-- What is written of a token is a piece that is cut off where its text ends. -/
theorem Shaped.exists_piece {kind : Kind} {lexeme : List Char} (h : Shaped kind lexeme)
    {rest : List Char} (hrest : Halts rest)
    (hslash : kind = .mark .slash → rest.head? ≠ some '/') :
    ∃ p : Piece, p.Lawful ∧ p.lexeme? = some (kind, lexeme) ∧ p.text = writtenAs kind lexeme ∧
      Piece.cut (writtenAs kind lexeme ++ rest) = p :: Piece.cut rest := by
  cases h with
  | mark m =>
      exact ⟨.mark m, .mark m, rfl, rfl, Piece.cut_mark m hrest fun hm => hslash (congrArg _ hm)⟩
  | word w =>
      obtain ⟨hlawful, hcut⟩ := Piece.cut_word w hrest
      refine ⟨.name w.text, hlawful, ?_, rfl, hcut⟩
      rw [Piece.lexeme?, Kind.ofNameText, Word.ofText?_text]
  | @identifier c cs hc hcs hword =>
      refine ⟨.name (c :: cs), .name hc hcs, ?_, rfl, Piece.cut_name hc hcs hrest⟩
      rw [Piece.lexeme?, Kind.ofNameText]
      split
      · next w hw => exact absurd (Word.text_of_ofText? hw) (hword w)
      · rfl
  | whole hne hds =>
      exact ⟨.number lexeme [], .number hne hds nofun, rfl, rfl,
        Piece.cut_whole hne hds hrest.endsNumeral⟩
  | @fraction ds es hne hds hfraction hes =>
      have htext : (Piece.number ds es).text = ds ++ '.' :: es := if_neg hfraction
      refine ⟨.number ds es, .number hne hds hes, ?_, htext, ?_⟩
      · rw [Piece.lexeme?, htext]
      · exact Piece.cut_fraction hne hds hfraction hes hrest.endsNumeral
  | string hq => exact ⟨.string lexeme, .string hq, rfl, rfl, Piece.cut_string hq rest⟩

/-! ## Scans of texts put together -/

/-- A text that starts on some line has no faults, and these tokens. -/
def Scans (line : Nat) (cs : List Char) (ts : List Token) : Prop :=
  faultsFrom line (Piece.cut cs) = [] ∧ tokensFrom line (Piece.cut cs) = ts

section

variable {line : Nat} {rest : List Char} {ts : List Token}

theorem scans_nil (line : Nat) : Scans line [] [] := ⟨rfl, rfl⟩

theorem Scans.piece {p : Piece} {cs : List Char} (h : Scans (line + p.newlines) rest ts)
    (hp : p.Lawful) (hcut : Piece.cut cs = p :: Piece.cut rest) :
    Scans line cs ((p.token? (line + p.newlines)).toList ++ ts) := by
  rw [Scans, hcut, Piece.faultsFrom_cons, Piece.tokensFrom_cons, hp.fault?_eq_none, h.1, h.2]
  exact ⟨rfl, rfl⟩

theorem Scans.blank {c : Char} (hc : c ∈ [' ', '\t', '\r', '\n'])
    (h : Scans (line + newlines [c]) rest ts) : Scans line (c :: rest) ts :=
  Scans.piece h (.blank hc) (Piece.cut_blank hc rest)

/-- A separator has no tokens, only lines. -/
theorem Separator.scans {s : List Char} (h : Separator s) :
    ∀ {line : Nat}, Scans (line + newlines s) rest ts → Scans line (s ++ rest) ts := by
  induction h with
  | nil => exact id
  | @blank c cs hc _ ih =>
      intro line hrest
      rw [← List.singleton_append, newlines_append, ← Nat.add_assoc] at hrest
      exact (ih hrest).blank hc
  | @comment text cs htext _ ih =>
      intro line hrest
      have hsplit : '/' :: '/' :: (text ++ '\n' :: cs)
          = ('/' :: '/' :: text) ++ (['\n'] ++ cs) := rfl
      rw [hsplit, newlines_append, newlines_append, ← Nat.add_assoc, ← Nat.add_assoc] at hrest
      have hline := (ih hrest).blank (c := '\n') (by decide)
      have hcut := Piece.cut_comment htext (cs ++ rest)
      rw [hsplit, List.append_assoc]
      exact Scans.piece (p := .comment text) hline (.comment htext) hcut

/-- A slash is the first character of no separator but a comment. -/
theorem Separator.take_two {s : List Char} (h : Separator s) (hs : s.head? = some '/') :
    s.take 2 = ['/', '/'] := by
  cases h with
  | nil => cases hs
  | blank hc _ =>
      cases hs
      exact absurd hc (by decide)
  | comment _ _ => rfl

/-- A slash in front of a comment makes a comment with it. -/
theorem Separator.swallow {s : List Char} (h : Separator s) (hs : s.take 2 = ['/', '/']) :
    Separator ('/' :: s) := by
  cases h with
  | nil => cases hs
  | blank hc _ =>
      rw [(List.cons.inj hs).1] at hc
      exact absurd hc (by decide)
  | @comment text cs htext hcs =>
      have hslash : '\n' ∉ '/' :: text := by simpa using htext
      exact .comment hslash hcs

end

/-! ## Scans of written tokens -/

namespace Written

variable {w : Written} {ws : List Written}

theorem WellFormed.tail (h : WellFormed (w :: ws)) : WellFormed ws where
  shaped := fun v hv => h.shaped v (List.mem_cons_of_mem w hv)
  separated := fun v hv => h.separated v (List.mem_cons_of_mem w hv)
  apart := by
    intro v hv
    cases ws with
    | nil => cases hv
    | cons _ _ => exact h.apart v (List.mem_cons_of_mem w hv)

/-- What follows a token halts. -/
theorem WellFormed.halts (h : WellFormed (w :: ws)) : Halts (w.after ++ textOfAll ws) := by
  refine (h.separated w List.mem_cons_self).halts fun hnil => ?_
  cases ws with
  | nil => exact halts_nil
  | cons _ _ => exact absurd hnil (h.apart w List.mem_cons_self)

/-- What follows a slash that is not swallowed does not start with a slash. -/
theorem WellFormed.head?_ne (h : WellFormed (w :: ws)) (hw : w.swallowed = false)
    (hkind : w.kind = .mark .slash) : (w.after ++ textOfAll ws).head? ≠ some '/' := by
  intro hhead
  have hafter : w.after.head? = some '/' := by
    cases hnil : w.after with
    | cons c cs => simpa [hnil] using hhead
    | nil =>
        cases ws with
        | nil => simp [hnil, textOfAll] at hhead
        | cons _ _ => exact absurd hnil (h.apart w List.mem_cons_self)
  have htwo := (h.separated w List.mem_cons_self).take_two hafter
  simp [swallowed, hkind, htwo] at hw

theorem kept_cons_of_swallowed (h : w.swallowed = true) (before : List Char) :
    kept before (w :: ws) = kept (before ++ (w.text ++ w.after)) ws := by
  rw [kept, placed, List.filter_cons_of_neg (by simp [h]), List.append_assoc]
  rfl

theorem kept_cons_of_not_swallowed (h : w.swallowed = false) (before : List Char) :
    kept before (w :: ws) = ⟨w.kind, String.ofList w.lexeme, newlines (before ++ w.text)⟩ ::
      kept (before ++ (w.text ++ w.after)) ws := by
  rw [kept, placed, List.filter_cons_of_pos (by simp [h]), List.append_assoc]
  rfl

/-- A swallowed slash belongs to the separator behind it. -/
theorem WellFormed.swallow (h : WellFormed (w :: ws)) (hw : w.swallowed = true) :
    Separator (w.text ++ w.after) := by
  obtain ⟨hkind, htwo⟩ : w.kind = .mark .slash ∧ w.after.take 2 = ['/', '/'] := of_decide_eq_true hw
  have hshaped := h.shaped w List.mem_cons_self
  have htext : w.text = ['/'] := by
    rw [text, hkind]
    rw [hkind] at hshaped
    generalize w.lexeme = lexeme at hshaped
    cases hshaped
    rfl
  rw [htext]
  exact (h.separated w List.mem_cons_self).swallow htwo

/-- A text of written tokens has no faults, and its tokens are those that are not swallowed. -/
theorem scans_kept : ∀ (ws : List Written) (before : List Char), WellFormed ws →
    Scans (newlines before) (textOfAll ws) (kept before ws)
  | [], _, _ => scans_nil _
  | w :: ws, before, h => by
      -- What is in front is carried along, since its line ends are the line so far.
      have hrest := scans_kept ws (before ++ (w.text ++ w.after)) h.tail
      rw [textOfAll]
      cases hw : w.swallowed with
      | true =>
          rw [newlines_append] at hrest
          rw [kept_cons_of_swallowed hw, ← List.append_assoc]
          exact (h.swallow hw).scans hrest
      | false =>
          obtain ⟨p, hp, hlexeme, htext, hcut⟩ :=
            (h.shaped w List.mem_cons_self).exists_piece h.halts (h.head?_ne hw)
          have hlines : p.newlines = newlines w.text := congrArg newlines htext
          rw [newlines_append, newlines_append, ← Nat.add_assoc, ← hlines] at hrest
          have htoken := ((h.separated w List.mem_cons_self).scans hrest).piece hp hcut
          rw [Piece.token?, hlexeme] at htoken
          rw [kept_cons_of_not_swallowed hw, newlines_append, ← hlines]
          exact htoken

theorem scan_kept {lead : List Char} {ws : List Written} (hlead : Separator lead)
    (h : WellFormed ws) :
    scan (source lead ws) = .ok (kept lead ws ++ [eofToken (newlines (lead ++ textOfAll ws))]) := by
  have hwritten := scans_kept ws lead h
  rw [← Nat.zero_add (newlines lead)] at hwritten
  obtain ⟨hfaults, htokens⟩ := hlead.scans hwritten
  rw [scan_ok_iff, source, String.toList_ofList, htokens]
  exact ⟨hfaults, rfl⟩

theorem kept_eq_placed {ws : List Written} (h : ∀ w ∈ ws, w.swallowed = false)
    (before : List Char) : kept before ws = (placed before ws).map (·.2) := by
  have hall : (placed before ws).filter (fun p => !p.1.swallowed) = placed before ws := by
    refine List.filter_eq_self.mpr fun p hp => ?_
    have hmem : p.1 ∈ ws := placed_fst ws before ▸ List.mem_map_of_mem hp
    rw [h p.1 hmem]
    rfl
  rw [kept, hall]

end Written

open Written (textOfAll placed kept source)

/-- Writing tokens out with separators around them and scanning the text gives no faults, and the
tokens back, each on the line on which it ends, and an end token on the last line; only a slash in
front of a comment is swallowed by it.  So where no slash is followed by a comment at once, all
tokens come back. -/
theorem scan_written {lead : List Char} {ws : List Written} (hlead : Separator lead)
    (h : Written.WellFormed ws) :
    let eof := eofToken (newlines (lead ++ textOfAll ws))
    scan (source lead ws) = .ok (kept lead ws ++ [eof]) ∧
      ((∀ w ∈ ws, w.swallowed = false) →
        scan (source lead ws) = .ok ((placed lead ws).map (·.2) ++ [eof])) := by
  intro eof
  have hscan := Written.scan_kept hlead h
  refine ⟨hscan, fun hall => ?_⟩
  rw [hscan, Written.kept_eq_placed hall]

/-- The text `x ///` with a string of two lines on the next: the slash is swallowed. -/
theorem scan_written_lines :
    let ws : List Written := [⟨.identifier, ['x'], [' ']⟩,
      ⟨.mark .slash, ['/'], ['/', '/', '\n', '\t']⟩, ⟨.string, ['/', '\n'], []⟩]
    Separator [] ∧ Written.WellFormed ws ∧
      scan (source [] ws) = .ok [⟨.identifier, "x", 0⟩, ⟨.string, "/\n", 2⟩, eofToken 2] := by
  intro ws
  have hname : Shaped .identifier ['x'] := .identifier rfl nofun fun w => by cases w <;> decide
  have hstring : Shaped .string ['/', '\n'] := .string (by decide)
  have hblank : Separator [' '] := .blank (by decide) .nil
  have hcomment : Separator ['/', '/', '\n', '\t'] :=
    @Separator.comment [] _ nofun (.blank (by decide) .nil)
  have hws : Written.WellFormed ws := {
    shaped := by simpa [ws] using ⟨hname, .mark .slash, hstring⟩
    separated := by simpa [ws] using ⟨hblank, hcomment, .nil⟩
    apart := by simp [ws] }
  exact ⟨.nil, hws, (scan_written .nil hws).1⟩

/-- A scan does not give every written token back: not a slash with a comment at once behind it. -/
theorem scan_swallows_slash :
    ¬ ∀ (lead : List Char) (ws : List Written), Separator lead → Written.WellFormed ws →
      scan (source lead ws)
        = .ok ((placed lead ws).map (·.2) ++ [eofToken (newlines (lead ++ textOfAll ws))]) := by
  intro h
  let w : Written := ⟨.mark .slash, ['/'], ['/', '/', '\n']⟩
  have hw : Written.WellFormed [w] := {
    shaped := List.forall_mem_singleton.mpr (.mark .slash)
    separated := List.forall_mem_singleton.mpr (@Separator.comment [] [] nofun .nil)
    apart := nofun }
  have hall := h [] [w] .nil hw
  rw [Written.scan_kept .nil hw] at hall
  cases hall

end RoxLang
