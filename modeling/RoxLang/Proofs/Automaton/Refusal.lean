/-
# `RoxLang.Proofs.Automaton.Refusal` — the fault of a text whose tokens the machine cannot take

A machine that can take the scanned tokens of a text up to some token comes to the piece of that
token in the same state, whatever it has read pieces as on the way.  If it cannot take the token
itself, what the run gives depends on what else the piece may be read as.

* A piece that is no token of the grammar has no reading, and its first character is shown.
* A mark of two characters may be read without its `=` where the shorter mark fits.  Then the run
  stops one character further, because an operand has to follow and no operand starts with `=`.
* A word of a statement may be read as a name where only a name fits.  That is left aside here.
* Every other piece is shown as the token that it is, on the line on which it starts.
-/
import RoxLang.Proofs.Automaton.Joined

namespace RoxLang

/-- Whether tokens of a kind occur in no rule of the grammar. -/
def Kind.isUnruled : Kind → Bool
  | .mark .comma | .mark .dot => true
  | .word w => !w.inUse
  | _ => false

/-- Whether a kind is that of a word that some rule of the grammar mentions. -/
def Kind.isWordInUse : Kind → Bool
  | .word w => w.inUse
  | _ => false

namespace Automaton

open Config (steps?_cons)

/-! ## Coming to a token -/

/-- In a text that starts on the given line, the tokens `before` are those of the pieces `ps`, and
behind these starts the piece of `t`. -/
structure PieceOf (line : Nat) (cs : List Char) (before : List Token) (t : Token) (ps : List Piece)
    (ch : Char) (rest : List Char) : Prop where
  cut : Piece.cut cs = ps ++ Piece.cut (ch :: rest)
  before : tokensFrom line ps = before
  lawful : (Piece.read ch rest).1.Lawful
  token : (Piece.read ch rest).1.token?
    (line + Text.newlines (ps.flatMap Piece.text) + (Piece.read ch rest).1.newlines) = some t

/-- The run from `c` comes in state `c'` to the piece of `t`, having passed the tokens `before`. -/
def ComesTo (c : Config) (line : Nat) (cs : List Char) (before : List Token) (t : Token)
    (c' : Config) : Prop :=
  ∃ ps ch rest, PieceOf line cs before t ps ch rest ∧
    runFrom c line cs = runFrom c' (line + Text.newlines (ps.flatMap Piece.text)) (ch :: rest)

section

variable {c c' next : Config} {line : Nat} {ch : Char} {cs : List Char} {us : List Token}
  {t : Token}

theorem ComesTo.here (hp : (Piece.read ch cs).1.Lawful)
    (ht : (Piece.read ch cs).1.token? (line + (Piece.read ch cs).1.newlines) = some t) :
    ComesTo c line (ch :: cs) [] t c :=
  ⟨[], ch, cs, ⟨rfl, rfl, hp, ht⟩, rfl⟩

/-- A run that passes the first piece of a text comes to what it comes to behind that piece. -/
theorem ComesTo.behind (hfirst : runFrom c line (ch :: cs)
      = runFrom next (line + (Piece.read ch cs).1.newlines) (Piece.read ch cs).2)
    (h : ComesTo next (line + (Piece.read ch cs).1.newlines) (Piece.read ch cs).2 us t c') :
    ComesTo c line (ch :: cs)
      (((Piece.read ch cs).1.token? (line + (Piece.read ch cs).1.newlines)).toList ++ us) t c' := by
  obtain ⟨ps, ch', rest, hpiece, hgo⟩ := h
  have hlines : line + (Piece.read ch cs).1.newlines + Text.newlines (ps.flatMap Piece.text)
      = line + Text.newlines (((Piece.read ch cs).1 :: ps).flatMap Piece.text) := by
    rw [List.flatMap_cons, newlines_append, Nat.add_assoc]
    rfl
  refine ⟨(Piece.read ch cs).1 :: ps, ch', rest, ⟨?_, ?_, hpiece.lawful, ?_⟩, ?_⟩
  · rw [Piece.cut_cons, hpiece.cut]
    rfl
  · rw [Piece.tokensFrom_cons, hpiece.before]
  · rw [← hlines]
    exact hpiece.token
  · rw [hfirst, hgo, hlines]

theorem token?_of_lexeme? {p : Piece} {kind : Kind} {lexeme : List Char}
    (h : p.lexeme? = some (kind, lexeme)) (n : Nat) :
    p.token? n = some ⟨kind, String.ofList lexeme, n⟩ := by
  rw [Piece.token?, h]
  rfl

theorem ComesTo.behind_separator (htrivia : isTrivia (Piece.read ch cs).1 = true)
    (hl : (Piece.read ch cs).1.lexeme? = none)
    (h : ComesTo c (line + (Piece.read ch cs).1.newlines) (Piece.read ch cs).2 us t c') :
    ComesTo c line (ch :: cs) us t c' := by
  have hcomes := ComesTo.behind (by rw [runFrom_cons, htrivia]; rfl) h
  rw [Piece.token?, hl] at hcomes
  exact hcomes

/-- A token that the machine takes it takes on whatever line it is said to be. -/
theorem ComesTo.behind_token {kind : Kind} {lexeme : List Char} (hp : (Piece.read ch cs).1.Lawful)
    (htrivia : isTrivia (Piece.read ch cs).1 = false)
    (hl : (Piece.read ch cs).1.lexeme? = some (kind, lexeme))
    (hstep : c.step? ⟨kind, String.ofList lexeme, (line + (Piece.read ch cs).1.newlines : Nat)⟩
      = some next)
    (h : ComesTo next (line + (Piece.read ch cs).1.newlines) (Piece.read ch cs).2 us t c') :
    ComesTo c line (ch :: cs)
      (⟨kind, String.ofList lexeme, (line + (Piece.read ch cs).1.newlines : Nat)⟩ :: us) t c' := by
  rw [step?_endLine c hp hl line] at hstep
  have hfirst : runFrom c line (ch :: cs)
      = runFrom next (line + (Piece.read ch cs).1.newlines) (Piece.read ch cs).2 := by
    rw [runFrom_cons, htrivia, (readAs hl line _).take?_of_step hstep]
    rfl
  have hcomes := h.behind hfirst
  rw [token?_of_lexeme? hl] at hcomes
  exact hcomes

end

/-- The machine reads a text without faults as its scanned tokens, as far as it can take them. -/
theorem comesTo_of_steps (n : Nat) : ∀ {cs : List Char} {c c' : Config} {line : Nat}
    {us vs : List Token} {t : Token}, cs.length ≤ n → faultsFrom line (Piece.cut cs) = [] →
    tokensFrom line (Piece.cut cs) = us ++ t :: vs → c.steps? us = some c' →
    ComesTo c line cs us t c' := by
  induction n with
  | zero =>
      intro cs c c' line us vs t hn _ htokens _
      obtain rfl := List.length_eq_zero_iff.mp (Nat.le_zero.mp hn)
      exact absurd htokens.symm (List.append_ne_nil_of_right_ne_nil us (List.cons_ne_nil t vs))
  | succ n ih =>
      intro cs c c' line us vs t hn hf htokens hrun
      cases cs with
      | nil =>
          exact absurd htokens.symm (List.append_ne_nil_of_right_ne_nil us (List.cons_ne_nil t vs))
      | cons ch cs =>
          have hn := Nat.le_trans (Piece.read_rest_length ch cs) (Nat.le_of_succ_le_succ hn)
          rw [Piece.cut_cons, Piece.faultsFrom_cons, List.append_eq_nil_iff] at hf
          rw [Piece.cut_cons, Piece.tokensFrom_cons] at htokens
          have hp := lawful_of_fault? hf.1
          rcases lexeme?_cases hp with ⟨htrivia, hl⟩ | ⟨htrivia, kind, lexeme, hl⟩
          · rw [Piece.token?, hl] at htokens
            exact .behind_separator htrivia hl (ih hn hf.2 htokens hrun)
          · have htoken := token?_of_lexeme? hl (line + (Piece.read ch cs).1.newlines)
            rw [htoken] at htokens
            cases us with
            | nil =>
                cases hrun
                injection htokens with ht _
                exact .here hp (htoken.trans (congrArg some ht))
            | cons u us =>
                injection htokens with hu htokens
                subst hu
                obtain ⟨next, hstep, hus⟩ := Option.bind_eq_some_iff.mp hrun
                exact .behind_token hp htrivia hl hstep (ih hn hf.2 htokens hus)

/-! ## A piece that the machine cannot take -/

section

variable {c : Config} {line : Nat} {ch : Char} {rest : List Char} {t : Token}

/-- A piece that is scanned as a token is no separator. -/
theorem lexeme?_of_token? {p : Piece} {n : Nat} (hp : p.Lawful) (ht : p.token? n = some t) :
    ∃ kind cs, isTrivia p = false ∧ p.lexeme? = some (kind, cs) ∧
      t = ⟨kind, String.ofList cs, n⟩ := by
  rcases lexeme?_cases hp with ⟨-, hl⟩ | ⟨htrivia, kind, cs, hl⟩
  · rw [Piece.token?, hl] at ht
    cases ht
  · rw [Piece.token?, hl] at ht
    exact ⟨kind, cs, htrivia, hl, (Option.some.inj ht).symm⟩

theorem readings_eq_nil_iff {p : Piece} {kind : Kind} {cs : List Char}
    (h : p.lexeme? = some (kind, cs)) (line : Nat) (rest : List Char) :
    readings line rest p = [] ↔ kind.isUnruled = true := by
  cases p with
  | mark m =>
      cases h
      cases m <;> simp [readings, Kind.isUnruled, Mark.withoutEqual?]
  | name cs =>
      cases h
      unfold Kind.ofNameText
      simp only [readings]
      cases Word.ofText? cs with
      | none => simp [Kind.isUnruled]
      | some w => cases hw : w.inUse <;> simp [Kind.isUnruled, hw]
  | number _ _ | string _ =>
      cases h
      simp [readings, Piece.token?, Piece.lexeme?, Kind.isUnruled]
  | blank _ | comment _ | stray _ | unclosed _ => cases h

theorem newlines_of_token? {p : Piece} {n : Nat} (hp : p.Lawful) (ht : p.token? n = some t)
    (hkind : t.kind ≠ .string) : p.newlines = 0 := by
  obtain ⟨kind, cs, -, hl, rfl⟩ := lexeme?_of_token? hp ht
  exact newlines_of_lexeme? hp hl hkind

theorem eq_mark_of_lexeme? {p : Piece} {m : Mark} {cs : List Char}
    (h : p.lexeme? = some (.mark m, cs)) : p = .mark m ∧ cs = m.text := by
  cases p with
  | mark m => cases h; exact ⟨rfl, rfl⟩
  | name cs =>
      simp only [Piece.lexeme?, Kind.ofNameText] at h
      split at h <;> cases h
  | number _ _ | string _ | blank _ | comment _ | stray _ | unclosed _ => cases h

theorem readings_of_withoutEqual? {m short : Mark} (h : m.withoutEqual? = some short) (line : Nat)
    (rest : List Char) : readings line rest (.mark m)
      = [markReading line rest m, markReading line ('=' :: rest) short] := by
  cases m <;> cases h <;> rfl

/-- A token starts on the line on which it ends, unless it is a string. -/
theorem line_of_token? {p : Piece} (hp : p.Lawful) (ht : p.token? (line + p.newlines) = some t) :
    (line : Int) = if t.kind = .string then t.line - Text.newlines t.lexeme.toList else t.line := by
  obtain ⟨kind, cs, -, hl, rfl⟩ := lexeme?_of_token? hp ht
  by_cases hk : kind = .string
  · have hp : p = .string cs := by
      subst hk
      cases p with
      | string cs => cases hl; rfl
      | name cs =>
          simp only [Piece.lexeme?, Kind.ofNameText] at hl
          split at hl <;> cases hl
      | mark _ | number _ _ | blank _ | comment _ | stray _ | unclosed _ => cases hl
    have hlines : (Piece.string cs).newlines = Text.newlines cs := by
      simp [Piece.newlines, Piece.text, Text.newlines]
    rw [if_pos hk, hp, hlines, String.toList_ofList]
    show (line : Int) = ((line + Text.newlines cs : Nat) : Int) - Text.newlines cs
    omega
  · rw [if_neg hk, newlines_of_lexeme? hp hl hk]
    rfl

section

variable (hp : (Piece.read ch rest).1.Lawful)
  (ht : (Piece.read ch rest).1.token? (line + (Piece.read ch rest).1.newlines) = some t)

include hp ht

/-- A token of no rule is shown by its first character. -/
theorem runFrom_unruled (hkind : t.kind.isUnruled = true) : runFrom c line (ch :: rest)
    = .error ⟨.unexpectedCharacter, ⟨.identifier, String.singleton ch, line⟩⟩ := by
  obtain ⟨kind, cs, htrivia, hl, rfl⟩ := lexeme?_of_token? hp ht
  rw [runFrom_cons, htrivia, (readings_eq_nil_iff hl line _).mpr hkind]
  rfl

theorem head?_of_unruled (hkind : t.kind.isUnruled = true) : t.lexeme.toList.head? = some ch := by
  obtain ⟨kind, cs, -, hl, rfl⟩ := lexeme?_of_token? hp ht
  have hcut := Piece.read_cut ch rest
  have htext := Piece.read_text_ne_nil ch rest
  generalize Piece.read ch rest = found at hl hcut htext
  have hlexeme : found.1.text = cs := by
    cases hfound : found.1 with
    | mark m =>
        rw [hfound] at hl
        cases hl
        rfl
    | name cs =>
        rw [hfound] at hl
        cases hl
        rfl
    | number _ _ | string _ =>
        rw [hfound] at hl
        cases hl
        cases hkind
    | blank _ | comment _ | stray _ | unclosed _ =>
        rw [hfound] at hl
        cases hl
  rw [hlexeme] at hcut htext
  obtain ⟨c, cs, rfl⟩ := List.exists_cons_of_ne_nil htext
  injection hcut with hc _
  rw [String.toList_ofList, hc]
  rfl

/-- A token that the machine takes neither as it is nor as anything else is shown as it is. -/
theorem runFrom_refused (hnone : c.step? t = none) (hruled : t.kind.isUnruled = false)
    (hword : t.kind.isWordInUse = false)
    (hshort : ∀ m short, t.kind = .mark m → m.withoutEqual? = some short →
      c.step? ⟨.mark short, String.ofList short.text, line⟩ = none) :
    runFrom c line (ch :: rest) = .error ⟨.unexpectedToken, { t with line := line }⟩ := by
  obtain ⟨kind, cs, htrivia, hl, rfl⟩ := lexeme?_of_token? hp ht
  rw [step?_endLine c hp hl line] at hnone
  have hreadings := (readings_eq_nil_iff hl line (Piece.read ch rest).2).not.mpr (by simp [hruled])
  have hread := readAs hl line (Piece.read ch rest).2
  have hrefused : take? c (readings line (Piece.read ch rest).2 (Piece.read ch rest).1) = none ∧
      faultAt ch line (readings line (Piece.read ch rest).2 (Piece.read ch rest).1)
        = ⟨.unexpectedToken, ⟨kind, String.ofList cs, line⟩⟩ := by
    generalize readings line (Piece.read ch rest).2 (Piece.read ch rest).1 = rs at hread hreadings
    cases hread with
    | never _ => exact absurd rfl hreadings
    | alone => exact ⟨by simp only [take?, List.findSome?_cons, List.findSome?_nil, hnone,
        Option.map_none], rfl⟩
    | name hw _ =>
        rw [Kind.isWordInUse, hw] at hword
        cases hword
    | @short m short hm _ =>
        have hsecond := hshort m short rfl hm
        exact ⟨by simp only [take?, List.findSome?_cons, List.findSome?_nil, hnone, markReading,
          hsecond, Option.map_none], rfl⟩
  rw [runFrom_cons, htrivia, hrefused.1, hrefused.2]
  rfl

/-- A mark of two characters of which the machine takes the first: what is left over starts with
an `=`, and the token that it starts is shown. -/
theorem runFrom_short {m short : Mark} {next : Config} (hnone : c.step? t = none)
    (hkind : t.kind = .mark m) (hm : m.withoutEqual? = some short)
    (hstep : c.step? ⟨.mark short, String.ofList short.text, line⟩ = some next) :
    ∃ second, (Piece.read '=' (Piece.read ch rest).2).1.token? line = some second ∧
      runFrom c line (ch :: rest) = .error ⟨.unexpectedToken, second⟩ := by
  obtain ⟨kind, cs, htrivia, hl, rfl⟩ := lexeme?_of_token? hp ht
  obtain rfl : kind = .mark m := hkind
  obtain ⟨head, stack, hphase⟩ := phase_of_short hm rfl rfl hnone hstep
  have hline : (Piece.read ch rest).1.newlines = 0 := newlines_of_lexeme? hp hl nofun
  rw [step?_endLine c hp hl line] at hnone
  obtain ⟨hp, rfl⟩ := eq_mark_of_lexeme? hl
  have htake : take? c (readings line (Piece.read ch rest).2 (Piece.read ch rest).1)
      = some (next, markReading line ('=' :: (Piece.read ch rest).2) short) := by
    rw [hp, readings_of_withoutEqual? hm]
    simp only [take?, List.findSome?_cons, markReading, hnone, hstep, Option.map_none,
      Option.map_some]
  -- the shorter mark has to be followed by an operand, which no `=` starts
  obtain ⟨m', rest', hequal, hm'⟩ := read_equal (Piece.read ch rest).2
  refine ⟨⟨.mark m', String.ofList m'.text, line⟩, ?_, ?_⟩
  · rw [hequal]
    rfl
  · rw [runFrom_cons, htrivia, htake, hline]
    show runFrom next line ('=' :: (Piece.read ch rest).2) = _
    rw [runFrom_cons, hequal, take?_equal_eq_none hphase hm']
    rcases hm' with rfl | rfl <;> rfl

end

end

end Automaton

end RoxLang
