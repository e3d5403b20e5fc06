/-
# `RoxLang.Proofs.Automaton.Text` — runs over a text against runs over its tokens

The machine reads characters and asks at each piece which of its readings it can take; the scanner
decides what a piece is without asking.  The first reading of a piece is always the scanned token,
so the machine goes the scanner's way wherever it can.  It can go another way at two places:

* A word of the language may be taken as a name.  Then the run has taken a name token that no scan
  gives.
* A mark may be taken without its `=`.  This happens only where an operand has to come afterwards,
  and the `=` that is left over starts no operand, so the run is lost.

A scanned token carries the line of its end, a reading that of its start.  The two differ for
strings alone, and the machine keeps no line of a string.
-/
import RoxLang.Proofs.Automaton.Stack
import RoxLang.Proofs.Lexeme.Scan
import RoxLang.Automaton.Program

namespace RoxLang.Automaton

open Config (steps? steps?_cons)

/-! ## Lines -/

theorem newlines_of_lexeme? {p : Piece} (hp : p.Lawful) {kind : Kind} {cs : List Char}
    (h : p.lexeme? = some (kind, cs)) (hk : kind ≠ .string) : p.newlines = 0 := by
  refine List.count_eq_zero.mpr fun hn => ?_
  cases hp with
  | blank _ | comment _ => cases h
  | string _ => cases h; exact hk rfl
  | mark m => cases m <;> simp [Piece.text, Mark.text] at hn
  | number _ hw hf =>
      have hdigit : '\n'.isDigit = false := by decide
      simp only [Piece.text] at hn
      split at hn
      · simpa [hdigit] using hw _ hn
      · rcases List.mem_append.mp hn with hn | hn
        · simpa [hdigit] using hw _ hn
        · rcases List.mem_cons.mp hn with hn | hn
          · exact absurd hn (by decide)
          · simpa [hdigit] using hf _ hn
  | name hstart hchars =>
      rcases List.mem_cons.mp hn with hn | hn
      · rw [← hn] at hstart
        exact absurd hstart (by decide)
      · exact absurd (hchars _ hn) (by decide)

theorem step?_string (c : Config) (lexeme : String) (line line' : Int) :
    c.step? ⟨.string, lexeme, line⟩ = c.step? ⟨.string, lexeme, line'⟩ := by
  unfold Config.step?
  cases c.phase <;> rfl

/-- The machine does not see on which line of a string it is told to be. -/
theorem step?_endLine (c : Config) {p : Piece} (hp : p.Lawful) {kind : Kind} {cs : List Char}
    (h : p.lexeme? = some (kind, cs)) (line : Nat) :
    c.step? ⟨kind, String.ofList cs, (line + p.newlines : Nat)⟩
      = c.step? ⟨kind, String.ofList cs, line⟩ := by
  by_cases hk : kind = .string
  · rw [hk]
    exact step?_string c _ _ _
  · rw [newlines_of_lexeme? hp h hk]
    rfl

/-! ## What a piece may be read as -/

/-- The readings of a piece that the scanner takes as a token of the given kind and lexeme. -/
inductive ReadAs (line : Nat) (rest : List Char) (cs : List Char) : Kind → List Reading → Prop where
  | never {kind : Kind} : (∀ (c : Config) (t : Token), t.kind = kind → c.step? t = none) →
      ReadAs line rest cs kind []
  | alone {kind : Kind} : ReadAs line rest cs kind [⟨⟨kind, String.ofList cs, line⟩, rest⟩]
  | name {w : Word} : w.inUse = true → cs = w.text →
      ReadAs line rest cs (.word w) [⟨⟨.word w, String.ofList cs, line⟩, rest⟩,
        ⟨⟨.identifier, String.ofList cs, line⟩, rest⟩]
  | short {m short : Mark} : m.withoutEqual? = some short → cs = m.text →
      ReadAs line rest cs (.mark m) [⟨⟨.mark m, String.ofList cs, line⟩, rest⟩,
        markReading line ('=' :: rest) short]

theorem step?_separator (c : Config) {t : Token} {m : Mark} (h : t.kind = .mark m)
    (hm : m = .comma ∨ m = .dot) : c.step? t = none := by
  rcases hm with rfl | rfl <;>
  · cases hc : c.phase <;>
      simp [Config.step?, Config.startStep?, Config.operandStep?, Config.operatorStep?, Tree.atom?,
        Kind.isUnary, Kind.tier?, Mark.tier?, hc, h]

theorem step?_unused (c : Config) {t : Token} {w : Word} (h : t.kind = .word w)
    (hw : w.inUse = false) : c.step? t = none := by
  cases w <;> cases hc : c.phase <;>
    simp [Word.inUse, Config.step?, Config.startStep?, Config.operandStep?, Config.operatorStep?,
      Tree.atom?, Kind.isUnary, Kind.tier?, hc, h] at hw ⊢

theorem readAs {p : Piece} {kind : Kind} {cs : List Char} (h : p.lexeme? = some (kind, cs))
    (line : Nat) (rest : List Char) : ReadAs line rest cs kind (readings line rest p) := by
  cases p with
  | mark m =>
      cases h
      cases m with
      | comma => exact .never fun c t ht => step?_separator c ht (.inl rfl)
      | dot => exact .never fun c t ht => step?_separator c ht (.inr rfl)
      | bangEqual | equalEqual | greaterEqual | lessEqual => exact .short rfl rfl
      | _ => exact .alone
  | name cs =>
      cases h
      unfold Kind.ofNameText
      simp only [readings]
      cases hw : Word.ofText? cs with
      | none => exact .alone
      | some w =>
          cases hu : w.inUse with
          | true =>
              simp only [hu, if_true]
              exact .name hu (Word.text_of_ofText? hw).symm
          | false =>
              simp only [hu, Bool.false_eq_true, if_false]
              exact .never fun c t ht => step?_unused c ht hu
  | number _ _ | string _ => cases h; exact .alone
  | blank _ | comment _ | stray _ | unclosed _ => cases h

/-! ## Which reading is taken -/

/-- The machine takes the scanned token wherever it can. -/
theorem ReadAs.take?_of_step {line : Nat} {rest cs : List Char} {kind : Kind} {rs : List Reading}
    (h : ReadAs line rest cs kind rs) {c c' : Config}
    (hstep : c.step? ⟨kind, String.ofList cs, line⟩ = some c') :
    take? c rs = some (c', ⟨⟨kind, String.ofList cs, line⟩, rest⟩) := by
  cases h with
  | never hnone =>
      rw [hnone c _ rfl] at hstep
      cases hstep
  | alone | name _ _ | short _ _ => simp only [take?, List.findSome?_cons, hstep, Option.map_some]

theorem length_of_withoutEqual? {m short : Mark} (h : m.withoutEqual? = some short) :
    m.text.length = 2 := by cases m <;> first | rfl | cases h

/-- A mark that can be taken only without its `=` leads to where an operand has to come. -/
theorem phase_of_short {m short : Mark} (hm : m.withoutEqual? = some short) {c c' : Config}
    {long t : Token} (hl : long.kind = .mark m) (ht : t.kind = .mark short)
    (hnone : c.step? long = none) (hsome : c.step? t = some c') :
    ∃ head stack, c'.phase = .operand head stack := by
  cases m <;> cases hm <;> cases hc : c.phase <;>
    simp [Config.step?, Config.startStep?, Config.operandStep?, Config.operatorStep?, Tree.atom?,
      Kind.isUnary, Kind.tier?, Mark.tier?, Config.inPhase, hc, hl, ht] at hnone hsome <;>
    exact ⟨_, _, by rw [← hsome]⟩

theorem take?_cons {c c' : Config} {first r : Reading} {rs : List Reading}
    (h : take? c (first :: rs) = some (c', r)) :
    (c.step? first.token = some c' ∧ r = first) ∨
      (c.step? first.token = none ∧ take? c rs = some (c', r)) := by
  simp only [take?, List.findSome?_cons] at h
  cases hstep : c.step? first.token with
  | none =>
      rw [hstep] at h
      exact .inr ⟨rfl, h⟩
  | some next =>
      rw [hstep] at h
      cases h
      exact .inl ⟨rfl, rfl⟩

/-- The machine takes the scanned token, or a word as a name, or a mark without its `=`. -/
theorem ReadAs.take?_cases {line : Nat} {rest cs : List Char} {kind : Kind} {rs : List Reading}
    (h : ReadAs line rest cs kind rs) {c c' : Config} {r : Reading}
    (ht : take? c rs = some (c', r)) :
    (c.step? ⟨kind, String.ofList cs, line⟩ = some c' ∧ r.rest = rest) ∨
      (∃ w : Word, w.inUse = true ∧ c.step? ⟨.identifier, String.ofList w.text, line⟩ = some c' ∧
        r.rest = rest) ∨
      (r.rest = '=' :: rest ∧ cs.length = 2 ∧ ∃ head stack, c'.phase = .operand head stack) := by
  cases h with
  | never _ => cases ht
  | alone =>
      obtain ⟨hstep, rfl⟩ | ⟨-, ht⟩ := take?_cons ht
      · exact .inl ⟨hstep, rfl⟩
      · cases ht
  | @name w hw hcs =>
      obtain ⟨hstep, rfl⟩ | ⟨-, ht⟩ := take?_cons ht
      · exact .inl ⟨hstep, rfl⟩
      obtain ⟨hname, rfl⟩ | ⟨-, ht⟩ := take?_cons ht
      · exact .inr (.inl ⟨w, hw, hcs ▸ hname, rfl⟩)
      · cases ht
  | @short m short hm hcs =>
      obtain ⟨hstep, rfl⟩ | ⟨hnone, ht⟩ := take?_cons ht
      · exact .inl ⟨hstep, rfl⟩
      obtain ⟨hshort, rfl⟩ | ⟨-, ht⟩ := take?_cons ht
      · exact .inr (.inr ⟨rfl, hcs ▸ length_of_withoutEqual? hm,
          phase_of_short hm rfl rfl hnone hshort⟩)
      · cases ht

/-! ## Runs -/

/-- One piece of a run. -/
theorem runWithin_cons (n : Nat) (config : Config) (line : Nat) (c : Char) (cs : List Char) :
    runWithin (n + 1) config line (c :: cs)
      = if isTrivia (Piece.read c cs).1 then
          runWithin n config (line + (Piece.read c cs).1.newlines) (Piece.read c cs).2
        else match take? config (readings line (Piece.read c cs).2 (Piece.read c cs).1) with
          | some (config', r) => runWithin n config' (line + (Piece.read c cs).1.newlines) r.rest
          | none =>
              .error (faultAt c line (readings line (Piece.read c cs).2 (Piece.read c cs).1)) := rfl

theorem runWithin_nil (n : Nat) (config : Config) (line : Nat) :
    runWithin n config line [] = .ok config := by cases n <;> rfl

theorem lawful_of_fault? {c : Char} {cs : List Char} {line : Nat}
    (h : ((Piece.read c cs).1.fault? line).toList = []) : (Piece.read c cs).1.Lawful := by
  rcases Piece.read_cases c cs with hl | ⟨-, hr⟩ | ⟨-, hr⟩
  · exact hl
  · rw [hr] at h; cases h
  · rw [hr] at h; cases h

/-- A lawful piece separates or is a token. -/
theorem lexeme?_cases {p : Piece} (hp : p.Lawful) :
    isTrivia p = true ∧ p.lexeme? = none ∨
      isTrivia p = false ∧ ∃ kind cs, p.lexeme? = some (kind, cs) := by
  cases hp with
  | blank _ | comment _ => exact .inl ⟨rfl, rfl⟩
  | mark _ | number _ _ _ | name _ _ | string _ => exact .inr ⟨rfl, _, _, rfl⟩

/-- If the machine can take the scanned tokens, it reads the text as these. -/
theorem runWithin_of_steps (n : Nat) : ∀ {cs : List Char} {c c' : Config} {line : Nat},
    cs.length ≤ n → faultsFrom line (Piece.cut cs) = [] →
    c.steps? (tokensFrom line (Piece.cut cs)) = some c' → runWithin n c line cs = .ok c' := by
  induction n with
  | zero =>
      intro cs c c' line hn _ h
      obtain rfl := List.length_eq_zero_iff.mp (Nat.le_zero.mp hn)
      cases h
      exact runWithin_nil 0 c line
  | succ n ih =>
      intro cs c c' line hn hf h
      cases cs with
      | nil =>
          cases h
          exact runWithin_nil _ c line
      | cons ch cs =>
          have hn := Nat.le_trans (Piece.read_rest_length ch cs) (Nat.le_of_succ_le_succ hn)
          rw [Piece.cut_cons, Piece.faultsFrom_cons, List.append_eq_nil_iff] at hf
          rw [Piece.cut_cons, Piece.tokensFrom_cons] at h
          rw [runWithin_cons]
          have hp := lawful_of_fault? hf.1
          rcases lexeme?_cases hp with ⟨ht, hl⟩ | ⟨ht, kind, lexeme, hl⟩
          · rw [Piece.token?, hl] at h
            rw [ht]
            exact ih hn hf.2 h
          · rw [Piece.token?, hl] at h
            obtain ⟨next, hstep, hrest⟩ := Option.bind_eq_some_iff.mp h
            have hstep : c.step? ⟨kind, String.ofList lexeme, line⟩ = some next :=
              (step?_endLine c hp hl line).symm.trans hstep
            rw [ht, (readAs hl line _).take?_of_step hstep]
            exact ih hn hf.2 hrest

theorem step?_equal_operand {c : Config} {head : Head} {stack : List Frame}
    (hc : c.phase = .operand head stack) {t : Token} {m : Mark} (ht : t.kind = .mark m)
    (hm : m = .equal ∨ m = .equalEqual) : c.step? t = none := by
  rcases hm with rfl | rfl <;>
    simp [Config.step?, Config.operandStep?, Tree.atom?, Kind.isUnary, hc, ht]

theorem read_equal (cs : List Char) : ∃ m rest, Piece.read '=' cs = (.mark m, rest) ∧
    (m = .equal ∨ m = .equalEqual) := by
  rw [Piece.read_mark (@Piece.ofChar?_of_text .equal '=' rfl) (by simp)]
  unfold Piece.readMark
  split
  · next hlong =>
      cases hlong
      exact ⟨_, _, rfl, .inr rfl⟩
  · exact ⟨_, _, rfl, .inl rfl⟩

theorem take?_equal_eq_none {c : Config} {head : Head} {stack : List Frame}
    (hc : c.phase = .operand head stack) {m : Mark} (hm : m = .equal ∨ m = .equalEqual)
    (line : Nat) (rest : List Char) : take? c (readings line rest (.mark m)) = none := by
  have hequal (rest : List Char) : c.step? (markReading line rest .equal).token = none :=
    step?_equal_operand hc rfl (.inl rfl)
  have hlong : c.step? (markReading line rest .equalEqual).token = none :=
    step?_equal_operand hc rfl (.inr rfl)
  rcases hm with rfl | rfl <;>
    simp only [take?, readings, Mark.withoutEqual?, List.findSome?_cons, List.findSome?_nil,
      hlong, hequal, Option.map_none]

/-- Where an operand has to come, an `=` ends the reading of the text. -/
theorem runWithin_equal {n : Nat} {c : Config} {head : Head} {stack : List Frame}
    (hc : c.phase = .operand head stack) (line : Nat) (cs : List Char) (c' : Config) :
    runWithin (n + 1) c line ('=' :: cs) ≠ .ok c' := by
  obtain ⟨m, rest, hread, hm⟩ := read_equal cs
  rw [runWithin_cons, hread, take?_equal_eq_none hc hm]
  exact nofun

/-- A word of the language among the names of some tokens. -/
def WordNamed (ts : List Token) : Prop :=
  ∃ t ∈ ts, t.kind = .identifier ∧ ∃ w : Word, w.inUse = true ∧ t.lexeme = String.ofList w.text

theorem WordNamed.cons {ts : List Token} (h : WordNamed ts) (t : Token) : WordNamed (t :: ts) := by
  obtain ⟨u, hu, hnamed⟩ := h
  exact ⟨u, List.mem_cons_of_mem t hu, hnamed⟩

theorem steps?_of_step {c next c' : Config} {t : Token} {ts : List Token}
    (h : c.step? t = some next) (hrun : next.steps? ts = some c') :
    c.steps? (t :: ts) = some c' := by
  rw [steps?_cons, h]
  exact hrun

theorem length_of_lexeme? {p : Piece} {kind : Kind} {cs : List Char}
    (h : p.lexeme? = some (kind, cs)) : cs.length ≤ p.text.length := by
  cases p with
  | mark _ | number _ _ | name _ => cases h; exact Nat.le_refl _
  | string cs => cases h; simp only [Piece.text, List.length_cons, List.length_append]; omega
  | blank _ | comment _ | stray _ | unclosed _ => cases h

/-- What one piece of a run that does not fail is: a separator, the scanned token, or a word taken
as a name. -/
inductive Taken (c : Config) (line : Nat) (p : Piece) : Config → Prop where
  | nothing : p.lexeme? = none → Taken c line p c
  | scanned {kind : Kind} {cs : List Char} {next : Config} : p.lexeme? = some (kind, cs) →
      c.step? ⟨kind, String.ofList cs, line⟩ = some next → Taken c line p next
  | name {w : Word} {next : Config} : w.inUse = true →
      c.step? ⟨.identifier, String.ofList w.text, line⟩ = some next → Taken c line p next

theorem taken_of_runWithin {n : Nat} {c c' : Config} {line : Nat} {ch : Char} {cs : List Char}
    (hn : (ch :: cs).length ≤ n + 1) (h : runWithin (n + 1) c line (ch :: cs) = .ok c') :
    (Piece.read ch cs).1.Lawful ∧ ∃ next, Taken c line (Piece.read ch cs).1 next ∧
      runWithin n next (line + (Piece.read ch cs).1.newlines) (Piece.read ch cs).2 = .ok c' := by
  rw [runWithin_cons] at h
  rcases Piece.read_cases ch cs with hp | ⟨-, hr⟩ | ⟨-, hr⟩
  · refine ⟨hp, ?_⟩
    rcases lexeme?_cases hp with ⟨ht, hl⟩ | ⟨ht, kind, lexeme, hl⟩
    · rw [ht] at h
      exact ⟨c, .nothing hl, h⟩
    · rw [ht] at h
      simp only [Bool.false_eq_true, if_false] at h
      cases htake : take? c (readings line (Piece.read ch cs).2 (Piece.read ch cs).1) with
      | none => rw [htake] at h; cases h
      | some taken =>
          obtain ⟨next, r⟩ := taken
          rw [htake] at h
          rcases (readAs hl line _).take?_cases htake with
            ⟨hstep, hrest⟩ | ⟨w, hw, hstep, hrest⟩ | ⟨hrest, htwo, _, _, hphase⟩
          · exact ⟨next, .scanned hl hstep, hrest ▸ h⟩
          · exact ⟨next, .name hw hstep, hrest ▸ h⟩
          · -- what is left over stands behind a mark of two characters, so the run is not over
            obtain ⟨n, rfl⟩ : ∃ k, n = k + 1 := by
              have hcut := congrArg List.length (Piece.read_cut ch cs)
              have := length_of_lexeme? hl
              simp only [List.length_append, List.length_cons] at hcut hn
              exact ⟨n - 1, by omega⟩
            have h : runWithin (n + 1) next _ r.rest = .ok c' := h
            rw [hrest] at h
            exact absurd h (runWithin_equal hphase _ _ _)
  · rw [hr] at h
    cases h
  · rw [hr] at h
    cases h

/-- A run over a text is a run over its scanned tokens, or over tokens one of which is a word taken
as a name. -/
theorem steps_of_runWithin (n : Nat) : ∀ {cs : List Char} {c c' : Config} {line : Nat},
    cs.length ≤ n → runWithin n c line cs = .ok c' →
    (∃ ts, c.steps? ts = some c' ∧ WordNamed ts) ∨
      (faultsFrom line (Piece.cut cs) = [] ∧
        c.steps? (tokensFrom line (Piece.cut cs)) = some c') := by
  induction n with
  | zero =>
      intro cs c c' line hn h
      obtain rfl := List.length_eq_zero_iff.mp (Nat.le_zero.mp hn)
      cases h
      exact .inr ⟨rfl, rfl⟩
  | succ n ih =>
      intro cs c c' line hn h
      cases cs with
      | nil =>
          cases h
          exact .inr ⟨rfl, rfl⟩
      | cons ch cs =>
          obtain ⟨hp, next, htaken, hrun⟩ := taken_of_runWithin hn h
          have hlength := Piece.read_rest_length ch cs
          have hrest := ih (Nat.le_trans hlength (Nat.le_of_succ_le_succ hn)) hrun
          rw [Piece.cut_cons, Piece.faultsFrom_cons, Piece.tokensFrom_cons, hp.fault?_eq_none]
          cases htaken with
          | nothing hl =>
              rw [Piece.token?, hl]
              exact hrest
          | scanned hl hstep =>
              rcases hrest with ⟨ts, hts, hnamed⟩ | ⟨hfaults, htokens⟩
              · exact .inl ⟨_, steps?_of_step hstep hts, hnamed.cons _⟩
              · rw [Piece.token?, hl]
                rw [← step?_endLine c hp hl line] at hstep
                exact .inr ⟨hfaults, steps?_of_step hstep htokens⟩
          | @name w _ hw hstep =>
              left
              rcases hrest with ⟨ts, hts, hnamed⟩ | ⟨-, htokens⟩
              · exact ⟨_, steps?_of_step hstep hts, hnamed.cons _⟩
              · exact ⟨_, steps?_of_step hstep htokens, _, List.mem_cons_self, rfl, w, hw, rfl⟩

end RoxLang.Automaton
