/-
# `RoxLang.Proofs.Blame` — both readers of programs blame the same place

The descent reads on after a fault, the machine does not, so what can be compared is the first fault
of the one with the only fault of the other.  They are at the same token, and a string is the only
token that is shown differently there, because one counts its lines from the opening quote.  The
exceptions come from three differences between the readers.

* The descent looks at the target of an assignment last, the machine when it meets the `=`.  So the
  machine blames the first `=` that follows something else than a name, wherever the descent fails
  behind it.
* The scanner has tokens of which the grammar knows nothing.  To the machine they are characters.
* The scanner takes the longest mark, the machine a shorter one where only that fits.  It is then
  stopped by what is left of the longer one.

A word of the language is a fourth difference, since the machine may take it as a name.  Where the
descent blames such a word nothing is said.
-/
import RoxLang.Proofs.Automaton.Refusal
import RoxLang.Proofs.Halting
import RoxLang.Proofs.Reading
import RoxLang.Session
import Mathlib.Data.List.Induction

namespace RoxLang

open Automaton Automaton.Config
open Grammar

/-! ## What the machine shows instead of a token -/

/-- No `=` among the tokens follows a complete left side that is not a name alone. -/
def NoneMisassigned (ts : List Token) : Prop :=
  ∀ us equal vs, ts = us ++ equal :: vs → ¬ Misassigned us equal

/-- Behind these tokens, the first character of a mark of the kind is a mark that may come next. -/
def TakenApart (before : List Token) (kind : Kind) : Prop :=
  kind = .mark .equalEqual ∧ BehindName before ∨ kind = .mark .bangEqual ∧ Awaited .primary before

/-- The token on the line on which it starts, which is another one for a string of several lines. -/
def Token.atStart (t : Token) : Token :=
  if t.kind = .string then { t with line := t.line - Text.newlines t.lexeme.toList } else t

/-- The fault of the machine on a text of these pieces, where the descent blames the token `t` first
and the tokens before `t` are given. -/
inductive Counterpart (pieces : List Piece) (before : List Token) (t : Token) : ParseFault → Prop
  /-- The first `=` that does not follow a name. -/
  | target {us vs : List Token} {equal : Token} :
      before = us ++ equal :: vs → Misassigned us equal → NoneMisassigned us →
      Counterpart pieces before t ⟨.unexpectedToken, equal⟩
  /-- The first character of a token of which the grammar knows nothing. -/
  | character {c : Char} {cs : List Char} :
      NoneMisassigned before → t.kind.isUnruled = true → t.lexeme.toList = c :: cs →
      Counterpart pieces before t
        ⟨.unexpectedCharacter, ⟨.identifier, String.singleton c, t.line⟩⟩
  /-- The token that starts with the second character of a mark. -/
  | second {ps qs : List Piece} {p : Piece} {line : Nat} {second : Token} :
      NoneMisassigned before → TakenApart before t.kind →
      pieces = ps ++ p :: qs → tokensFrom 0 ps = before → p.token? line = some t →
      (Piece.read '=' (qs.flatMap Piece.text)).1.token? line = some second →
      Counterpart pieces before t ⟨.unexpectedToken, second⟩
  /-- The token itself. -/
  | same :
      NoneMisassigned before → t.kind.isUnruled = false → ¬ TakenApart before t.kind →
      Counterpart pieces before t ⟨.unexpectedToken, t.atStart⟩

theorem noneMisassigned_nil : NoneMisassigned [] := by
  intro us equal vs h
  exact absurd h.symm (List.append_ne_nil_of_right_ne_nil us (List.cons_ne_nil equal vs))

/-- Of several `=` that do not follow a name, one is the first. -/
theorem first_misassigned (ts : List Token) : NoneMisassigned ts ∨
    ∃ us equal vs, ts = us ++ equal :: vs ∧ Misassigned us equal ∧ NoneMisassigned us := by
  induction ts using List.reverseRecOn with
  | nil => exact .inl noneMisassigned_nil
  | append_singleton ts t ih =>
      rcases ih with hnone | ⟨us, equal, vs, rfl, hwrong, hfirst⟩
      · by_cases ht : Misassigned ts t
        · exact .inr ⟨ts, t, [], rfl, ht, hnone⟩
        · refine .inl fun us equal vs h => ?_
          rcases List.eq_nil_or_concat vs with rfl | ⟨vs, last, rfl⟩
          · obtain ⟨rfl, heq⟩ := List.append_inj' h rfl
            injection heq with heq _
            exact heq ▸ ht
          · rw [List.concat_eq_append, ← List.cons_append, ← List.append_assoc] at h
            exact hnone us equal vs (List.append_inj' h rfl).1
      · exact .inr ⟨us, equal, vs ++ [t], by simp, hwrong, hfirst⟩

/-! ## The machine where a mark is taken apart -/

section

variable {before : List Token} {c c' : Config} {t : Token}

/-- Behind the word that starts a declaration and a name, the declaration may go on with `=`. -/
theorem phase_of_behindName (h : BehindName before) (hrun : start.steps? before = some c) :
    ∃ name, c.phase = .named name := by
  obtain ⟨us, var, name, rfl, hvar, hname⟩ := h
  rw [Config.steps?_append] at hrun
  obtain ⟨c₀, -, hrun⟩ := Option.bind_eq_some_iff.mp hrun
  obtain ⟨c₁, hfirst, hrun⟩ := Option.bind_eq_some_iff.mp hrun
  have hlast : c₁.step? name = some c := (steps?_singleton c₁ name).symm.trans hrun
  have hnaming : c₁.phase = .naming := by
    cases hc : c₀.phase <;>
      simp [step?, startStep?, operandStep?, operatorStep?, Tree.atom?, Kind.isUnary, Kind.tier?,
        hc, hvar] at hfirst
    rw [← hfirst]
    rfl
  simp only [step?, hnaming, hname, if_true] at hlast
  exact ⟨name, by rw [← Option.some.inj hlast]; rfl⟩

/-- Where an operand may come, the machine takes what an operand may start with. -/
theorem step?_of_awaited (h : Awaited .primary before) (hrun : start.steps? before = some c)
    (ht : StartsOperand t) : ∃ c', c.step? t = some c' := by
  obtain ⟨c₀, head, stack, -, hgo⟩ := goesOn_of_awaited h
  have hsame := hgo t [] ht
  rw [steps?_trans hrun, steps?_singleton, steps?_singleton] at hsame
  rw [hsame]
  rcases ht with ⟨e, hatom⟩ | hsign | hparen
  · exact ⟨_, step?_atom hatom c₀ head stack⟩
  · exact ⟨_, step?_sign hsign c₀ head stack⟩
  · exact ⟨_, step?_leftParen hparen c₀ head stack⟩

/-- The marks that the machine takes apart, and where it does. -/
theorem short_cases {m short : Mark} (hm : m.withoutEqual? = some short) {long : Token}
    (hlong : long.kind = .mark m) (ht : t.kind = .mark short) (hnone : c.step? long = none)
    (hsome : c.step? t = some c') : m = .bangEqual ∧ c.phase.takesOperand = true ∨
      m = .equalEqual ∧ ∃ name, c.phase = .named name := by
  cases m <;> cases hm <;> cases hc : c.phase <;>
    simp [step?, startStep?, operandStep?, operatorStep?, Tree.atom?, Kind.isUnary, Kind.tier?,
      Mark.tier?, hc, hlong, ht, Phase.takesOperand] at hnone hsome ⊢

theorem short_of_takenApart (h : TakenApart before t.kind) (hrun : start.steps? before = some c)
    (line : Nat) : ∃ m short next, t.kind = .mark m ∧ m.withoutEqual? = some short ∧
      c.step? ⟨.mark short, String.ofList short.text, line⟩ = some next := by
  rcases h with ⟨hkind, hname⟩ | ⟨hkind, hawaited⟩
  · obtain ⟨name, hphase⟩ := phase_of_behindName hname hrun
    refine ⟨.equalEqual, .equal, c.inPhase (.operand (.define name) []), hkind, rfl, ?_⟩
    simp only [step?, hphase]
  · have hbang : StartsOperand ⟨.mark .bang, String.ofList ['!'], line⟩ := .inr (.inl .bang)
    obtain ⟨next, hstep⟩ := step?_of_awaited hawaited hrun hbang
    exact ⟨.bangEqual, .bang, next, hkind, rfl, hstep⟩

end

/-! ## The fault of a text -/

section

variable {cs : List Char} {us vs : List Token} {t : Token} {c : Config}

/-- A token that the machine takes neither as it is nor as anything else. -/
theorem run_refused (hf : faultsFrom 0 (Piece.cut cs) = [])
    (htokens : tokensFrom 0 (Piece.cut cs) = us ++ t :: vs) (hrun : start.steps? us = some c)
    (hnone : c.step? t = none) (hruled : t.kind.isUnruled = false)
    (hword : t.kind.isWordInUse = false)
    (hshort : ∀ m short line, t.kind = .mark m → m.withoutEqual? = some short →
      c.step? ⟨.mark short, String.ofList short.text, (line : Nat)⟩ = none) :
    run cs = .error ⟨.unexpectedToken, t.atStart⟩ := by
  obtain ⟨ps, ch, rest, hpiece, hgo⟩ := comesTo_of_steps _ (Nat.le_refl _) hf htokens hrun
  have hfault := runFrom_refused hpiece.lawful hpiece.token hnone hruled hword
    fun m short hkind hm => hshort m short _ hkind hm
  have hline := line_of_token? hpiece.lawful hpiece.token
  have hstart :
      { t with line := (0 + Text.newlines (ps.flatMap Piece.text) : Nat) } = t.atStart := by
    rw [hline]
    unfold Token.atStart
    split <;> rfl
  rw [hstart] at hfault
  exact hgo.trans hfault

/-- The machine stops at the first `=` that does not follow a name. -/
theorem run_misassigned (hf : faultsFrom 0 (Piece.cut cs) = [])
    (htokens : tokensFrom 0 (Piece.cut cs) = us ++ t :: vs) (h : Misassigned us t) :
    run cs = .error ⟨.unexpectedToken, t⟩ := by
  obtain ⟨c, hrun, hnone⟩ := stops_at_misassigned h
  have hkind : t.kind = .mark .equal := h.1
  have hstart : t.atStart = t := if_neg (by rw [hkind]; exact nofun)
  rw [← hstart]
  refine run_refused hf htokens hrun hnone (by rw [hkind]; rfl) (by rw [hkind]; rfl) ?_
  intro m short line hm hshort
  rw [hkind] at hm
  cases hm
  cases hshort

/-- What the machine shows where it stops in front of a token. -/
theorem run_halted (hf : faultsFrom 0 (Piece.cut cs) = [])
    (htokens : tokensFrom 0 (Piece.cut cs) = us ++ t :: vs) (hrun : start.steps? us = some c)
    (hhalted : Halted us c (some t)) (hword : t.kind.isWordInUse = false)
    (hnone : NoneMisassigned us) :
    ∃ f, run cs = .error f ∧ Counterpart (Piece.cut cs) us t f := by
  have hrefuses := hhalted.refuses t rfl
  cases hkind : t.kind.isUnruled with
  | true =>
      obtain ⟨ps, ch, rest, hpiece, hgo⟩ := comesTo_of_steps _ (Nat.le_refl _) hf htokens hrun
      have hfault := runFrom_unruled (c := c) hpiece.lawful hpiece.token hkind
      have hline := line_of_token? hpiece.lawful hpiece.token
      rw [if_neg fun hstring => by rw [hstring] at hkind; cases hkind] at hline
      obtain ⟨cs', hcs'⟩ := List.head?_eq_some_iff.mp
        (head?_of_unruled hpiece.lawful hpiece.token hkind)
      rw [hline] at hfault
      exact ⟨_, hgo.trans hfault, .character hnone hkind hcs'⟩
  | false =>
      by_cases hapart : TakenApart us t.kind
      · obtain ⟨ps, ch, rest, hpiece, hgo⟩ := comesTo_of_steps _ (Nat.le_refl _) hf htokens hrun
        obtain ⟨m, short, next, hm, hshort, hstep⟩ := short_of_takenApart hapart hrun
          (0 + Text.newlines (ps.flatMap Piece.text))
        obtain ⟨second, hsecond, hfault⟩ :=
          runFrom_short hpiece.lawful hpiece.token hrefuses hm hshort hstep
        have hzero : (Piece.read ch rest).1.newlines = 0 :=
          newlines_of_token? hpiece.lawful hpiece.token (by rw [hm]; exact nofun)
        have htoken := hpiece.token
        rw [hzero, Nat.add_zero] at htoken
        rw [← Piece.flatMap_text_cut (Piece.read ch rest).2] at hsecond
        refine ⟨_, hgo.trans hfault, .second hnone hapart ?_ hpiece.before htoken hsecond⟩
        rw [hpiece.cut, Piece.cut_cons]
      · refine ⟨_, run_refused hf htokens hrun hrefuses hkind hword ?_, .same hnone hkind hapart⟩
        -- a shorter mark that fits would have made this a place where the mark is taken apart
        intro m short line hm hshort
        cases hstep : c.step? ⟨.mark short, String.ofList short.text, line⟩ with
        | none => rfl
        | some next =>
            refine absurd ?_ hapart
            rcases short_cases hshort hm rfl hrefuses hstep with ⟨rfl, hphase⟩ | ⟨rfl, name, hphase⟩
            · exact .inr ⟨hm, hhalted.awaits hphase⟩
            · exact .inl ⟨hm, hhalted.declares name hphase⟩

end

/-! ## The first fault of the descent -/

theorem isWordInUse_of_notMem {kind : Kind}
    (h : kind ∉ [.word .var, .word .print, .word .true_, .word .false_, .word .nil]) :
    kind.isWordInUse = false := by
  cases kind with
  | word w => cases w <;> first | rfl | exact absurd (by decide) h
  | _ => rfl

/-- The fault of the machine on a text without faults of the scan, from where the descent fails
first. -/
theorem parse_of_stops {source : String} {blamed : List Token}
    (hf : faultsFrom 0 (Piece.cut source.toList) = [])
    (hstops : Stops [] (tokensFrom 0 (Piece.cut source.toList)) blamed start)
    (hword : ∀ t ∈ blamed.head?, t.kind.isWordInUse = false) :
    ∃ before f, tokensFrom 0 (Piece.cut source.toList) = before ++ blamed ∧
      Automaton.parse source = .error f ∧ Counterpart (Piece.cut source.toList) before
        (blamed.head?.getD (eofToken (Text.newlines source.toList))) f := by
  obtain ⟨before, htokens, hstop⟩ := hstops
  refine ⟨before, ?_⟩
  have hparse {f : ParseFault} (hrun : run source.toList = .error f) :
      Automaton.parse source = .error f := by
    rw [Automaton.parse, hrun]
    rfl
  -- the machine comes as far as the descent only if it has not met a wrong target before
  rcases first_misassigned before with hnone | ⟨us, equal, vs, hbefore, hwrong, hfirst⟩
  · have hhalted : ∃ c, start.steps? before = some c ∧ Halted before c blamed.head? := by
      rcases hstop with ⟨us, equal, vs, hbefore, hwrong⟩ | hhalted
      · exact absurd hwrong (hnone us equal vs hbefore)
      · exact hhalted
    obtain ⟨c, hsteps, hhalted⟩ := hhalted
    cases blamed with
    | nil =>
        rw [List.append_nil] at htokens
        have hrun : run source.toList = .ok c :=
          runWithin_of_steps _ (Nat.le_refl _) hf (htokens ▸ hsteps)
        refine ⟨_, by rw [htokens, List.append_nil], ?_, .same hnone rfl ?_⟩
        · rw [Automaton.parse, hrun]
          simp only [bind, Except.bind, hhalted.unfinished rfl]
          rfl
        · rintro (⟨hkind, -⟩ | ⟨hkind, -⟩) <;> cases hkind
    | cons t rest =>
        obtain ⟨f, hrun, hf⟩ := run_halted hf htokens hsteps hhalted (hword t rfl) hnone
        exact ⟨f, htokens, hparse hrun, hf⟩
  · have htarget : tokensFrom 0 (Piece.cut source.toList) = us ++ equal :: (vs ++ blamed) := by
      rw [htokens, hbefore, List.append_assoc]
      rfl
    exact ⟨_, htokens, hparse (run_misassigned hf htarget hwrong), .target hbefore hwrong hfirst⟩

/-- Where the descent rejects the tokens of a text, there is a first fault that it gives.  Unless
that is one of nesting, or blames a word of the language, the machine rejects the text too, and its
fault is at the token that the descent blames first, but for the exceptions that `Counterpart`
lists. -/
theorem first_blame_counterpart {source : String} {tokens : List Token} {r : Descent.Rejection}
    (hscan : scan source = .ok tokens) (hparse : Descent.parse tokens = .error r) :
    ∃ b bs, r = .faults (b :: bs) ∧ (b.reason ≠ .nestingTooDeep →
      tokens[b.index]? = some b.token ∧
        (b.token.kind ∉ [.word .var, .word .print, .word .true_, .word .false_, .word .nil] →
          ∃ f, (FrontEnd.automaton.read source).2 = .error (.parse [f]) ∧
            Counterpart (Piece.cut source.toList) (tokens.take b.index) b.token f)) := by
  obtain ⟨hf, -⟩ := scan_ok_iff.mp hscan
  obtain ⟨rfl, f, fs, hfailures, rfl⟩ := failures_of_rejected_scan hscan hparse
  refine ⟨_, _, rfl, fun hdeep => ?_⟩
  have hstops := attemptBody_stops hfailures hdeep
  have ⟨before, htokens, _⟩ := hstops
  obtain ⟨htoken, htake⟩ := Descent.index_of_blame htokens (eofToken (Text.newlines source.toList))
  refine ⟨htoken, fun hword => ?_⟩
  have hblamed : ∀ t ∈ f.blamed.head?, t.kind.isWordInUse = false := by
    intro t ht
    simp only [Descent.Failure.blame, Option.mem_def.mp ht, Option.getD_some] at hword
    exact isWordInUse_of_notMem hword
  obtain ⟨before', g, htokens', hg, hcounterpart⟩ := parse_of_stops hf hstops hblamed
  obtain rfl : before = before' := List.append_cancel_right (htokens.symm.trans htokens')
  refine ⟨g, congrArg (Except.mapError _) hg, ?_⟩
  rw [htake]
  exact hcounterpart

/-- An operand is missing behind the `=` of a sum.  The descent blames the semicolon, the machine
the `=`. -/
theorem first_blame_counterpart_sum :
    let equal : Token := ⟨.mark .equal, "=", 1⟩
    let semicolon : Token := ⟨.mark .semicolon, ";", 1⟩
    ∃ tokens, scan "\na + 1 = b * ;" = .ok tokens ∧
      Descent.parse tokens = .error (.faults [⟨.noExpression, semicolon, 6⟩]) ∧
      (FrontEnd.automaton.read "\na + 1 = b * ;").2
        = .error (.parse [⟨.unexpectedToken, equal⟩]) ∧
      Counterpart (Piece.cut "\na + 1 = b * ;".toList) (tokens.take 6) semicolon
        ⟨.unexpectedToken, equal⟩ := by
  intro equal semicolon
  let tokens : List Token := [⟨.identifier, "a", 1⟩, ⟨.mark .plus, "+", 1⟩, ⟨.number, "1", 1⟩,
    equal, ⟨.identifier, "b", 1⟩, ⟨.mark .star, "*", 1⟩, semicolon, eofToken 1]
  have hscan : scan "\na + 1 = b * ;" = .ok tokens := rfl
  have hparse : Descent.parse tokens = .error (.faults [⟨.noExpression, semicolon, 6⟩]) := rfl
  have hread : (FrontEnd.automaton.read "\na + 1 = b * ;").2
      = .error (.parse [⟨.unexpectedToken, equal⟩]) := rfl
  obtain ⟨b, bs, hfaults, hcounterpart⟩ := first_blame_counterpart hscan hparse
  cases hfaults
  obtain ⟨-, hmachine⟩ := hcounterpart nofun
  obtain ⟨f, hf, hcounterpart⟩ := hmachine (by decide)
  rw [hread] at hf
  cases hf
  exact ⟨tokens, hscan, hparse, hread, hcounterpart⟩

end RoxLang
