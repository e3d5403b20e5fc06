/-
# `RoxLang.Proofs.Halting` — the machine stops where the descent fails

The descent and the machine go through the same tokens in the same order.  Where a rule of the
descent fails for the first time, the machine has taken all tokens before the one that is blamed,
and it can neither take that one nor end there.  There is one exception.  The descent reads the
value of an assignment before it looks at the target, so it may pass an `=` that follows something
else than a name, and fail behind it.  The machine stops at that `=`.

The proof goes by the rules, like the one that a successful reading is a derivation.  A rule that
fails has read some of its parts, which the machine takes because they are derived, and then a part
has failed behind them, or a token has been met that no part starts with.  `Stops` says what is
wanted of a rule, from any state whose stack fits the rule, and `Stops.after` moves it behind the
parts that have been read.
-/
import RoxLang.Proofs.Automaton.Context
import RoxLang.Proofs.Descent.Onward

namespace RoxLang

open Automaton Automaton.Config
open Descent hiding Taken
open Grammar

/-! ## Where the machine stops -/

/-- Whether an operand may come next. -/
def Automaton.Phase.takesOperand : Phase → Bool
  | .between | .operand _ _ => true
  | _ => false

/-- The machine, having taken `ts`, can neither take the next token nor end where there is none. -/
structure Halted (ts : List Token) (c : Config) (next : Option Token) : Prop where
  refuses : ∀ t ∈ next, c.step? t = none
  unfinished : next = none → c.finish? = none
  awaits : c.phase.takesOperand = true → Awaited .primary ts
  declares (name : Token) : c.phase = .named name → BehindName ts

/-- Starting behind `before`, the machine stops in front of the blamed place, unless an `=` before
that follows something else than a name. -/
def Stops (before ts blamed : List Token) (c : Config) : Prop :=
  ∃ us, ts = us ++ blamed ∧
    ((∃ vs equal ws, us = vs ++ equal :: ws ∧ Misassigned (before ++ vs) equal) ∨
      ∃ c', c.steps? us = some c' ∧ Halted (before ++ us) c' blamed.head?)

section

variable {before ts us blamed : List Token} {c c' : Config}

theorem Stops.here (h : Halted before c ts.head?) : Stops before ts ts c :=
  ⟨[], rfl, .inr ⟨c, rfl, (List.append_nil before).symm ▸ h⟩⟩

/-- The machine stops behind tokens that it takes. -/
theorem Stops.after (hrun : c.steps? us = some c') (h : Stops (before ++ us) ts blamed c') :
    Stops before (us ++ ts) blamed c := by
  obtain ⟨vs, rfl, hstop⟩ := h
  refine ⟨us ++ vs, (List.append_assoc us vs blamed).symm, ?_⟩
  rcases hstop with ⟨xs, equal, ys, rfl, hwrong⟩ | ⟨c'', hrun', hhalted⟩
  · refine .inl ⟨us ++ xs, equal, ys, (List.append_assoc us xs (equal :: ys)).symm, ?_⟩
    rw [← List.append_assoc]
    exact hwrong
  · refine .inr ⟨c'', (steps?_trans hrun vs).trans hrun', ?_⟩
    rw [← List.append_assoc]
    exact hhalted

theorem Stops.after_one {t : Token} (hstep : c.step? t = some c')
    (h : Stops (before ++ [t]) ts blamed c') : Stops before (t :: ts) blamed c :=
  .after ((steps?_singleton c t).trans hstep) h

theorem Stops.misassigned {equal : Token} (h : Misassigned (before ++ us) equal)
    (hblamed : blamed <:+ ts) (c : Config) : Stops before (us ++ equal :: ts) blamed c := by
  obtain ⟨vs, rfl⟩ := hblamed
  exact ⟨us ++ equal :: vs, by simp, .inl ⟨us, equal, vs, rfl, h⟩⟩

/-- Stopping depends on how the machine goes on with the next token only. -/
theorem Stops.of_step? (h : Stops before ts blamed c) (hc : c.phase.takesOperand = true)
    (hc' : c'.phase.takesOperand = true) (hstep : ∀ t ∈ ts.head?, c'.step? t = c.step? t)
    (hts : ts ≠ []) : Stops before ts blamed c' := by
  obtain ⟨us, rfl, hstop⟩ := h
  refine ⟨us, rfl, hstop.imp_right fun ⟨next, hrun, hhalted⟩ => ?_⟩
  cases us with
  | nil =>
      cases hrun
      refine ⟨c', rfl, ⟨fun t ht => (hstep t ht).trans (hhalted.refuses t ht), ?_, ?_, ?_⟩⟩
      · intro hnone
        exact absurd (List.head?_eq_none_iff.mp hnone) hts
      · exact fun _ => hhalted.awaits hc
      · intro name hname
        rw [hname] at hc'
        cases hc'
  | cons t us =>
      refine ⟨next, ?_, hhalted⟩
      rw [steps?_cons, hstep t rfl, ← steps?_cons]
      exact hrun

/-! ## One token that is wrong -/

/-- Where an operand has to come and none does. -/
theorem halted_operand (hbefore : Awaited .primary before)
    {next : Option Token} (h : ∀ t ∈ next, ¬ StartsOperand t) (c : Config) (head : Head)
    (stack : List Frame) : Halted before (c.inPhase (.operand head stack)) next where
  refuses := fun t ht => step?_operand_eq_none (h t ht) c head stack
  unfinished := fun _ => rfl
  awaits := fun _ => hbefore
  declares := nofun

/-- Behind an operand, at a token that does not belong there. -/
theorem halted_operator {head : Head} {stack : List Frame} {e : Tree} {next : Option Token}
    (h : ∀ t ∈ next, (c.inPhase (.operator head stack e)).step? t = none) :
    Halted before (c.inPhase (.operator head stack e)) next where
  refuses := h
  unfinished := fun _ => rfl
  awaits := nofun
  declares := nofun

theorem joint?_eq_none_of_ends {t : Token} (h : Ends .assignment (t :: ts)) :
    joint? t.kind = none := by
  cases hrank : joint? t.kind with
  | none => rfl
  | some rank => exact absurd (h t rfl rank hrank) (Nat.not_lt_zero rank)

/-- Behind a whole expression, at a token that does not close what is open around it. -/
theorem stops_behind {n : Nat} {rest : List Token} {e : Tree} {kind : Kind}
    (stack : List Frame) (hread : readWithin n .assignment ts = .ok (e, rest))
    (hs : startsExpression stack = true) (hclose : close stack e = (stack, e))
    (hparen : ∀ outer, stack = .group :: outer → kind = .mark .rightParen)
    (hsemicolon : stack = [] → kind = .mark .semicolon)
    (hrest : ∀ t ∈ rest.head?, t.kind ≠ kind) (before : List Token) (c : Config) (head : Head) :
    Stops before ts rest (c.inPhase (.operand head stack)) := by
  have hends := readWithin_ends hread
  obtain ⟨us, rfl, hd, -⟩ := readWithin_sound n hread
  obtain ⟨stack', e', hrun, hsame⟩ := drives_of_derives hd c head stack hs
  refine .after hrun (.here (halted_operator fun t ht => ?_))
  have hkind := hrest t ht
  obtain ⟨after, rfl⟩ := List.head?_eq_some_iff.mp ht
  refine step?_operator_eq_none (hsame.trans hclose) (joint?_eq_none_of_ends hends) ?_ ?_ c head
  · exact fun ht outer hgroup => hkind (ht.trans (hparen outer hgroup).symm)
  · exact fun ht hnil => hkind (ht.trans (hsemicolon hnil).symm)

/-- Behind a complete left side that is not a name, at the `=`. -/
theorem stops_at_wrong_target {t : Token} {target : Tree} {stack : List Frame}
    (hd : Derives (.chain .equality) us target) (ht : t.kind = .mark .equal)
    (hother : ∀ name, target ≠ .reference name) (hs : Fits (.chain .equality) stack)
    (before : List Token) (c : Config) (head : Head) :
    Stops before (us ++ t :: ts) (t :: ts) (c.inPhase (.operand head stack)) := by
  obtain ⟨stack', e', hrun, hreduce⟩ := drives_of_derives hd c head stack hs
  refine .after hrun (.here (halted_operator fun u hu => ?_))
  cases hu
  exact step?_equal_eq_none ht hreduce hother c head

end

/-! ## Expressions -/

/-- What is wanted of every rule within so many levels.  The rule for primary expressions is never
tried where a sign stands. -/
def StopsWithin (n : Nat) : Prop :=
  ∀ {rule : Rule} {before ts : List Token} {f : Failure}, readWithin n rule ts = .error f →
    f.reason ≠ .nestingTooDeep → Awaited rule before →
    (rule = .primary → ∀ t ∈ ts.head?, t.kind.isUnary = false) →
    ∀ (c : Config) (head : Head) (stack : List Frame), Fits rule stack →
      Stops before ts f.blamed (c.inPhase (.operand head stack))

section

variable {n : Nat} {before ts : List Token} {f : Failure} {stack : List Frame}

theorem StopsWithin.assignment (ih : StopsWithin n)
    (h : readWithin (n + 1) .assignment ts = .error f) (hf : f.reason ≠ .nestingTooDeep)
    (hbefore : Awaited .assignment before) (c : Config) (head : Head)
    (hs : startsExpression stack = true) :
    Stops before ts f.blamed (c.inPhase (.operand head stack)) := by
  have hfits : Fits (.chain .equality) stack := Fits.equality hs
  simp only [readWithin] at h
  rcases error_of_bind h with h | ⟨⟨target, rest⟩, htarget, hgo⟩
  · exact ih h hf (.equality hbefore) (fun hrule => by cases hrule) c head stack hfits
  obtain ⟨us, rfl, hd, -⟩ := readWithin_sound n htarget
  cases rest with
  | nil => cases hgo
  | cons t after =>
      by_cases ht : t.kind = .mark .equal
      · simp only [ht, if_true] at hgo
        rcases assigned_eq_error hgo with hvalue | ⟨hblamed, hother⟩
        · by_cases hname : ∃ name, target = .reference name
          · obtain ⟨name, rfl⟩ := hname
            obtain ⟨rfl, hkind⟩ := hd.eq_of_reference
            have hstops := ih hvalue hf (.value hbefore hkind ht)
              (fun hrule => by cases hrule) c head (.target name :: stack) rfl
            show Stops before ([name, t] ++ after) f.blamed _
            exact .after (steps?_target hkind ht c head hs) hstops
          · -- the value fails behind a target that is wrong itself
            have hwrong : Misassigned (before ++ us) t :=
              ⟨ht, before, us, target, rfl, hbefore, hd, fun name heq => hname ⟨name, heq⟩⟩
            exact .misassigned hwrong (blamed_suffix hvalue) _
        · rw [hblamed]
          exact stops_at_wrong_target hd ht hother hfits before c head
      · simp only [ht, if_false] at hgo
        cases hgo

/-- The loop of a chain: behind the operands read so far, an operand fails. -/
theorem StopsWithin.steps (ih : StopsWithin n) {tier : Tier} (hf : f.reason ≠ .nestingTooDeep)
    (hbefore : Awaited (.chain tier) before) (c : Config) (head : Head)
    (hs : Fits (.chain tier) stack) :
    ∀ {steps : Nat} {left : Tree} {us ts : List Token}, Derives (.chain tier) us left →
      readSteps tier (readWithin n (.operandOf tier)) steps left ts = .error f →
      Stops before (us ++ ts) f.blamed (c.inPhase (.operand head stack))
  | 0, _, _, [], _, h | 0, _, _, _ :: _, _, h | _ + 1, _, _, [], _, h => by cases h
  | steps + 1, left, us, t :: ts, hd, h => by
      by_cases ht : t.kind.tier? = some tier
      · have hop := operator_iff.mpr ht
        simp only [readSteps, ht, if_true] at h
        rcases error_of_bind h with h | ⟨⟨right, rest⟩, hright, hgo⟩
        · have hstops := ih h hf (.step hbefore hd hop)
            (fun hrule => by cases tier <;> cases hrule) c head (.left tier left t :: stack)
            (fits_left tier left t stack)
          rw [List.append_cons]
          exact .after (Drives.left (drives_of_derives hd) hop c head hs) hstops
        · obtain ⟨vs, rfl, hdright, -⟩ := readWithin_sound n hright
          have hstops := StopsWithin.steps ih hf hbefore c head hs (.step hd hop hdright) hgo
          rw [List.append_assoc] at hstops
          exact hstops
      · simp only [readSteps, ht, if_false] at h
        cases h

theorem StopsWithin.chain (ih : StopsWithin n) {tier : Tier}
    (h : readWithin (n + 1) (.chain tier) ts = .error f) (hf : f.reason ≠ .nestingTooDeep)
    (hbefore : Awaited (.chain tier) before) (c : Config) (head : Head)
    (hs : Fits (.chain tier) stack) :
    Stops before ts f.blamed (c.inPhase (.operand head stack)) := by
  simp only [readWithin] at h
  rcases error_of_bind h with h | ⟨⟨first, rest⟩, hfirst, hgo⟩
  · exact ih h hf (.operand hbefore) (fun hrule => by cases tier <;> cases hrule) c head stack
      hs.operand
  · obtain ⟨us, rfl, hd, -⟩ := readWithin_sound n hfirst
    exact ih.steps hf hbefore c head hs (.operand hd) hgo

theorem StopsWithin.unary (ih : StopsWithin n) (h : readWithin (n + 1) .unary ts = .error f)
    (hf : f.reason ≠ .nestingTooDeep) (hbefore : Awaited .unary before) (c : Config)
    (head : Head) : Stops before ts f.blamed (c.inPhase (.operand head stack)) := by
  cases ts with
  | nil =>
      simp only [readWithin] at h
      exact ih h hf (.primary hbefore) (fun _ t ht => by cases ht) c head stack trivial
  | cons t ts =>
      simp only [readWithin] at h
      by_cases hsign : t.kind.isUnary = true
      · have hop := sign_iff.mpr hsign
        simp only [hsign, if_true] at h
        rcases error_of_bind h with h | ⟨r, -, hgo⟩
        · have hstops := ih h hf (.sign hbefore hop) (fun hrule => by cases hrule) c head
            (.sign t :: stack) trivial
          exact .after_one (step?_sign hop c head stack) hstops
        · cases hgo
      · simp only [hsign] at h
        refine ih h hf (.primary hbefore) (fun _ u hu => ?_) c head stack trivial
        cases hu
        exact Bool.eq_false_iff.mpr hsign

theorem StopsWithin.primary (ih : StopsWithin n) (h : readWithin (n + 1) .primary ts = .error f)
    (hf : f.reason ≠ .nestingTooDeep) (hbefore : Awaited .primary before)
    (hsign : ∀ t ∈ ts.head?, t.kind.isUnary = false) (c : Config) (head : Head) :
    Stops before ts f.blamed (c.inPhase (.operand head stack)) := by
  cases ts with
  | nil =>
      cases h
      refine .here (halted_operand hbefore (fun t ht => ?_) c head stack)
      cases ht
  | cons t ts =>
      simp only [readWithin] at h
      split at h
      · cases h
      · next hatom =>
          by_cases hparen : t.kind = .mark .leftParen
          · simp only [hparen, if_true] at h
            refine .after_one (step?_leftParen hparen c head stack) ?_
            rcases error_of_bind h with h | ⟨⟨inner, rest⟩, hinner, hgo⟩
            · exact ih h hf (.group hbefore hparen) (fun hrule => by cases hrule) c head
                (.group :: stack) rfl
            rcases error_of_bind hgo with h | ⟨r, -, hgo⟩
            · obtain ⟨hblamed, hrest⟩ := expect_eq_error h
              rw [hblamed]
              exact stops_behind (.group :: stack) hinner rfl rfl (fun _ _ => rfl)
                (fun hnil => by cases hnil) hrest _ c head
            · cases hgo
          · simp only [hparen, if_false] at h
            cases h
            refine .here (halted_operand hbefore (fun u hu => ?_) c head stack)
            cases hu
            rintro (⟨e, he⟩ | hop | hleft)
            · rw [atom_iff.mp he] at hatom
              cases hatom
            · exact absurd (sign_iff.mp hop) (Bool.eq_false_iff.mp (hsign t rfl))
            · exact hparen hleft

end

theorem readWithin_stops (n : Nat) : StopsWithin n := by
  induction n with
  | zero =>
      intro rule before ts f h hf
      cases h
      exact absurd rfl hf
  | succ n ih =>
      intro rule before ts f h hf hbefore hsign c head stack hs
      cases rule with
      | assignment => exact ih.assignment h hf hbefore c head hs
      | chain tier => exact ih.chain h hf hbefore c head hs
      | unary => exact ih.unary h hf hbefore c head
      | primary => exact ih.primary h hf hbefore (hsign rfl) c head

/-! ## Statements without blocks -/

section

variable {n : Nat} {before ts : List Token} {f : Failure}

theorem readTerminated_stops {reason : Reason} (h : readTerminated n reason ts = .error f)
    (hf : f.reason ≠ .nestingTooDeep) (hbefore : Awaited .assignment before) (c : Config)
    (head : Head) : Stops before ts f.blamed (c.inPhase (.operand head [])) := by
  rcases error_of_bind h with h | ⟨⟨value, rest⟩, hvalue, hgo⟩
  · exact readWithin_stops n h hf hbefore nofun c head [] rfl
  rcases error_of_bind hgo with h | ⟨r, -, hgo⟩
  · obtain ⟨hblamed, hrest⟩ := expect_eq_error h
    rw [hblamed]
    exact stops_behind [] hvalue rfl rfl nofun (fun _ => rfl) hrest before c head
  · cases hgo

/-- Behind the word that starts a declaration. -/
theorem readDeclaration_stops {var : Token} (hvar : var.kind = .word .var)
    (h : readDeclaration n ts = .error f) (hf : f.reason ≠ .nestingTooDeep)
    (hbefore : Opened before) (c : Config) :
    Stops (before ++ [var]) ts f.blamed (c.inPhase .naming) := by
  rcases error_of_bind h with h | ⟨⟨name, rest⟩, hname, hgo⟩
  · obtain ⟨hblamed, hkind⟩ := expect_eq_error h
    rw [hblamed]
    exact .here ⟨fun t ht => if_neg (hkind t ht), fun _ => rfl, nofun, nofun⟩
  obtain ⟨rfl, hkind⟩ := expect_eq_ok hname
  have hstep : (c.inPhase .naming).step? name = some (c.inPhase (.named name)) := if_pos hkind
  have hbehind : BehindName (before ++ [var] ++ [name]) :=
    ⟨before, var, name, List.append_assoc before [var] [name], hvar, hkind⟩
  refine .after_one hstep ?_
  cases rest with
  | nil =>
      cases hgo
      exact .here ⟨nofun, fun _ => rfl, nofun, fun _ _ => hbehind⟩
  | cons t after =>
      by_cases ht : t.kind = .mark .equal
      · have hdefine : (c.inPhase (.named name)).step? t
            = some (c.inPhase (.operand (.define name) [])) := by
          simp only [step?, inPhase, ht]
        simp only [ht, if_true] at hgo
        refine .after_one hdefine ?_
        rcases error_of_bind hgo with h | ⟨r, -, hgo⟩
        · have hawaited : Awaited .assignment (before ++ [var] ++ [name] ++ [t]) := by
            simpa using Awaited.define hbefore hvar hkind ht
          exact readTerminated_stops h hf hawaited c (.define name)
        · cases hgo
      · simp only [ht, if_false] at hgo
        rcases error_of_bind hgo with h | ⟨r, -, hgo⟩
        · obtain ⟨hblamed, hsemicolon⟩ := expect_eq_error h
          rw [hblamed]
          refine .here ⟨fun u hu => ?_, fun _ => rfl, nofun, fun _ _ => hbehind⟩
          have hu' := hsemicolon u hu
          cases hu
          simp only [step?, inPhase]
        · cases hgo

/-- Where a declaration may start, the machine does with a token that starts no statement of its own
what it would do at the start of an expression. -/
theorem step?_between_of_ne {t : Token} {outer : List (List Tree)} {done : List Tree}
    (hvar : t.kind ≠ .word .var) (hprint : t.kind ≠ .word .print)
    (hleft : t.kind ≠ .mark .leftBrace) (hright : t.kind = .mark .rightBrace → outer = []) :
    (⟨outer, done, .between⟩ : Config).step? t
      = ((⟨outer, done, .between⟩ : Config).inPhase (.operand .discard [])).step? t := by
  by_cases hkind : t.kind = .mark .rightBrace
  · rw [hright hkind]
    simp only [step?, startStep?, inPhase, hkind, operandStep?, Tree.atom?, Kind.isUnary]
    rfl
  · simp only [step?, inPhase, startStep?]
    rfl

theorem readDiscard_stops {t : Token} {outer : List (List Tree)} {done : List Tree}
    (h : readDiscard n (t :: ts) = .error f) (hf : f.reason ≠ .nestingTooDeep)
    (hbefore : Opened before) (hvar : t.kind ≠ .word .var) (hprint : t.kind ≠ .word .print)
    (hleft : t.kind ≠ .mark .leftBrace) (hright : t.kind = .mark .rightBrace → outer = []) :
    Stops before (t :: ts) f.blamed ⟨outer, done, .between⟩ := by
  rcases error_of_bind h with h | ⟨r, -, hgo⟩
  · refine (readTerminated_stops h hf (.discard hbefore) ⟨outer, done, .between⟩ .discard).of_step?
      rfl rfl (fun u hu => ?_) nofun
    cases hu
    exact step?_between_of_ne hvar hprint hleft hright
  · cases hgo

end

/-! ## Blocks and programs -/

theorem Grammar.Opened.program : ∀ {us : List Token} {trees : List Tree}, Program us trees →
    ∀ {ts : List Token}, Opened ts → Opened (ts ++ us)
  | _, _, .nil, ts, h => (List.append_nil ts).symm ▸ h
  | _, _, @Program.cons us vs _ _ hd hp, ts, h => by
      rw [← List.append_assoc]
      exact .program hp (.declared h hd)

/-- What is wanted of an attempt at a declaration: where its first failure is, the machine stops. -/
def FirstStops (attempt : List Token → Attempt) : Prop :=
  ∀ {before ts : List Token} {t : Token} {f : Failure} {fs : List Failure},
    (attempt (t :: ts)).failures = f :: fs → f.reason ≠ .nestingTooDeep → Opened before →
    ∀ (outer : List (List Tree)) (done : List Tree),
      (t.kind = .mark .rightBrace → outer = []) →
      Stops before (t :: ts) f.blamed ⟨outer, done, .between⟩

section

variable {n : Nat} {f : Failure} {fs : List Failure} {stop : Token → Bool}

/-- Declarations that do not fail are taken by the machine, up to the first that does. -/
theorem attemptAll_stops (one : FirstStops (attemptWithin n)) (hf : f.reason ≠ .nestingTooDeep)
    (outer : List (List Tree))
    (hstop : ∀ t, stop t = false → t.kind = .mark .rightBrace → outer = []) :
    ∀ {steps : Nat} {before ts : List Token} {done : List Tree},
      (attemptAll (attemptWithin n) stop steps ts).failures = f :: fs → Opened before →
      Stops before ts f.blamed ⟨outer, done, .between⟩
  | 0, _, [], _, h, _ | 0, _, _ :: _, _, h, _ | _ + 1, _, [], _, h, _ => by cases h
  | steps + 1, before, t :: ts, done, h, hbefore => by
      by_cases ht : stop t = true
      · simp only [attemptAll, ht, if_true] at h
        cases h
      · simp only [attemptAll, ht, Bool.false_eq_true, if_false] at h
        have hright := hstop t (Bool.eq_false_iff.mpr ht)
        cases hone : (attemptWithin n (t :: ts)).failures with
        | cons g gs =>
            rw [hone] at h
            cases h
            exact one hone hf hbefore outer done hright
        | nil =>
            rw [hone] at h
            obtain ⟨tree, -, us, hts, hd, -⟩ := attemptWithin_sound n _ hone
            rw [hts]
            exact .after (steps?_of_declaration hd outer done)
              (attemptAll_stops one hf outer hstop h (.declared hbefore hd))

/-- A block that fails at its end has come to the end of the tokens. -/
theorem blockEnd_stops {l : Token} {ts before : List Token} (hl : l.kind = .mark .leftBrace)
    (hbody : (attemptsFrom n closesBlock ts).failures = [])
    (hrest : (attemptsFrom n closesBlock ts).rest = []) (hbefore : Opened before)
    (outer : List (List Tree)) (done : List Tree) :
    Stops (before ++ [l]) ts [] ⟨done :: outer, [], .between⟩ := by
  obtain ⟨us, hts, hp, -, -⟩ := attemptAll_sound (attemptWithin_sound n) hbody (Nat.le_refl _)
  have hopened : Opened (before ++ [l] ++ us) := (hbefore.block hl).program hp
  rw [show (attemptAll _ _ _ ts).rest = [] from hrest] at hts
  rw [hts]
  refine .after (steps?_of_program hp _ _) (.here ⟨nofun, fun _ => rfl, fun _ => ?_, nofun⟩)
  exact (Awaited.discard hopened).operandFirst

/-- A failure inside of a block comes before one at its end. -/
theorem block_stops (ih : FirstStops (attemptWithin n)) {l : Token} {ts before : List Token}
    (hl : l.kind = .mark .leftBrace) (h : (attemptWithin (n + 1) (l :: ts)).failures = f :: fs)
    (hf : f.reason ≠ .nestingTooDeep) (hbefore : Opened before) (outer : List (List Tree))
    (done : List Tree) : Stops (before ++ [l]) ts f.blamed ⟨done :: outer, [], .between⟩ := by
  obtain ⟨gs, hbody⟩ | ⟨hbody, hrest, rfl⟩ := block_failures hl h
  · refine attemptAll_stops ih hf (done :: outer) (fun t ht hbrace => ?_) hbody (hbefore.block hl)
    simp [closesBlock, hbrace] at ht
  · exact blockEnd_stops hl hbody hrest hbefore outer done

theorem attemptWithin_stops (n : Nat) : FirstStops (attemptWithin n) := by
  induction n with
  | zero =>
      intro before ts t f fs h hf
      cases h
      exact absurd rfl hf
  | succ n ih =>
      intro before ts t f fs h hf hbefore outer done hright
      by_cases hl : t.kind = .mark .leftBrace
      · have hstep : (⟨outer, done, .between⟩ : Config).step? t
            = some ⟨done :: outer, [], .between⟩ := by
          simp only [step?, startStep?, hl]
        exact .after_one hstep (block_stops ih hl h hf hbefore outer done)
      · simp only [attemptWithin] at h
        split at h
        · next hvar =>
            have hstep : (⟨outer, done, .between⟩ : Config).step? t
                = some ((⟨outer, done, .between⟩ : Config).inPhase .naming) := by
              simp only [step?, startStep?, hvar]
            exact .after_one hstep (readDeclaration_stops hvar (close_failures h) hf hbefore _)
        · next hprint =>
            have hstep : (⟨outer, done, .between⟩ : Config).step? t
                = some ((⟨outer, done, .between⟩ : Config).inPhase (.operand .print [])) := by
              simp only [step?, startStep?, hprint]
            refine .after_one hstep ?_
            rcases error_of_bind (close_failures h) with h | ⟨r, -, hgo⟩
            · exact readTerminated_stops h hf (.print hbefore hprint) _ .print
            · cases hgo
        · next hbrace => exact absurd hbrace hl
        · next hvar hprint _ =>
            exact readDiscard_stops (close_failures h) hf hbefore hvar hprint hl hright

/-- Where the descent fails first on a whole list of tokens, the machine stops. -/
theorem attemptBody_stops {body : List Token} (h : (attemptBody n body).failures = f :: fs)
    (hf : f.reason ≠ .nestingTooDeep) : Stops [] body f.blamed start :=
  attemptAll_stops (attemptWithin_stops n) hf [] (fun _ _ _ => rfl) h .start

end

end RoxLang
