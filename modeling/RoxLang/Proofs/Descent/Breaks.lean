/-
# `RoxLang.Proofs.Descent.Breaks` — where a reading fails, no other goes on

A rule that fails has read some tokens, and it fails because of the next one.  Two things can be
said of the place between.  The tokens in front of it can be completed to what the rule derives, and
within the levels that the rule has.  And the rule fails on all tokens that have the same kinds up
to and including the next one, whatever comes then.  Only a number that is misread says nothing
about others: in its place there may be one that is read.

The place is the one that is blamed, with one exception.  A left side that is wrong for an
assignment is found after the right side has been read, and the right side may fail first.  Then the
place is the `=`, and what is blamed is behind it.

A reading that nests too deeply fails on all such tokens as well.  But the tokens in front of it may
have used up all levels, so that they cannot be completed any more.
-/
import RoxLang.Proofs.Descent.Progress
import RoxLang.Proofs.Grammar.Context
import RoxLang.Proofs.Grammar.Kinds

namespace RoxLang.Descent

open Grammar
open RoxLang.Tree

/-! ## Tokens of the same kinds are read alike -/

section

variable {n : Nat} {rule : Rule} {ts rest : List Token} {e : Tree}

theorem Ends.sameNext {rest' : List Token} (h : Ends rule rest) (hnext : SameNext rest rest') :
    Ends rule rest' := by
  intro t ht rank hrank
  cases rest with
  | nil =>
      obtain rfl := hnext.eq_nil
      cases ht
  | cons u us =>
      obtain ⟨t', us', rfl, hkind⟩ := hnext.exists_cons
      cases ht
      rw [hkind] at hrank
      exact h u rfl rank hrank

/-- A reading that has taken tokens in front of a next one takes all tokens that can stand in for
them, in front of one of the same kind. -/
theorem readWithin_sameKinds (h : readWithin n rule ts = .ok (e, rest)) :
    ∃ us, ts = us ++ rest ∧ Derives rule us e ∧ levelsFrom rule e ≤ n ∧
      ∀ {us' rest'}, StandIn us us' → SameNext rest rest' →
        ∃ e', Derives rule us' e' ∧ e'.isName = e.isName ∧ levelsFrom rule e' ≤ n ∧
          readWithin n rule (us' ++ rest') = .ok (e', rest') := by
  obtain ⟨us, hts, hd, hlevels⟩ := readWithin_sound n h
  refine ⟨us, hts, hd, hlevels, fun hkinds hnext => ?_⟩
  obtain ⟨e', hd', hnesting, -⟩ := hd.ofKinds hkinds
  have hlevels' : levelsFrom rule e' ≤ n := by
    rw [hnesting.levelsFrom]
    exact hlevels
  exact ⟨e', hd', hnesting.name, hlevels',
    readWithin_of_derives hd' hlevels' ((readWithin_ends h).sameNext hnext)⟩

theorem expect_sameNext {kind : Kind} {reason : Reason} {f : Failure}
    (h : expect kind reason ts = .error f) {us : List Token} (hnext : SameNext ts us) :
    ∃ g, expect kind reason us = .error g := by
  obtain ⟨-, hkind⟩ := expect_eq_error h
  cases us with
  | nil => exact ⟨_, rfl⟩
  | cons u us =>
      refine ⟨_, expect_cons_ne (fun hu => ?_) reason us⟩
      cases ts with
      | nil => cases hnext
      | cons t ts => exact hkind t rfl ((Option.some.inj hnext).trans hu)

end

/-! ## The place where a reading breaks off -/

/-- The place is at an `=` that follows a complete left side other than a name, and the failure is
that of the right side. -/
def Deferred (before place : List Token) (f : Failure) : Prop :=
  ∃ equal after n, place = equal :: after ∧ Misassigned before equal ∧
    readWithin n .assignment after = .error f

/-- A reading of `ts`, which stand behind `before`, has failed and breaks off in them: those in
front of a place are viable, and all tokens of the same kinds up to and including the next are
dead, unless that is a number which is misread. -/
def BreaksOff (before ts : List Token) (f : Failure) (Viable Dead : List Token → Prop) : Prop :=
  ∃ us place, ts = us ++ place ∧ (place = f.blamed ∨ Deferred (before ++ us) place f) ∧
    (f.reason ≠ .nestingTooDeep → Viable us) ∧
    (f.reason ≠ .misreadNumber →
      ∀ {us' place'}, StandIn us us' → SameNext place place' → Dead (us' ++ place'))

section

variable {before ts : List Token} {f : Failure} {Viable Viable' Dead Dead' : List Token → Prop}

/-- A reading breaks off where it starts. -/
theorem BreaksOff.here (hblamed : f.blamed = ts) (hviable : f.reason ≠ .nestingTooDeep → Viable [])
    (hdead : f.reason ≠ .misreadNumber → ∀ {us}, SameNext ts us → Dead us) :
    BreaksOff before ts f Viable Dead := by
  refine ⟨[], ts, rfl, .inl hblamed.symm, hviable, fun hf _ _ hkinds hnext => ?_⟩
  obtain rfl := hkinds.eq_nil
  exact hdead hf hnext

/-- A reading breaks off behind tokens that have been read before. -/
theorem BreaksOff.after (ps : List Token) (h : BreaksOff (before ++ ps) ts f Viable Dead)
    (hviable : ∀ {us}, Viable us → Viable' (ps ++ us))
    (hdead : ∀ {ps' us}, StandIn ps ps' → SameNext ts us → Dead us → Dead' (ps' ++ us)) :
    BreaksOff before (ps ++ ts) f Viable' Dead' := by
  obtain ⟨us, place, rfl, hplace, hv, hd⟩ := h
  refine ⟨ps ++ us, place, (List.append_assoc ps us place).symm, ?_, fun hf => hviable (hv hf),
    fun hf _ _ hkinds hnext => ?_⟩
  · rw [← List.append_assoc]
    exact hplace
  · obtain ⟨ps', us', rfl, hps, hus⟩ := hkinds.exists_append
    rw [List.append_assoc]
    exact hdead hps (hus.kinds.next_append hnext) (hd hf hus hnext)

theorem BreaksOff.imp (h : BreaksOff before ts f Viable Dead)
    (hviable : ∀ {us}, Viable us → Viable' us)
    (hdead : ∀ {us}, SameNext ts us → Dead us → Dead' us) :
    BreaksOff before ts f Viable' Dead' := by
  rw [← List.append_nil before] at h
  refine h.after [] hviable fun hkinds hnext hd => ?_
  obtain rfl := hkinds.eq_nil
  exact hdead hnext hd

theorem BreaksOff.after_one {t : Token} (h : BreaksOff (before ++ [t]) ts f Viable Dead)
    (hviable : ∀ {us}, Viable us → Viable' (t :: us))
    (hdead : ∀ {u us}, u.kind = t.kind → Dead us → Dead' (u :: us)) :
    BreaksOff before (t :: ts) f Viable' Dead' := by
  refine h.after [t] hviable fun hkinds _ hd => ?_
  obtain ⟨u, rfl, hkind⟩ := hkinds.exists_singleton
  exact hdead hkind hd

end

/-! ## Expressions -/

/-- What a reader does not read. -/
def FailsOn {α : Type} (read : List Token → Except Failure α) (ts : List Token) : Prop :=
  ∃ f, read ts = .error f

/-- The beginning of something that the rule derives, and that is read within so many levels. -/
def Begins (n : Nat) (rule : Rule) (us : List Token) : Prop :=
  ∃ cs e, Derives rule (us ++ cs) e ∧ levelsFrom rule e ≤ n

/-- What is wanted of every rule within so many levels. -/
def BreaksWithin (n : Nat) : Prop :=
  ∀ {rule : Rule} {before ts : List Token} {f : Failure}, readWithin n rule ts = .error f →
    Awaited rule before →
    BreaksOff before ts f (Begins n rule) (FailsOn (readWithin n rule))

section

variable {n : Nat} {before ts : List Token} {f : Failure}

theorem Begins.loosen {rule looser : Rule} {us : List Token} (hr : rule.rank = looser.rank + 1)
    (hd : ∀ {us e}, Derives rule us e → Derives looser us e) (h : Begins n rule us) :
    Begins (n + 1) looser us := by
  obtain ⟨cs, e, h, hl⟩ := h
  exact ⟨cs, e, hd h, Nat.le_trans (levelsFrom_le_succ hr e) (Nat.succ_le_succ hl)⟩

/-- Where nothing has been read yet, an operand may come. -/
theorem begins_nil (n : Nat) : Begins (n + 1) .primary [] :=
  ⟨[⟨.word .nil, "nil", 0⟩], .literal .nil, .atom (.nil rfl), Nat.le_add_left 1 n⟩

theorem assigned_not_name {target : Tree} (h : target.isName = false) {place rest : List Token}
    {value : Tree} :
    assigned target place (.ok (value, rest)) = .error ⟨.assignmentTarget, place, rest⟩ := by
  cases target with
  | reference name => cases h
  | _ => rfl

theorem assigned_of_not_name {target : Tree} (h : target.isName = false) (place : List Token)
    (reading : Except Failure (Tree × List Token)) :
    ∃ f, assigned target place reading = .error f := by
  cases reading with
  | error f => exact ⟨f, rfl⟩
  | ok r => exact ⟨_, assigned_not_name h⟩

/-- An `=` behind a complete left side that is not a name is read by no rule. -/
theorem breaksOff_wrong_target {t : Token} {after : List Token} {target : Tree}
    (htarget : readWithin n (.chain .equality) ts = .ok (target, t :: after))
    (ht : t.kind = .mark .equal) (hother : target.isName = false)
    (hbefore : Awaited .assignment before)
    (hf : f.blamed = t :: after ∨ readWithin n .assignment after = .error f) :
    BreaksOff before ts f (Begins (n + 1) .assignment)
      (FailsOn (readWithin (n + 1) .assignment)) := by
  obtain ⟨us, rfl, hd, hlevels, hsame⟩ := readWithin_sameKinds htarget
  have hwrong : Misassigned (before ++ us) t := by
    refine ⟨ht, before, us, target, rfl, hbefore, hd, fun name heq => ?_⟩
    rw [heq] at hother
    cases hother
  refine ⟨us, t :: after, rfl, ?_, fun _ => ?_, fun _ _ _ hkinds hnext => ?_⟩
  · rcases hf with hblamed | hvalue
    · exact .inl hblamed.symm
    · exact .inr ⟨t, after, n, rfl, hwrong, hvalue⟩
  · have hbegins : Begins n (.chain .equality) us :=
      ⟨[], target, (List.append_nil us).symm ▸ hd, hlevels⟩
    exact hbegins.loosen rfl .equality
  · obtain ⟨t', after', rfl, hkind⟩ := hnext.exists_cons
    obtain ⟨e', -, hname, -, hread⟩ := hsame hkinds hnext
    have hequal : t'.kind = .mark .equal := hkind.trans ht
    obtain ⟨g, hg⟩ := assigned_of_not_name (hname.trans hother) (t' :: after')
      (readWithin n .assignment after')
    exact ⟨g, by simp only [readWithin, hread, ok_bind, hequal, if_true, hg]⟩

theorem BreaksWithin.assignment (ih : BreaksWithin n)
    (h : readWithin (n + 1) .assignment ts = .error f) (hbefore : Awaited .assignment before) :
    BreaksOff before ts f (Begins (n + 1) .assignment)
      (FailsOn (readWithin (n + 1) .assignment)) := by
  simp only [readWithin] at h
  rcases error_of_bind h with h | ⟨⟨target, rest⟩, htarget, hgo⟩
  · refine (ih h (.equality hbefore)).imp (.loosen rfl .equality) fun _ hd => ?_
    obtain ⟨g, hg⟩ := hd
    exact ⟨g, by simp only [readWithin, hg]; rfl⟩
  cases rest with
  | nil => cases hgo
  | cons t after =>
      by_cases ht : t.kind = .mark .equal
      · simp only [ht, if_true] at hgo
        cases hname : target.isName with
        | false =>
            refine breaksOff_wrong_target htarget ht hname hbefore ?_
            rcases assigned_eq_error hgo with hvalue | ⟨hblamed, -⟩
            · exact .inr hvalue
            · exact .inl hblamed
        | true =>
            obtain ⟨name, rfl⟩ := isName_eq_true.mp hname
            obtain ⟨us, rfl, hd, hlevels, hsame⟩ := readWithin_sameKinds htarget
            obtain ⟨rfl, hkind⟩ := hd.eq_of_reference
            have hvalue : readWithin n .assignment after = .error f := by
              rcases assigned_eq_error hgo with hvalue | ⟨-, hother⟩
              · exact hvalue
              · exact absurd rfl (hother name)
            refine (ih hvalue (.value hbefore hkind ht)).after [name, t] ?_ ?_
            · rintro us ⟨cs, e, hd, hl⟩
              refine ⟨cs, .assign name e, .assign hkind ht hd, ?_⟩
              rw [levelsFrom_reference] at hlevels
              rw [levelsFrom_assign]
              omega
            · rintro ps' us hkinds - ⟨g, hg⟩
              replace hkinds : StandIn ([name] ++ [t]) ps' := hkinds
              obtain ⟨_, _, rfl, hname', hequal'⟩ := hkinds.exists_append
              obtain ⟨name', rfl, -⟩ := hname'.exists_singleton
              obtain ⟨t', rfl, ht'⟩ := hequal'.exists_singleton
              have hequal : t'.kind = .mark .equal := ht'.trans ht
              obtain ⟨e', -, -, -, hread⟩ :=
                @hsame [name'] (t' :: us) hname' (congrArg some ht'.symm)
              refine ⟨g, ?_⟩
              simp only [List.cons_append, List.nil_append] at hread ⊢
              simp only [readWithin, hread, ok_bind, hequal, if_true, hg]
              rfl
      · simp only [ht, if_false] at hgo
        cases hgo

/-- The loop of a chain: behind the operands read so far, an operand fails. -/
theorem BreaksWithin.steps (ih : BreaksWithin n) {tier : Tier}
    (hbefore : Awaited (.chain tier) before) :
    ∀ {steps : Nat} {left : Tree} {us ts : List Token}, Derives (.chain tier) us left →
      levelsFrom (.chain tier) left ≤ n + 1 →
      readSteps tier (readWithin n (.operandOf tier)) steps left ts = .error f →
      BreaksOff before (us ++ ts) f (Begins (n + 1) (.chain tier))
        (FailsOn (readWithin (n + 1) (.chain tier)))
  | 0, _, _, [], _, _, h | 0, _, _, _ :: _, _, _, h | _ + 1, _, _, [], _, _, h => by cases h
  | steps + 1, left, us, t :: ts, hd, hlevels, h => by
      by_cases ht : t.kind.tier? = some tier
      · have hop := operator_iff.mpr ht
        simp only [readSteps, ht, if_true] at h
        rcases error_of_bind h with h | ⟨⟨right, rest⟩, hright, hgo⟩
        · rw [List.append_cons]
          have hawaited : Awaited (.operandOf tier) (before ++ (us ++ [t])) :=
            .step hbefore hd hop
          refine (ih h hawaited).after (us ++ [t]) ?_ ?_
          · rintro vs ⟨cs, e, hr, hl⟩
            refine ⟨cs, .binary left t e, ?_, ?_⟩
            · have hstep := Derives.step hd hop hr
              simpa using hstep
            · rw [levelsFrom_step ht]
              omega
          · rintro ps' vs hkinds - ⟨g, hg⟩
            obtain ⟨us', _, rfl, hus, hkinds⟩ := hkinds.exists_append
            obtain ⟨t', rfl, ht'⟩ := hkinds.exists_singleton
            obtain ⟨left', hd', hnesting, -⟩ := hd.ofKinds hus
            have htier : t'.kind.tier? = some tier := by rw [ht', ht]
            have hlevels' : levelsFrom (.chain tier) left' ≤ n + 1 := by
              rw [hnesting.levelsFrom]
              exact hlevels
            -- the chain is read up to the operator, and then the loop is in front of it
            obtain ⟨rounds, hrounds, hread⟩ :=
              found_of_derives hd' n (t' :: vs) hlevels' (ends_operandOf htier vs)
            obtain ⟨rounds, rfl⟩ : ∃ m, rounds = m + 1 := ⟨rounds - 1, by
              simp only [List.length_cons] at hrounds
              omega⟩
            refine ⟨g, ?_⟩
            rw [List.append_assoc, List.singleton_append, hread]
            simp only [readSteps, htier, if_true, hg]
            rfl
        · obtain ⟨vs, rfl, hdright, hl⟩ := readWithin_sound n hright
          have hlonger : levelsFrom (.chain tier) (.binary left t right) ≤ n + 1 := by
            rw [levelsFrom_step ht]
            omega
          have hbreaks := BreaksWithin.steps ih hbefore (.step hd hop hdright) hlonger hgo
          rw [List.append_assoc] at hbreaks
          exact hbreaks
      · simp only [readSteps, ht, if_false] at h
        cases h

theorem BreaksWithin.chain (ih : BreaksWithin n) {tier : Tier}
    (h : readWithin (n + 1) (.chain tier) ts = .error f) (hbefore : Awaited (.chain tier) before) :
    BreaksOff before ts f (Begins (n + 1) (.chain tier))
      (FailsOn (readWithin (n + 1) (.chain tier))) := by
  simp only [readWithin] at h
  rcases error_of_bind h with h | ⟨⟨first, rest⟩, hfirst, hgo⟩
  · refine (ih h (.operand hbefore)).imp (.loosen (Rule.rank_operandOf tier) .operand) ?_
    rintro us - ⟨g, hg⟩
    exact ⟨g, by simp only [readWithin, hg]; rfl⟩
  · obtain ⟨us, rfl, hd, hl⟩ := readWithin_sound n hfirst
    refine ih.steps hbefore (.operand hd) ?_ hgo
    exact Nat.le_trans (levelsFrom_le_succ (Rule.rank_operandOf tier) first) (Nat.succ_le_succ hl)

theorem BreaksWithin.unary (ih : BreaksWithin n) (h : readWithin (n + 1) .unary ts = .error f)
    (hbefore : Awaited .unary before) :
    BreaksOff before ts f (Begins (n + 1) .unary) (FailsOn (readWithin (n + 1) .unary)) := by
  cases ts with
  | nil =>
      simp only [readWithin] at h
      refine (ih h (.primary hbefore)).imp (.loosen rfl .primary) ?_
      rintro us hnext ⟨g, hg⟩
      obtain rfl := hnext.eq_nil
      exact ⟨g, by simp only [readWithin, hg]⟩
  | cons t ts =>
      simp only [readWithin] at h
      by_cases hsign : t.kind.isUnary = true
      · have hop := sign_iff.mpr hsign
        simp only [hsign, if_true] at h
        rcases error_of_bind h with h | ⟨r, -, hgo⟩
        · refine (ih h (.sign hbefore hop)).after_one ?_ ?_
          · rintro us ⟨cs, e, hd, hl⟩
            refine ⟨cs, .unary t e, .sign hop hd, ?_⟩
            rw [levelsFrom_sign]
            exact Nat.succ_le_succ hl
          · rintro u us hkind ⟨g, hg⟩
            have hu : u.kind.isUnary = true := by rw [hkind, hsign]
            refine ⟨g, ?_⟩
            simp only [readWithin, hu, if_true, hg]
            rfl
        · cases hgo
      · simp only [hsign] at h
        refine (ih h (.primary hbefore)).imp (.loosen rfl .primary) ?_
        rintro us hnext ⟨g, hg⟩
        obtain ⟨u, us, rfl, hkind⟩ := hnext.exists_cons
        have hu : ¬ u.kind.isUnary = true := by rwa [hkind]
        exact ⟨g, by simp only [readWithin, hu, hg]; rfl⟩

/-- Whether a token is an operand by itself is a matter of its kind, unless it is a number. -/
theorem atom?_eq_none {t u : Token} (h : Tree.atom? t = none) (hnumber : t.kind ≠ .number)
    (hkind : u.kind = t.kind) : Tree.atom? u = none := by
  cases hu : Tree.atom? u with
  | none => rfl
  | some e =>
      obtain ⟨e', ht, -⟩ := (atom_iff.mpr hu).ofKind hkind.symm fun h => absurd h hnumber
      rw [atom_iff.mp ht] at h
      cases h

/-- An expression and a token of a kind behind it. -/
def readClosed (n : Nat) (kind : Kind) (reason : Reason) (ts : List Token) :
    Except Failure (Tree × List Token) := do
  let (e, rest) ← readWithin n .assignment ts
  let (_, rest) ← expect kind reason rest
  .ok (e, rest)

/-- The beginning of an expression and a token of a kind behind it. -/
def BeginsClosed (n : Nat) (kind : Kind) (us : List Token) : Prop :=
  ∃ cs vs e t, us ++ cs = vs ++ [t] ∧ t.kind = kind ∧ Derives .assignment vs e ∧
    levelsFrom .assignment e ≤ n

theorem BreaksWithin.closed (ih : BreaksWithin n) {kind : Kind} {reason : Reason}
    (h : readClosed n kind reason ts = .error f) (hbefore : Awaited .assignment before) :
    BreaksOff before ts f (BeginsClosed n kind) (FailsOn (readClosed n kind reason)) := by
  let last : Token := ⟨kind, "", 0⟩
  rcases error_of_bind h with hvalue | ⟨⟨e, rest⟩, hvalue, hgo⟩
  · refine (ih hvalue hbefore).imp ?_ ?_
    · rintro us ⟨cs, e, hd, hl⟩
      exact ⟨cs ++ [last], us ++ cs, e, last, (List.append_assoc us cs [last]).symm, rfl, hd, hl⟩
    · rintro us - ⟨g, hg⟩
      exact ⟨g, by rw [readClosed, hg]; rfl⟩
  rcases error_of_bind hgo with hend | ⟨r, -, hgo⟩
  · -- the expression is complete, and the token behind it is not the one that has to come
    obtain ⟨us, rfl, hd, hl, hsame⟩ := readWithin_sameKinds hvalue
    refine ⟨us, rest, rfl, .inl (expect_eq_error hend).1.symm, fun _ => ?_,
      fun _ _ _ hkinds hnext => ?_⟩
    · exact ⟨[last], us, e, last, rfl, rfl, hd, hl⟩
    · obtain ⟨e', -, -, -, hread⟩ := hsame hkinds hnext
      obtain ⟨g, hg⟩ := expect_sameNext hend hnext
      refine ⟨g, ?_⟩
      rw [readClosed, hread, ok_bind]
      simp only [hg]
      rfl
  · cases hgo

/-- A group is read behind its parenthesis, whatever token of that kind it is. -/
theorem readWithin_leftParen {t : Token} (ht : t.kind = .mark .leftParen) (n : Nat)
    (ts : List Token) : readWithin (n + 1) .primary (t :: ts) =
      readClosed n (.mark .rightParen) .groupEnd ts >>= fun r => .ok (.grouping r.1, r.2) := by
  have hatom : Tree.atom? t = none := by simp only [Tree.atom?, ht]
  simp only [readWithin, hatom, ht, if_true, readClosed]
  cases readWithin n .assignment ts with
  | error g => rfl
  | ok r =>
      simp only [ok_bind]
      cases expect (.mark .rightParen) .groupEnd r.2 <;> rfl

theorem BreaksWithin.primary (ih : BreaksWithin n) (h : readWithin (n + 1) .primary ts = .error f)
    (hbefore : Awaited .primary before) :
    BreaksOff before ts f (Begins (n + 1) .primary) (FailsOn (readWithin (n + 1) .primary)) := by
  cases ts with
  | nil =>
      cases h
      refine .here rfl (fun _ => begins_nil n) fun _ _ hnext => ?_
      obtain rfl := hnext.eq_nil
      exact ⟨_, rfl⟩
  | cons t ts =>
      by_cases hparen : t.kind = .mark .leftParen
      · rw [readWithin_leftParen hparen] at h
        rcases error_of_bind h with h | ⟨r, -, hgo⟩
        · refine (ih.closed h (.group hbefore hparen)).after_one ?_ ?_
          · rintro us ⟨cs, vs, e, r, hsplit, hr, hd, hl⟩
            refine ⟨cs, .grouping e, ?_, ?_⟩
            · rw [List.cons_append, hsplit]
              exact .group hparen hr hd
            · rw [levelsFrom_group]
              exact Nat.succ_le_succ hl
          · rintro u us hkind ⟨g, hg⟩
            refine ⟨g, ?_⟩
            rw [readWithin_leftParen (hkind.trans hparen), hg]
            rfl
        · cases hgo
      · simp only [readWithin] at h
        split at h
        · cases h
        · next hatom =>
            simp only [hparen, if_false] at h
            cases h
            refine .here rfl (fun _ => begins_nil n) fun hf _ hnext => ?_
            obtain ⟨u, us, rfl, hkind⟩ := hnext.exists_cons
            have hnumber : t.kind ≠ .number := fun h => hf (if_pos h)
            have hatom := atom?_eq_none hatom hnumber hkind
            have hu : u.kind ≠ .mark .leftParen := by rwa [hkind]
            exact ⟨_, by simp only [readWithin, hatom, hu, if_false]; rfl⟩

end

theorem readWithin_breaks (n : Nat) : BreaksWithin n := by
  induction n with
  | zero =>
      intro rule before ts f h _
      cases h
      exact .here rfl (fun hf => absurd rfl hf) fun _ _ _ => ⟨_, rfl⟩
  | succ n ih =>
      intro rule before ts f h hbefore
      cases rule with
      | assignment => exact ih.assignment h hbefore
      | chain tier => exact ih.chain h hbefore
      | unary => exact ih.unary h hbefore
      | primary => exact ih.primary h hbefore

end RoxLang.Descent
