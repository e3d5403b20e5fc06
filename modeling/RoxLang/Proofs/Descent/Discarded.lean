/-
# `RoxLang.Proofs.Descent.Discarded` — what recovery drops

Recovery drops a shortest piece: at least one token, and from there on up to a boundary, which is
the end, a place behind a semicolon or one in front of a word that starts a statement.  So among the
dropped tokens only the last may be a semicolon, and only the first may start a statement.

The first is the token at which the declaration has failed.  Where a semicolon is missing in front
of a statement, that token is the word that starts it, so recovery drops the word, and the rest of
the statement is skipped with it: what is wrong in there is not reported.  A word further on stops
recovery, and what the statement behind it records is among the reported faults.
-/
import RoxLang.Proofs.Descent.Onward
import RoxLang.Proofs.Descent.Recovery

namespace RoxLang.Descent

/-! ## Skipping -/

/-- The tokens dropped between a place and the one where reading goes on. -/
structure Discards (place dropped rest : List Token) : Prop where
  split : place = dropped ++ rest
  advances : place ≠ [] → dropped ≠ []
  passesNoStart : ∀ t ∈ dropped.tail, t.kind.startsStatement = false
  passesNoEnd : ∀ t ∈ dropped.dropLast, t.kind ≠ .mark .semicolon
  boundary : rest = [] ∨ (∃ t ∈ dropped.getLast?, t.kind = .mark .semicolon) ∨
    ∃ t ∈ rest.head?, t.kind.startsStatement = true

theorem skipFrom_discards : ∀ (previous : Token) (ts : List Token),
    ∃ passed, Discards (previous :: ts) (previous :: passed) (skipFrom previous ts)
  | previous, [] => ⟨[], rfl, fun _ => List.cons_ne_nil _ _, List.forall_mem_nil _,
      List.forall_mem_nil _, .inl rfl⟩
  | previous, t :: ts => by
      by_cases hend : previous.kind = .mark .semicolon
      · refine ⟨[], ?_, fun _ => List.cons_ne_nil _ _, List.forall_mem_nil _, List.forall_mem_nil _,
          .inr (.inl ⟨_, rfl, hend⟩)⟩
        simp [skipFrom, hend]
      cases hstart : t.kind.startsStatement with
      | true =>
          have hskip : skipFrom previous (t :: ts) = t :: ts := by simp [skipFrom, hstart]
          rw [hskip]
          exact ⟨[], rfl, fun _ => List.cons_ne_nil _ _, List.forall_mem_nil _,
            List.forall_mem_nil _, .inr (.inr ⟨t, rfl, hstart⟩)⟩
      | false =>
          have hskip : skipFrom previous (t :: ts) = skipFrom t ts := by
            simp [skipFrom, hstart, hend]
          rw [hskip]
          obtain ⟨passed, h⟩ := skipFrom_discards t ts
          refine ⟨t :: passed, ?_, fun _ => List.cons_ne_nil _ _, ?_, ?_, ?_⟩
          · exact congrArg (previous :: ·) h.split
          · exact List.forall_mem_cons.mpr ⟨hstart, h.passesNoStart⟩
          · exact List.forall_mem_cons.mpr ⟨hend, h.passesNoEnd⟩
          · rw [List.getLast?_cons_cons]
            exact h.boundary

theorem synchronize_discards : ∀ place : List Token,
    ∃ dropped, Discards place dropped (synchronize place)
  | [] => ⟨[], rfl, id, List.forall_mem_nil _, List.forall_mem_nil _, .inl rfl⟩
  | t :: ts => by
      obtain ⟨passed, h⟩ := skipFrom_discards t ts
      exact ⟨t :: passed, h⟩

/-! ## Loops over declarations -/

/-- The loops over declarations that the reading of a program comes to, that of the program itself
and those of its blocks: the levels left in the loop, the tokens it stops at, and the place where it
stands. -/
inductive Comes (body : List Token) : (n : Nat) → (stop : Token → Bool) → List Token → Prop
  | start : Comes body levelLimit never body
  | next {n : Nat} {stop : Token → Bool} {t : Token} {ts : List Token} :
      Comes body n stop (t :: ts) → stop t = false →
      Comes body n stop (attemptWithin n (t :: ts)).rest
  | block {n : Nat} {stop : Token → Bool} {l : Token} {ts : List Token} :
      Comes body (n + 1) stop (l :: ts) → stop l = false → l.kind = .mark .leftBrace →
      Comes body n closesBlock ts

/-- What a loop records from some place on is recorded, in one piece, by the reading of the
program. -/
theorem Comes.failures_infix {body : List Token} {n : Nat} {stop : Token → Bool}
    {ts : List Token} (h : Comes body n stop ts) :
    (attemptsFrom n stop ts).failures <:+: (attemptsFrom levelLimit never body).failures := by
  induction h with
  | start => exact List.infix_refl _
  | next _ ht ih =>
      rw [attemptsFrom_cons ht, Attempt.andThen_failures] at ih
      exact (List.suffix_append _ _).isInfix.trans ih
  | @block n stop l ts _ ht hl ih =>
      rw [attemptsFrom_cons ht, Attempt.andThen_failures, attemptWithin_block hl] at ih
      have hbody := close_recorded_prefix (attemptsFrom n closesBlock ts).failures
        (readBlockEnd (attemptsFrom n closesBlock ts))
      exact (hbody.trans (List.prefix_append _ _)).isInfix.trans ih

/-- Wherever a declaration fails, in a program or in a block of it, recovery passes no word that
starts a statement: of the dropped tokens only the first, the one at which the declaration has
failed, may be such a word.  Reading goes on at the first boundary behind that token, and all that
is recorded from there on is reported after the failure, unless a number is misread and nothing is
reported at all. -/
theorem recovery_passes_no_start {ts body : List Token} {eof : Token}
    (hts : splitAtEof ts = some (body, eof)) {n : Nat} {stop : Token → Bool} {t : Token}
    {us : List Token} (h : Comes body n stop (t :: us)) (ht : stop t = false)
    (hfail : (attemptWithin n (t :: us)).tree? = none) :
    ∃ recorded f dropped, (attemptWithin n (t :: us)).failures = recorded ++ [f] ∧
      f.resume <:+ t :: us ∧ Discards f.resume dropped (attemptWithin n (t :: us)).rest ∧
      ((∀ u ∈ f.resume.head?, u.kind.startsStatement = false) →
        ∀ u ∈ dropped, u.kind.startsStatement = false) ∧
      (misreadOf ts = none → ∃ earlier later, blamesOf ts = earlier ++ f.blame body eof ::
        (attemptsFrom n stop (attemptWithin n (t :: us)).rest).failures.map (·.blame body eof)
          ++ later) := by
  obtain ⟨recorded, f, hfailures, hresume, hrest⟩ := attemptWithin_failed hfail
  obtain ⟨dropped, hdropped⟩ := synchronize_discards f.resume
  obtain ⟨earlier, later, hall⟩ := h.failures_infix
  rw [attemptsFrom_cons ht, Attempt.andThen_failures, hfailures] at hall
  refine ⟨recorded, f, dropped, hfailures, hresume, hrest ▸ hdropped, fun hfirst => ?_,
    fun hmisread => ⟨(earlier ++ recorded).map (·.blame body eof),
      later.map (·.blame body eof), ?_⟩⟩
  · cases dropped with
    | nil => exact List.forall_mem_nil _
    | cons u passed =>
        refine List.forall_mem_cons.mpr ⟨hfirst u ?_, hdropped.passesNoStart⟩
        rw [hdropped.split]
        rfl
  · rw [blamesOf_split hts hmisread, ← hall]
    simp only [List.map_append, List.map_cons, List.append_assoc, List.cons_append,
      List.nil_append]

/-- `1 + * 2 print 3; print ;`, where recovery from the `*` stops in front of the first `print`, and
the fault of the second is reported too. -/
theorem recovery_passes_no_start_two_faults :
    let one : Token := ⟨.number, "1", 0⟩
    let plus : Token := ⟨.mark .plus, "+", 0⟩
    let star : Token := ⟨.mark .star, "*", 0⟩
    let print : Token := ⟨.word .print, "print", 0⟩
    let semicolon : Token := ⟨.mark .semicolon, ";", 0⟩
    let eof : Token := ⟨.eof, "", 0⟩
    let rest : List Token := [print, one, semicolon, print, semicolon]
    (∃ f : Failure, f.resume = [star, one] ++ rest ∧ Discards f.resume [star, one] rest) ∧
      blamesOf ([one, plus, star, one] ++ rest ++ [eof])
        = [⟨.noExpression, star, 2⟩, ⟨.noExpression, semicolon, 8⟩] := by
  intro one plus star print semicolon eof rest
  let body : List Token := one :: plus :: star :: one :: rest
  have hattempt : attemptWithin levelLimit body
      = ⟨[.here .noExpression ([star, one] ++ rest)], none, rest⟩ := by
    subst one plus star print semicolon rest body
    rfl
  have hblames : blamesOf (body ++ [eof])
      = [⟨.noExpression, star, 2⟩, ⟨.noExpression, semicolon, 8⟩] := by
    subst one plus star print semicolon eof rest body
    rfl
  have hsplit : splitAtEof (body ++ [eof]) = some (body, eof) := rfl
  have hcomes : Comes body levelLimit never body := .start
  obtain ⟨recorded, f, dropped, hfailures, -, hdropped, -, -⟩ :=
    recovery_passes_no_start hsplit hcomes rfl (congrArg Attempt.tree? hattempt)
  rw [show attemptWithin levelLimit (one :: _) = _ from hattempt] at hfailures hdropped
  obtain ⟨rfl, hf⟩ := List.append_inj' (show [] ++ [_] = _ from hfailures) rfl
  obtain rfl := (List.cons.inj hf).1
  obtain rfl := List.append_cancel_right (show [star, one] ++ rest = _ from hdropped.split)
  exact ⟨⟨_, rfl, hdropped⟩, hblames⟩

/-- `1 print ;`, a statement without its semicolon in front of another one.  Recovery drops the word
`print` at which the first has failed, although it is not the first token of that declaration, and
the fault of the second is not reported. -/
theorem recovery_drops_start_at_fault :
    let one : Token := ⟨.number, "1", 0⟩
    let print : Token := ⟨.word .print, "print", 0⟩
    let semicolon : Token := ⟨.mark .semicolon, ";", 0⟩
    let eof : Token := ⟨.eof, "", 0⟩
    let body : List Token := [one, print, semicolon]
    Comes body levelLimit never body ∧ never one = false ∧
      attemptWithin levelLimit body = ⟨[.here .expressionEnd [print, semicolon]], none, []⟩ ∧
      print.kind.startsStatement = true ∧ print ≠ one ∧
      (attemptWithin levelLimit [print, semicolon]).failures ≠ [] ∧
      blamesOf (body ++ [eof]) = [⟨.expressionEnd, print, 1⟩] :=
  ⟨.start, rfl, rfl, rfl, by decide, List.cons_ne_nil _ _, rfl⟩

end RoxLang.Descent
