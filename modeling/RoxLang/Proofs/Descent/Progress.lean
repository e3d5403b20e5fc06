/-
# `RoxLang.Proofs.Descent.Progress` — every attempt leaves less than it found

An attempt at a declaration drops at least the first token that it finds, whether it reads a
declaration there or recovers from a failure, and what it leaves is an end of what it found.  For a
declaration that is no block this is a use of the law of two readings, with one list on both sides;
a block is its brace, a loop over attempts, and what closes it.

So a loop over attempts needs no more rounds than there are tokens.  `attemptsFrom` is the loop with
as many, and it obeys equations in which no number of rounds is left.
-/
import RoxLang.Proofs.Descent.Parallel
import RoxLang.Proofs.Descent.Program

namespace RoxLang.Descent

theorem suffix_of_cons_suffix_cons {t u : Token} {ts us : List Token} (h : u :: us <:+ t :: ts) :
    us <:+ ts := by
  obtain heq | hsuffix := List.suffix_cons_iff.mp h
  · injection heq with _ heq
    exact heq ▸ List.suffix_refl us
  · exact (List.suffix_cons u us).trans hsuffix

/-! ## One attempt -/

/-- Reading respects lying behind a token. -/
theorem places_onward (t : Token) (ts : List Token) :
    Places (fun us us' => us = us' ∧ us <:+ t :: ts) (fun us us' => us = us' ∧ us <:+ ts) where
  ahead := by
    rintro us _ ⟨rfl, hus⟩
    cases us with
    | nil => exact .nil
    | cons u us =>
        have hbehind := suffix_of_cons_suffix_cons hus
        exact .cons ⟨rfl, hbehind⟩ fun _ => ⟨rfl, hbehind.trans (List.suffix_cons t ts)⟩
  recover := by
    rintro us _ ⟨rfl, hus⟩
    refine ⟨rfl, ?_⟩
    cases us with
    | nil => exact List.nil_suffix
    | cons u us => exact (synchronize_suffix_tail u us).trans (suffix_of_cons_suffix_cons hus)

/-- What an attempt leaves is an end of what stands behind the first token that it finds. -/
def Advances (attempt : List Token → Attempt) : Prop :=
  ∀ (t : Token) (ts : List Token), (attempt (t :: ts)).rest <:+ ts

variable {n : Nat} {attempt : List Token → Attempt} {stop : Token → Bool}

theorem attemptAll_suffix (h : Advances attempt) : ∀ (steps : Nat) (ts : List Token),
    (attemptAll attempt stop steps ts).rest <:+ ts
  | 0, [] | 0, _ :: _ | _ + 1, [] => List.suffix_refl _
  | steps + 1, t :: ts => by
      unfold attemptAll
      split
      · exact List.suffix_refl _
      · have hone : (attempt (t :: ts)).rest <:+ t :: ts := (h t ts).trans (List.suffix_cons t ts)
        exact (attemptAll_suffix h steps (attempt (t :: ts)).rest).trans hone

theorem close_readBlockEnd_suffix (recorded : List Failure) (body : Attempts) :
    (Attempt.close recorded (readBlockEnd body)).rest <:+ body.rest := by
  obtain ⟨failures, trees, rest⟩ := body
  cases rest with
  | nil => exact List.suffix_refl _
  | cons r rest =>
      unfold readBlockEnd
      by_cases hr : r.kind = .mark .rightBrace
      · rw [expect_cons hr]
        exact List.suffix_cons r rest
      · rw [expect_cons_ne hr]
        exact synchronize_suffix (r :: rest)

theorem attemptWithin_leftBrace {t : Token} (ht : t.kind = .mark .leftBrace) (n : Nat)
    (ts : List Token) : attemptWithin (n + 1) (t :: ts) =
      let body := attemptAll (attemptWithin n) closesBlock ts.length ts
      .close body.failures (readBlockEnd body) := by
  simp only [attemptWithin, ht]

theorem attemptWithin_var {t : Token} (ht : t.kind = .word .var) (n : Nat) (ts : List Token) :
    attemptWithin (n + 1) (t :: ts) = .close [] (readDeclaration n ts) := by
  simp only [attemptWithin, ht]

theorem attemptWithin_print {t : Token} (ht : t.kind = .word .print) (n : Nat) (ts : List Token) :
    attemptWithin (n + 1) (t :: ts) = .close [] (readPrint n ts) := by
  simp only [attemptWithin, ht]

/-- A token that starts no declaration of its own is read as the start of an expression. -/
theorem attemptWithin_other {t : Token} (hvar : t.kind ≠ .word .var)
    (hprint : t.kind ≠ .word .print) (hbrace : t.kind ≠ .mark .leftBrace) (n : Nat)
    (ts : List Token) : attemptWithin (n + 1) (t :: ts) = .close [] (readDiscard n (t :: ts)) := by
  simp only [attemptWithin]

theorem attemptWithin_advances : ∀ n : Nat, Advances (attemptWithin n) := by
  intro n
  induction n with
  | zero =>
      intro t ts
      exact synchronize_suffix_tail t ts
  | succ n ih =>
      intro t ts
      by_cases ht : t.kind = .mark .leftBrace
      · rw [attemptWithin_leftBrace ht]
        exact (close_readBlockEnd_suffix _ _).trans (attemptAll_suffix ih ts.length ts)
      · have hblock : ∀ u ∈ (t :: ts).head?, u.kind ≠ .mark .leftBrace := by
          rintro _ ⟨⟩
          exact ht
        have hstart : t :: ts = t :: ts ∧ t :: ts <:+ t :: ts := ⟨rfl, List.suffix_refl _⟩
        obtain ⟨_, _, hrest⟩ :=
          (parallel_attemptWithin (Nat.le_refl (n + 1)) (places_onward t ts) hstart hblock).rest
        exact hrest

/-! ## One attempt after another -/

/-- More rounds than there are tokens do not matter. -/
theorem attemptAll_stable (h : Advances attempt) : ∀ {steps steps' : Nat} {ts : List Token},
    ts.length ≤ steps → ts.length ≤ steps' →
      attemptAll attempt stop steps ts = attemptAll attempt stop steps' ts := by
  intro steps
  induction steps with
  | zero =>
      intro steps' ts hn _
      obtain rfl := List.length_eq_zero_iff.mp (Nat.le_zero.mp hn)
      cases steps' <;> rfl
  | succ steps ih =>
      intro steps' ts hn hn'
      cases ts with
      | nil => cases steps' <;> rfl
      | cons t ts =>
          cases steps' with
          | zero => exact absurd hn' (Nat.not_succ_le_zero _)
          | succ steps' =>
              have hless := (h t ts).length_le
              have hothers := @ih steps' (attempt (t :: ts)).rest
                (Nat.le_trans hless (Nat.le_of_succ_le_succ hn))
                (Nat.le_trans hless (Nat.le_of_succ_le_succ hn'))
              simp only [attemptAll, hothers]

/-- Declarations attempted one after another, up to the end or to a token at which to stop. -/
def attemptsFrom (n : Nat) (stop : Token → Bool) (ts : List Token) : Attempts :=
  attemptAll (attemptWithin n) stop ts.length ts

@[simp] theorem attemptsFrom_nil : attemptsFrom n stop [] = ⟨[], [], []⟩ := rfl

theorem attemptsFrom_of_stop {t : Token} (ht : stop t = true) (ts : List Token) :
    attemptsFrom n stop (t :: ts) = ⟨[], [], t :: ts⟩ := by
  simp only [attemptsFrom, List.length_cons, attemptAll, ht, if_true]

/-- What one attempt leaves together with what the attempts after it leave. -/
def Attempt.andThen (one : Attempt) (others : Attempts) : Attempts :=
  ⟨one.failures ++ others.failures, one.tree?.toList ++ others.trees, others.rest⟩

theorem Attempt.andThen_failures (one : Attempt) (others : Attempts) :
    (one.andThen others).failures = one.failures ++ others.failures := rfl

theorem attemptsFrom_cons {t : Token} (ht : stop t = false) (ts : List Token) :
    attemptsFrom n stop (t :: ts) = (attemptWithin n (t :: ts)).andThen
      (attemptsFrom n stop (attemptWithin n (t :: ts)).rest) := by
  have hless := attemptWithin_advances n t ts
  have hothers : attemptAll (attemptWithin n) stop ts.length (attemptWithin n (t :: ts)).rest
      = attemptsFrom n stop (attemptWithin n (t :: ts)).rest :=
    attemptAll_stable (attemptWithin_advances n) hless.length_le (Nat.le_refl _)
  rw [Attempt.andThen, ← hothers]
  simp only [attemptsFrom, List.length_cons, attemptAll, ht, Bool.false_eq_true, if_false]

theorem attemptsFrom_suffix (n : Nat) (stop : Token → Bool) (ts : List Token) :
    (attemptsFrom n stop ts).rest <:+ ts :=
  attemptAll_suffix (attemptWithin_advances n) ts.length ts

/-- A loop over declarations ends at the end of the tokens or where it has to stop. -/
theorem attemptsFrom_end (n : Nat) (stop : Token → Bool) : ∀ ts : List Token,
    ∀ t ∈ (attemptsFrom n stop ts).rest.head?, stop t = true
  | [] => nofun
  | t :: ts => by
      cases ht : stop t with
      | true =>
          rw [attemptsFrom_of_stop ht]
          rintro _ ⟨⟩
          exact ht
      | false =>
          have hless := (attemptWithin_advances n t ts).length_le
          rw [attemptsFrom_cons ht]
          exact attemptsFrom_end n stop (attemptWithin n (t :: ts)).rest
  termination_by ts => ts.length
  decreasing_by exact Nat.lt_succ_of_le hless

/-! ## Blocks -/

/-- A block: its brace, the declarations up to what closes it, and that. -/
theorem attemptWithin_block {t : Token} (ht : t.kind = .mark .leftBrace) (n : Nat)
    (ts : List Token) : attemptWithin (n + 1) (t :: ts) =
      .close (attemptsFrom n closesBlock ts).failures
        (readBlockEnd (attemptsFrom n closesBlock ts)) :=
  attemptWithin_leftBrace ht n ts

/-- Behind the declarations of a block comes the brace that closes it, or the end. -/
theorem readBlockEnd_cases (n : Nat) (ts : List Token) :
    (attemptsFrom n closesBlock ts).rest = [] ∧
        readBlockEnd (attemptsFrom n closesBlock ts) = .error (.here .blockEnd []) ∨
      ∃ r rest, (attemptsFrom n closesBlock ts).rest = r :: rest ∧ r.kind = .mark .rightBrace ∧
        readBlockEnd (attemptsFrom n closesBlock ts)
          = .ok (.block (attemptsFrom n closesBlock ts).trees, rest) := by
  have hend := attemptsFrom_end n closesBlock ts
  unfold readBlockEnd
  cases hrest : (attemptsFrom n closesBlock ts).rest with
  | nil => exact .inl ⟨rfl, rfl⟩
  | cons r rest =>
      have hr : r.kind = .mark .rightBrace := by
        simpa [closesBlock] using hend r (by rw [hrest]; rfl)
      exact .inr ⟨r, rest, rfl, hr, by rw [expect_cons hr]; rfl⟩

/-- The first failure of a block is that of one of its declarations, or it is met at the end. -/
theorem block_failures {l : Token} {ts : List Token} {f : Failure} {fs : List Failure}
    (hl : l.kind = .mark .leftBrace) (h : (attemptWithin (n + 1) (l :: ts)).failures = f :: fs) :
    (∃ gs, (attemptsFrom n closesBlock ts).failures = f :: gs) ∨
      (attemptsFrom n closesBlock ts).failures = [] ∧ (attemptsFrom n closesBlock ts).rest = [] ∧
        f = .here .blockEnd [] := by
  rw [attemptWithin_block hl] at h
  obtain ⟨hrest, hend⟩ | ⟨r, rest, -, -, hend⟩ := readBlockEnd_cases n ts
  · rw [hend] at h
    cases hbody : (attemptsFrom n closesBlock ts).failures with
    | nil =>
        rw [hbody] at h
        exact .inr ⟨rfl, hrest, (List.cons.inj h).1.symm⟩
    | cons g gs =>
        rw [hbody] at h
        exact .inl ⟨gs, by rw [(List.cons.inj h).1]⟩
  · rw [hend] at h
    exact .inl ⟨fs, h⟩

end RoxLang.Descent
