/-
# `RoxLang.Proofs.Descent.FirstFault` — the first fault ends the longest correct beginning

What is true of a rule that fails is true of a declaration, of a loop over declarations and of a
whole list: the tokens in front of the place where the reading breaks off can be completed to a
program, and with the next token, whatever it is followed by, they cannot.  Declarations that do not
fail are in front of that place, and the first that fails has the place in it.

So the first fault of a list is where the longest beginning that an accepted list has in common with
it ends.  Only the right side of a wrong assignment may be blamed behind that place, and what nests
too deeply: a token may be read although the levels that are left behind it are too few for all that
can follow.  Where a number is misread there is no first fault, and nothing is said.
-/
import Mathlib.Data.Nat.Find
import RoxLang.Proofs.Descent.Breaks
import RoxLang.Proofs.Descent.Onward
import RoxLang.Proofs.Descent.Recovery

namespace RoxLang.Descent

open Grammar
open RoxLang.Tree

/-! ## Statements without blocks -/

/-- The beginning of a declaration that is read within so many levels. -/
def BeginsStatement (n : Nat) (us : List Token) : Prop :=
  ∃ cs t, Declaration (us ++ cs) t ∧ t.ownLevels ≤ n

section

variable {n : Nat} {before ts : List Token} {f : Failure}

theorem readTerminated_breaks {reason : Reason} (h : readTerminated n reason ts = .error f)
    (hbefore : Awaited .assignment before) :
    BreaksOff before ts f (BeginsClosed n (.mark .semicolon)) (FailsOn (readTerminated n reason)) :=
  BreaksWithin.closed (readWithin_breaks n) h hbefore

/-- Behind a name, neither a value nor the end of the declaration. -/
theorem readDeclaration_fails {name : Token} {rest : List Token}
    (hequal : ∀ t ∈ rest.head?, t.kind ≠ .mark .equal)
    (hsemicolon : ∀ t ∈ rest.head?, t.kind ≠ .mark .semicolon) :
    FailsOn (readDeclaration n) (name :: rest) := by
  by_cases hname : name.kind = .identifier
  · cases rest with
    | nil => exact ⟨_, by simp only [readDeclaration, expect_cons hname, ok_bind]; rfl⟩
    | cons t rest =>
        refine ⟨.here .declarationEnd (t :: rest), ?_⟩
        simp only [readDeclaration, expect_cons hname, ok_bind, hequal t rfl, if_false,
          expect_cons_ne (hsemicolon t rfl)]
        rfl
  · exact ⟨_, by simp only [readDeclaration, expect_cons_ne hname]; rfl⟩

/-- Behind the word that starts a declaration. -/
theorem readDeclaration_breaks {var : Token} (hvar : var.kind = .word .var)
    (h : readDeclaration n ts = .error f) (hbefore : Opened before) :
    BreaksOff (before ++ [var]) ts f (fun us => BeginsStatement (n + 1) (var :: us))
      (FailsOn (readDeclaration n)) := by
  let semicolon : Token := ⟨.mark .semicolon, ";", 0⟩
  rcases error_of_bind h with h | ⟨⟨name, rest⟩, hname, hgo⟩
  · refine .here (expect_eq_error h).1 (fun _ => ?_) fun _ _ hnext => ?_
    · let name : Token := ⟨.identifier, "a", 0⟩
      exact ⟨[name, semicolon], .declare name, .declare hvar rfl rfl, Nat.le_add_left 1 n⟩
    · obtain ⟨g, hg⟩ := expect_sameNext h hnext
      exact ⟨g, by rw [readDeclaration, hg]; rfl⟩
  obtain ⟨rfl, hkind⟩ := expect_eq_ok hname
  by_cases hequal : ∃ t after, rest = t :: after ∧ t.kind = .mark .equal
  · obtain ⟨t, after, rfl, ht⟩ := hequal
    simp only [ht, if_true] at hgo
    rcases error_of_bind hgo with hvalue | ⟨r, -, hgo⟩
    · have hawaited : Awaited .assignment (before ++ [var] ++ [name, t]) := by
        simpa using Awaited.define hbefore hvar hkind ht
      refine (readTerminated_breaks hvalue hawaited).after [name, t] ?_ ?_
      · rintro us ⟨cs, vs, e, last, hsplit, hlast, hd, hl⟩
        refine ⟨cs, .define name e, ?_, Nat.succ_le_succ hl⟩
        have hdefine := Declaration.define hvar hkind ht hd hlast
        rw [← hsplit] at hdefine
        exact hdefine
      · rintro ps' us hkinds - ⟨g, hg⟩
        obtain ⟨name', _, rfl, hname', hkinds⟩ := hkinds.exists_cons
        obtain ⟨t', rfl, ht'⟩ := hkinds.exists_singleton
        have hequal : t'.kind = .mark .equal := ht'.trans ht
        refine ⟨g, ?_⟩
        simp only [List.cons_append, List.nil_append, readDeclaration,
          expect_cons (hname'.trans hkind), ok_bind, hequal, if_true, hg]
        rfl
    · cases hgo
  · -- the name has been read, and the declaration goes on neither with a value nor with its end
    have hother : ∀ t ∈ rest.head?, t.kind ≠ .mark .equal := by
      intro t ht hkind
      obtain ⟨after, rfl⟩ := List.head?_eq_some_iff.mp ht
      exact hequal ⟨t, after, rfl, hkind⟩
    have hend : f.blamed = rest ∧ ∀ t ∈ rest.head?, t.kind ≠ .mark .semicolon := by
      cases rest with
      | nil =>
          cases hgo
          exact ⟨rfl, fun t ht => by cases ht⟩
      | cons t after =>
          simp only [hother t rfl, if_false] at hgo
          rcases error_of_bind hgo with h | ⟨r, -, hgo⟩
          · exact expect_eq_error h
          · cases hgo
    refine ⟨[name], rest, rfl, .inl hend.1.symm, fun _ => ?_, fun _ _ _ hkinds hnext => ?_⟩
    · exact ⟨[semicolon], .declare name, .declare hvar hkind rfl, Nat.le_add_left 1 n⟩
    · obtain ⟨name', rfl, -⟩ := hkinds.exists_singleton
      have hsame {kind : Kind} (h : ∀ t ∈ rest.head?, t.kind ≠ kind) {place' : List Token}
          (hnext : SameNext rest place') : ∀ t ∈ place'.head?, t.kind ≠ kind := by
        intro t ht hkind
        cases rest with
        | nil =>
            obtain rfl := hnext.eq_nil
            cases ht
        | cons u us =>
            obtain ⟨t', us', rfl, hkind'⟩ := hnext.exists_cons
            cases ht
            exact h u rfl (hkind'.symm.trans hkind)
      exact readDeclaration_fails (hsame hother hnext) (hsame hend.2 hnext)

end

/-! ## Blocks and programs -/

/-- The beginning of a program that is read within so many levels. -/
def BeginsProgram (n : Nat) (us : List Token) : Prop :=
  ∃ cs trees, Program (us ++ cs) trees ∧ levelsOfProgram trees ≤ n

/-- An attempt at a declaration that records a failure. -/
def FailsAttempt (attempt : List Token → Attempt) (us : List Token) : Prop :=
  (attempt us).failures ≠ []

/-- What is wanted of an attempt at a declaration: where its first failure is, it breaks off. -/
def FirstBreaks (n : Nat) : Prop :=
  ∀ {before ts : List Token} {t : Token} {f : Failure} {fs : List Failure},
    (attemptWithin n (t :: ts)).failures = f :: fs → Opened before →
    BreaksOff before (t :: ts) f (BeginsStatement n) (FailsAttempt (attemptWithin n))

theorem close_error (recorded : List Failure) (g : Failure) :
    (Attempt.close recorded (.error g)).failures ≠ [] := by
  simp [Attempt.close]

theorem close_recorded {recorded : List Failure} (h : recorded ≠ [])
    (r : Except Failure (Tree × List Token)) : (Attempt.close recorded r).failures ≠ [] := by
  cases r with
  | ok r => exact h
  | error g => exact close_error recorded g

section

variable {n : Nat} {before ts : List Token} {f : Failure} {fs : List Failure}
  {stop : Token → Bool}

/-- Declarations that do not fail are read on the way to the first that does. -/
theorem attemptsFrom_breaks (one : FirstBreaks n)
    (hstop : ∀ {t u : Token}, u.kind = t.kind → stop u = stop t) :
    ∀ {ts before : List Token}, (attemptsFrom n stop ts).failures = f :: fs → Opened before →
      BreaksOff before ts f (BeginsProgram n) (fun us => (attemptsFrom n stop us).failures ≠ [])
  | [], _, h, _ => by cases h
  | t :: ts, before, h, hbefore => by
      cases ht : stop t with
      | true =>
          rw [attemptsFrom_of_stop ht] at h
          cases h
      | false =>
          rw [attemptsFrom_cons ht, Attempt.andThen_failures] at h
          cases hone : (attemptWithin n (t :: ts)).failures with
          | cons g gs =>
              rw [hone] at h
              cases h
              refine (one hone hbefore).imp ?_ ?_
              · rintro us ⟨cs, tree, hd, hl⟩
                exact ⟨cs, [tree], hd.program, Nat.max_le.mpr ⟨hl, Nat.zero_le n⟩⟩
              · intro us hnext hdead
                obtain ⟨u, us, rfl, hkind⟩ := hnext.exists_cons
                rw [attemptsFrom_cons ((hstop hkind).trans ht), Attempt.andThen_failures]
                exact List.append_ne_nil_of_left_ne_nil hdead _
          | nil =>
              rw [hone] at h
              have hless := (attemptWithin_advances n t ts).length_le
              obtain ⟨tree, -, us, hts, hd, hl⟩ := attemptWithin_sound n _ hone
              have hbreaks := attemptsFrom_breaks one hstop h (.declared hbefore hd)
              rw [hts]
              refine hbreaks.after us ?_ ?_
              · rintro vs ⟨cs, trees, hp, hlevels⟩
                refine ⟨cs, tree :: trees, ?_, Nat.max_le.mpr ⟨hl, hlevels⟩⟩
                rw [List.append_assoc]
                exact .cons hd hp
              · intro us' vs hkinds _ hdead
                obtain ⟨tree', hd', hlevels, -⟩ := hd.ofKinds hkinds
                have hread := attemptWithin_of_declaration hd' vs (hlevels ▸ hl)
                obtain ⟨u, us', rfl, -⟩ := hd'.start
                have hu : stop u = false := by
                  obtain ⟨t', us, rfl, -⟩ := hd.start
                  have hkind : u.kind = t'.kind := (Option.some.inj hkinds.kinds.next).symm
                  rw [← (List.cons.inj hts).1] at hkind
                  exact (hstop hkind).trans ht
                rw [List.cons_append] at hread ⊢
                rw [attemptsFrom_cons hu, hread]
                exact hdead
termination_by ts => ts.length
decreasing_by exact Nat.lt_succ_of_le hless

/-- A block whose statements have been read, at the end of the tokens. -/
theorem blockEnd_breaks {l : Token} (hl : l.kind = .mark .leftBrace)
    (hbody : (attemptsFrom n closesBlock ts).failures = [])
    (hrest : (attemptsFrom n closesBlock ts).rest = []) :
    BreaksOff before (l :: ts) (.here .blockEnd []) (BeginsStatement (n + 1))
      (FailsAttempt (attemptWithin (n + 1))) := by
  obtain ⟨us, hts, hp, hlevels, -⟩ :=
    attemptAll_sound (attemptWithin_sound n) hbody (Nat.le_refl _)
  rw [show (attemptAll _ _ _ ts).rest = [] from hrest, List.append_nil] at hts
  subst hts
  refine ⟨l :: ts, [], (List.append_nil _).symm, .inl rfl, fun _ => ?_,
    fun _ _ _ hkinds hnext => ?_⟩
  · let r : Token := ⟨.mark .rightBrace, "\x7d", 0⟩
    exact ⟨[r], .block _, .block hl hp rfl, Nat.succ_le_succ hlevels⟩
  · obtain ⟨l', ts', rfl, hl', hkinds⟩ := hkinds.exists_cons
    obtain rfl := hnext.eq_nil
    obtain ⟨trees, hp', hlevels', -⟩ := hp.ofKinds hkinds
    have hread : attemptsFrom n closesBlock ts' = ⟨[], trees, []⟩ := by
      have hall := @attemptAll_of_program _ _ hp' n ts'.length closesBlock []
        (hlevels' ▸ hlevels) (by rw [List.append_nil]) closesBlock_stopsAtBraces nofun
      rwa [List.append_nil] at hall
    rw [List.append_nil, FailsAttempt, attemptWithin_block (hl'.trans hl), hread]
    exact close_error _ _

/-- A failure inside of a block comes before one at its end. -/
theorem block_breaks (ih : FirstBreaks n) {l : Token} (hl : l.kind = .mark .leftBrace)
    (h : (attemptWithin (n + 1) (l :: ts)).failures = f :: fs) (hbefore : Opened before) :
    BreaksOff before (l :: ts) f (BeginsStatement (n + 1))
      (FailsAttempt (attemptWithin (n + 1))) := by
  obtain ⟨gs, hbody⟩ | ⟨hbody, hrest, rfl⟩ := block_failures hl h
  · have hkind {t u : Token} (h : u.kind = t.kind) : closesBlock u = closesBlock t := by
      rw [closesBlock, closesBlock, h]
    refine (attemptsFrom_breaks ih hkind hbody (hbefore.block hl)).after_one ?_ ?_
    · rintro us ⟨cs, trees, hp, hlevels⟩
      let r : Token := ⟨.mark .rightBrace, "\x7d", 0⟩
      refine ⟨cs ++ [r], .block trees, ?_, Nat.succ_le_succ hlevels⟩
      rw [List.cons_append, ← List.append_assoc]
      exact .block hl hp rfl
    · intro u us hu hdead
      rw [FailsAttempt, attemptWithin_block (hu.trans hl)]
      exact close_recorded hdead _
  · exact blockEnd_breaks hl hbody hrest

theorem attemptWithin_breaks (n : Nat) : FirstBreaks n := by
  induction n with
  | zero =>
      intro before ts t f fs h _
      cases h
      exact .here rfl (fun hf => absurd rfl hf) fun _ _ _ => close_error _ _
  | succ n ih =>
      intro before ts t f fs h hbefore
      by_cases hl : t.kind = .mark .leftBrace
      · exact block_breaks ih hl h hbefore
      by_cases hvar : t.kind = .word .var
      · rw [attemptWithin_var hvar] at h
        refine (readDeclaration_breaks hvar (close_failures h) hbefore).after_one id ?_
        rintro u us hu ⟨g, hg⟩
        rw [FailsAttempt, attemptWithin_var (hu.trans hvar), hg]
        exact close_error _ _
      by_cases hprint : t.kind = .word .print
      · rw [attemptWithin_print hprint] at h
        rcases error_of_bind (close_failures h) with h | ⟨r, -, hgo⟩
        · refine (readTerminated_breaks h (.print hbefore hprint)).after_one ?_ ?_
          · rintro us ⟨cs, vs, e, last, hsplit, hlast, hd, hlevels⟩
            refine ⟨cs, .print e, ?_, Nat.succ_le_succ hlevels⟩
            rw [List.cons_append, hsplit]
            exact .print hprint hd hlast
          · rintro u us hu ⟨g, hg⟩
            rw [FailsAttempt, attemptWithin_print (hu.trans hprint), readPrint, hg]
            exact close_error _ _
        · cases hgo
      · rw [attemptWithin_other hvar hprint hl] at h
        rcases error_of_bind (close_failures h) with h | ⟨r, -, hgo⟩
        · refine (readTerminated_breaks h (.discard hbefore)).imp ?_ ?_
          · rintro us ⟨cs, vs, e, last, hsplit, hlast, hd, hlevels⟩
            refine ⟨cs, .discard e, ?_, Nat.succ_le_succ hlevels⟩
            rw [hsplit]
            exact .discard hd hlast
          · rintro us hnext ⟨g, hg⟩
            obtain ⟨u, us, rfl, hu⟩ := hnext.exists_cons
            rw [← hu] at hvar hprint hl
            rw [FailsAttempt, attemptWithin_other hvar hprint hl, readDiscard, hg]
            exact close_error _ _
        · cases hgo

end

/-! ## Lists that are accepted -/

/-- The list is read without faults. -/
def Accepted (ts : List Token) : Prop := ∃ trees, parse ts = .ok trees

/-- Some accepted list has tokens of the same kinds at all indices up to this one. -/
def CorrectTo (ts : List Token) (i : Nat) : Prop :=
  ∃ us, Accepted us ∧ ∀ j ≤ i, us[j]?.map Token.kind = ts[j]?.map Token.kind

theorem Accepted.failures {ts : List Token} (h : Accepted ts) :
    (attemptsFrom levelLimit never (bodyOf ts)).failures = [] := by
  obtain ⟨trees, h⟩ := h
  cases hsplit : splitAtEof ts with
  | none =>
      rw [parse, hsplit] at h
      cases h
  | some split =>
      obtain ⟨body, eof⟩ := split
      rw [parse_of_split hsplit] at h
      obtain ⟨hfailures, -⟩ := Attempts.result_eq_ok_iff.mp h
      rwa [← body_of_split hsplit]

/-- An accepted list has no number that cannot be read, at least in front of its end. -/
theorem Accepted.converts {ts : List Token} (h : Accepted ts) : Converts (bodyOf ts) :=
  (attemptBody_sound h.failures).1.converts

theorem accepted_of_program {ts : List Token} {trees : List Tree} (h : Program ts trees)
    (hlevels : levelsOfProgram trees ≤ levelLimit) {eof : Token} (heof : eof.kind = .eof) :
    Accepted (ts ++ [eof]) := by
  refine ⟨trees, (parse_ok_iff heof ts trees).mpr ⟨?_, hlevels⟩⟩
  rw [bodyOf_append_eof h.endless heof]
  exact h

section

variable {ts us front place : List Token} {eof : Token}

theorem bodyOf_append (h : Endless front) (ts : List Token) :
    bodyOf (front ++ ts) = front ++ bodyOf ts := by
  have hplain : ∀ t ∈ front, (!t.isEof) = true := by
    intro t ht
    simp [Token.isEof, h t ht]
  exact List.takeWhile_append_of_pos hplain

/-- What comes next in a list comes next in its body, an end token being the end of the body. -/
theorem sameNext_bodyOf {next next' : Token} {rest : List Token} (hplace : Endless place)
    (heof : eof.kind = .eof) (h : place ++ [eof] = next :: rest) (hkind : next'.kind = next.kind)
    (rest' : List Token) : SameNext place (bodyOf (next' :: rest')) := by
  cases place with
  | nil =>
      obtain rfl := (List.cons.inj h).1
      have hend : ¬ (!next'.isEof) = true := by simp [Token.isEof, hkind, heof]
      rw [bodyOf, List.takeWhile_cons_of_neg (p := fun t : Token => !t.isEof) hend]
      rfl
  | cons t place =>
      obtain rfl := (List.cons.inj h).1
      have hplain : (!next'.isEof) = true := by
        simp [Token.isEof, hkind, (endless_cons.mp hplace).1]
      rw [bodyOf, List.takeWhile_cons_of_pos (p := fun t : Token => !t.isEof) hplain]
      exact congrArg some hkind.symm

/-- A list with the same kinds up to and including the next token behind some tokens has a body with
the same kinds up to there. -/
theorem exists_body (hfront : Endless front) (hplace : Endless place) (heof : eof.kind = .eof)
    (h : ∀ j ≤ front.length,
      us[j]?.map Token.kind = (front ++ place ++ [eof])[j]?.map Token.kind) :
    ∃ front' place', bodyOf us = front' ++ place' ∧ SameKinds front front' ∧
      SameNext place place' := by
  obtain ⟨next, rest, hnext⟩ : ∃ next rest, place ++ [eof] = next :: rest :=
    List.exists_cons_of_ne_nil (List.append_ne_nil_of_right_ne_nil place (List.cons_ne_nil eof []))
  have hkinds : SameKinds (front ++ [next]) (us.take (front.length + 1)) := by
    have hlist : front ++ place ++ [eof] = front ++ [next] ++ rest := by
      rw [List.append_assoc, hnext, List.append_assoc]
      rfl
    have htake : front ++ [next] = (front ++ place ++ [eof]).take (front.length + 1) := by
      rw [hlist, List.take_left' (by simp)]
    rw [htake]
    refine List.ext_getElem? fun j => ?_
    rw [List.getElem?_map, List.getElem?_map, List.getElem?_take, List.getElem?_take]
    split
    · next hj => exact (h j (Nat.le_of_lt_succ hj)).symm
    · rfl
  obtain ⟨front', last, htake, hfront', hlast⟩ := hkinds.exists_append
  obtain ⟨next', rfl, hnext'⟩ := hlast.exists_singleton
  have hus : us = front' ++ next' :: us.drop (front.length + 1) := by
    rw [← List.singleton_append, ← List.append_assoc, ← htake, List.take_append_drop]
  refine ⟨front', bodyOf (next' :: us.drop (front.length + 1)), ?_, hfront', ?_⟩
  · rw [← bodyOf_append (endless_ofKinds hfront hfront'), ← hus]
  · exact sameNext_bodyOf hplace heof hnext hnext' _

end

/-! ## The first fault -/

/-- Of the indices with a property, up to one that does not have it, one is the first without. -/
theorem exists_first_not {P : Nat → Prop} {k : Nat} (h : ¬ P k) :
    ∃ v ≤ k, (∀ i < v, P i) ∧ ¬ P v := by
  classical
  have hsome : ∃ i, ¬ P i := ⟨k, h⟩
  exact ⟨Nat.find hsome, Nat.find_min' hsome h, fun i hi => not_not.mp (Nat.find_min hsome hi),
    Nat.find_spec hsome⟩

/-- Where a list breaks off, no accepted list agrees with it up to and including the next token. -/
theorem not_correctTo_of_dead {front place : List Token} {eof : Token} (hfront : Endless front)
    (hplace : Endless place) (heof : eof.kind = .eof)
    (hdead : ∀ {us' place'}, StandIn front us' → SameNext place place' →
      (attemptsFrom levelLimit never (us' ++ place')).failures ≠ []) :
    ¬ CorrectTo (front ++ place ++ [eof]) front.length := by
  rintro ⟨us, haccepted, hsame⟩
  obtain ⟨us', place', hbodyOf, hkinds, hnext⟩ := exists_body hfront hplace heof hsame
  have hnone := haccepted.failures
  have hconverts := haccepted.converts
  rw [hbodyOf] at hnone hconverts
  exact hdead ⟨hkinds, (List.forall_mem_append.mp hconverts).1⟩ hnext hnone

/-- In front of a token behind which a program can be completed, a list is correct. -/
theorem correctTo_of_begins {front : List Token} {eof : Token} (heof : eof.kind = .eof)
    (h : BeginsProgram levelLimit front) (rest : List Token) {i : Nat} (hi : i < front.length) :
    CorrectTo (front ++ rest) i := by
  obtain ⟨cs, trees, hp, hlevels⟩ := h
  refine ⟨front ++ cs ++ [eof], accepted_of_program hp hlevels heof, fun j hj => ?_⟩
  have hj : j < front.length := Nat.lt_of_le_of_lt hj hi
  rw [List.append_assoc, List.getElem?_append_left hj, List.getElem?_append_left hj]

/-- What is blamed stands at the place where the reading breaks off or behind it, and behind it only
in the right side of a wrong assignment. -/
theorem exists_blamed {before front place : List Token} {f : Failure}
    (h : place = f.blamed ∨ Deferred (before ++ front) place f) :
    ∃ mid, place = mid ++ f.blamed ∧ (mid = [] ∨ ∃ equal after n, mid = equal :: after ∧
      Misassigned (before ++ front) equal ∧
        readWithin n .assignment (after ++ f.blamed) = .error f) := by
  rcases h with rfl | ⟨equal, rest, n, rfl, hwrong, hvalue⟩
  · exact ⟨[], rfl, .inl rfl⟩
  · obtain ⟨after, rfl⟩ := blamed_suffix hvalue
    exact ⟨equal :: after, rfl, .inr ⟨equal, after, n, rfl, hwrong, hvalue⟩⟩

/-- The first fault of a rejected list is where the longest beginning ends that it has in common
with accepted lists.  The right side of a wrong assignment may be blamed behind that place, and so
may a list that nests too deeply, but nothing is blamed in front of it: no list with the same tokens
up to the blamed one is accepted.  A list without any fault is rejected for a number whose lexeme
reads as none. -/
theorem first_fault_ends_correct_beginning {body : List Token} {eof : Token} {r : Rejection}
    (hbody : ∀ t ∈ body, t.kind ≠ .eof) (heof : eof.kind = .eof)
    (h : parse (body ++ [eof]) = .error r) :
    (∃ t ∈ body, t.kind = .number ∧ Number.ofText? t.lexeme = none ∧ r = .misread t) ∨
    ∃ b bs v, r = .faults (b :: bs) ∧ (body ++ [eof])[b.index]? = some b.token ∧
      (∀ i < v, CorrectTo (body ++ [eof]) i) ∧ ¬ CorrectTo (body ++ [eof]) v ∧ v ≤ b.index ∧
      (b.reason ≠ .nestingTooDeep → b.index = v ∨ v < b.index ∧ ∃ equal,
        (body ++ [eof])[v]? = some equal ∧ Misassigned (body.take v) equal ∧
          ∃ n f, readWithin n .assignment (body.drop (v + 1)) = .error f ∧ f.blame body eof = b) ∧
      ∀ us, (∀ j ≤ b.index, us[j]? = (body ++ [eof])[j]?) → ¬ Accepted us := by
  have hsplit := splitAtEof_append_eof hbody heof
  obtain ⟨t, ht, hconverts, rfl⟩ | ⟨f, fs, hfailures, hmisread, rfl⟩ :=
    failures_of_rejected hsplit h
  · obtain ⟨hnumber, hnone⟩ := Token.not_converts_iff.mp hconverts
    exact .inl ⟨t, ht, hnumber, hnone, rfl⟩
  have hreason : f.reason ≠ .misreadNumber :=
    reason_ne_misread hsplit hmisread f (hfailures ▸ List.mem_cons_self ..)
  have hkind {t u : Token} (_ : u.kind = t.kind) : never u = never t := rfl
  obtain ⟨front, place, rfl, hplace, hviable, hdead⟩ :=
    attemptsFrom_breaks (attemptWithin_breaks levelLimit) hkind hfailures .start
  obtain ⟨hfront, hrest⟩ := endless_append.mp hbody
  have hnot := not_correctTo_of_dead hfront hrest heof (hdead hreason)
  obtain ⟨mid, rfl, hmid⟩ := exists_blamed hplace
  have hindex : (f.blame (front ++ (mid ++ f.blamed)) eof).index = front.length + mid.length := by
    simp only [Failure.blame, List.length_append]
    omega
  have htoken := (index_of_blame (List.append_assoc front mid f.blamed).symm eof).1
  obtain ⟨v, hv, hcorrect, hwrong⟩ := exists_first_not hnot
  refine .inr ⟨_, _, v, rfl, htoken, hcorrect, hwrong, ?_, fun hf => ?_,
    fun us hsame haccepted => ?_⟩
  · omega
  · -- where nothing nests too deeply, the tokens in front of the place can be completed
    have hfirst : v = front.length := by
      refine Nat.le_antisymm hv (Nat.not_lt.mp fun hlt => hwrong ?_)
      rw [List.append_assoc]
      exact correctTo_of_begins heof (hviable hf) _ hlt
    subst hfirst
    rw [hindex]
    rcases hmid with rfl | ⟨equal, after, n, rfl, hwrongTarget, hvalue⟩
    · exact .inl rfl
    · refine .inr ⟨?_, equal, ?_, ?_, n, f, ?_, rfl⟩
      · exact Nat.lt_add_of_pos_right (Nat.succ_pos _)
      · simp
      · simpa using hwrongTarget
      · simpa using hvalue
  · refine hnot ⟨us, haccepted, fun j hj => ?_⟩
    rw [hsame j (by omega)]

/-- `a b ;`, which is correct up to its first name and not up to its second. -/
theorem first_fault_ends_correct_beginning_two_names :
    let a : Token := ⟨.identifier, "a", 0⟩
    let b : Token := ⟨.identifier, "b", 0⟩
    let ts : List Token := [a, b, ⟨.mark .semicolon, ";", 0⟩] ++ [⟨.eof, "", 0⟩]
    parse ts = .error (.faults [⟨.expressionEnd, b, 1⟩]) ∧ CorrectTo ts 0 ∧ ¬ CorrectTo ts 1 := by
  intro a b ts
  have hparse : parse ts = .error (.faults [⟨.expressionEnd, b, 1⟩]) := rfl
  obtain ⟨_, -, -, -, hmisread⟩ |
      ⟨first, others, v, hfaults, -, hcorrect, hwrong, hle, hplace, -⟩ :=
    first_fault_ends_correct_beginning (by decide) rfl hparse
  · cases hmisread
  obtain ⟨rfl, rfl⟩ := List.cons.inj (Rejection.faults.inj hfaults)
  have hv : v = 1 := by
    rcases hplace (by decide) with hv | ⟨hlt, equal, hequal, ⟨hkind, -⟩, -⟩
    · exact hv.symm
    · -- in front of the second name there is no `=`
      obtain rfl : v = 0 := Nat.lt_one_iff.mp hlt
      cases hequal
      cases hkind
  subst hv
  exact ⟨hparse, hcorrect 0 Nat.zero_lt_one, hwrong⟩

/-! ## Nesting too deeply -/

section

variable {n k : Nat} {ts : List Token} {f : Failure}

/-- A group as the right operand of a sum takes seven levels. -/
theorem readWithin_sumOfGroup {a p l : Token} (ha : a.kind = .number) (hread : a.Converts)
    (hp : p.kind = .mark .plus) (hl : l.kind = .mark .leftParen)
    (h : readWithin n .assignment ts = .error f) :
    readWithin (n + 7) .assignment (a :: p :: l :: ts) = .error f := by
  have hgroup : readWithin (n + 1) .primary (l :: ts) = .error f := by
    rw [readWithin_leftParen hl, readClosed, h]
    rfl
  have hunary : readWithin (n + 2) .unary (l :: ts) = .error f := by
    rw [readWithin, if_neg (by rw [hl]; exact Bool.false_ne_true), hgroup]
  have hright : readWithin (n + 3) (.chain .factor) (l :: ts) = .error f := by
    rw [readWithin, Rule.operandOf, hunary]
    rfl
  have hends : Ends (.chain .factor) (p :: l :: ts) := by
    intro t ht rank hrank
    cases ht
    rw [hp] at hrank
    cases hrank
    decide
  obtain ⟨x, hx⟩ := Option.isSome_iff_exists.mp (hread ha)
  have hnumber : Derives (.operandOf .factor) [a] _ := .primary (.atom (.number ha hx))
  have hleft : readWithin (n + 3) (.chain .factor) (a :: p :: l :: ts) = .ok (_, p :: l :: ts) :=
    readWithin_of_derives (.operand hnumber) (Nat.le_add_left 3 n) hends
  have hsum : readWithin (n + 4) (.chain .term) (a :: p :: l :: ts) = .error f := by
    rw [readWithin, Rule.operandOf, hleft, ok_bind]
    simp only [List.length_cons, readSteps, hp]
    rw [hright]
    rfl
  rw [readWithin, readWithin, Rule.operandOf, readWithin, Rule.operandOf, hsum]
  rfl

/-- One sum in a group of another, so many deep: `1 + (1 + (1 + (`. -/
def openSums : Nat → List Token
  | 0 => []
  | k + 1 => ⟨.number, "1", 0⟩ :: ⟨.mark .plus, "+", 0⟩ :: ⟨.mark .leftParen, "(", 0⟩ :: openSums k

theorem readWithin_openSums (h : readWithin n .assignment ts = .error f) : ∀ {k : Nat}
    {us : List Token}, StandIn (openSums k) us →
      readWithin (n + 7 * k) .assignment (us ++ ts) = .error f := by
  intro k
  induction k with
  | zero =>
      intro us hus
      obtain rfl := hus.eq_nil
      exact h
  | succ k ih =>
      intro us hus
      have hconverts := hus.converts
      obtain ⟨a, us, rfl, ha, hus⟩ := hus.exists_cons
      obtain ⟨p, us, rfl, hp, hus⟩ := hus.exists_cons
      obtain ⟨l, us, rfl, hl, hus⟩ := hus.exists_cons
      exact readWithin_sumOfGroup ha (hconverts a (List.mem_cons_self ..)) hp hl (ih hus)

theorem openSums_add (j k : Nat) : openSums (j + k) = openSums j ++ openSums k := by
  induction j with
  | zero => rw [Nat.zero_add]; rfl
  | succ j ih => rw [Nat.succ_add, openSums, ih]; rfl

theorem openSums_succ (k : Nat) :
    ∃ front, openSums (k + 1) = front ++ [⟨.mark .leftParen, "(", 0⟩] := by
  refine ⟨openSums k ++ [⟨.number, "1", 0⟩, ⟨.mark .plus, "+", 0⟩], ?_⟩
  rw [openSums_add, List.append_assoc]
  rfl

theorem kind_of_mem_openSums {t : Token} : ∀ {k : Nat}, t ∈ openSums k →
    t.kind ∈ [.number, .mark .plus, .mark .leftParen]
  | 0, h => by cases h
  | k + 1, h => by
      simp only [openSums, List.mem_cons] at h
      rcases h with rfl | rfl | rfl | h
      · decide
      · decide
      · decide
      · exact kind_of_mem_openSums h

theorem endless_openSums (k : Nat) : Endless (openSums k) := by
  intro t ht heof
  have hkind := kind_of_mem_openSums ht
  rw [heof] at hkind
  exact absurd hkind (by decide)

theorem converts_openSums : ∀ k : Nat, Converts (openSums k)
  | 0 => List.forall_mem_nil _
  | k + 1 => List.forall_mem_cons.mpr ⟨by decide, List.forall_mem_cons.mpr ⟨by decide,
      List.forall_mem_cons.mpr ⟨by decide, converts_openSums k⟩⟩⟩

/-- Five levels are too few for any expression. -/
theorem readWithin_five (ts : List Token) :
    readWithin 5 .assignment ts = .error (.here .nestingTooDeep ts) := rfl

/-- Behind so many parentheses all levels but five have been taken. -/
theorem attemptsFrom_openSums (hk : levelLimit = 5 + 7 * (k + 1) + 1) {us : List Token}
    (hus : StandIn (openSums (k + 1)) us) (ts : List Token) :
    ∃ fs, (attemptsFrom levelLimit never (us ++ ts)).failures
      = .here .nestingTooDeep ts :: fs := by
  have hread := readWithin_openSums (readWithin_five ts) hus
  obtain ⟨a, us, rfl, ha, -⟩ := hus.exists_cons
  rw [List.cons_append] at hread ⊢
  have hvar : a.kind ≠ .word .var := by rw [ha]; decide
  have hprint : a.kind ≠ .word .print := by rw [ha]; decide
  have hbrace : a.kind ≠ .mark .leftBrace := by rw [ha]; decide
  rw [attemptsFrom_cons rfl, Attempt.andThen_failures, hk, attemptWithin_other hvar hprint hbrace,
    readDiscard, readTerminated, hread]
  exact ⟨_, rfl⟩

/-- Where sums nest too deeply, it is the token behind a parenthesis that is blamed.  But the five
levels that are left there are too few for any expression, so the correct beginning ends in front of
the parenthesis. -/
theorem parse_openSums (hk : levelLimit = 5 + 7 * (k + 1) + 1) {rest : List Token} {eof : Token}
    (hrest : Endless rest) (hread : Converts rest) (heof : eof.kind = .eof) : ∃ b bs v,
      parse (openSums (k + 1) ++ rest ++ [eof]) = .error (.faults (b :: bs)) ∧
      b.reason = .nestingTooDeep ∧ b.token = rest.head?.getD eof ∧ v < b.index ∧
      (∀ i < v, CorrectTo (openSums (k + 1) ++ rest ++ [eof]) i) ∧
      ¬ CorrectTo (openSums (k + 1) ++ rest ++ [eof]) v := by
  have hendless := endless_openSums (k + 1)
  have hbody : Endless (openSums (k + 1) ++ rest) := endless_append.mpr ⟨hendless, hrest⟩
  have hconverts := converts_openSums (k + 1)
  obtain ⟨fs, hfailures⟩ := attemptsFrom_openSums hk ⟨rfl, hconverts⟩ rest
  have hsplit := splitAtEof_append_eof hbody heof
  have hmisread := misreadOf_of_converts hsplit (List.forall_mem_append.mpr ⟨hconverts, hread⟩)
  have hparse := rejected_of_failures hsplit hfailures hmisread
  obtain ⟨front, hopen⟩ := openSums_succ k
  have hwrong : ¬ CorrectTo (openSums (k + 1) ++ rest ++ [eof]) front.length := by
    obtain ⟨hfront, hlast⟩ := endless_append.mp (hopen ▸ hendless)
    rw [hopen, List.append_assoc front]
    refine not_correctTo_of_dead hfront (endless_append.mpr ⟨hlast, hrest⟩) heof ?_
    intro us' place' hkinds hnext
    obtain ⟨l, after, rfl, hl⟩ := hnext.exists_cons
    have hopened : StandIn (openSums (k + 1)) (us' ++ [l]) := by
      refine ⟨?_, List.forall_mem_append.mpr ⟨hkinds.converts, List.forall_mem_singleton.mpr ?_⟩⟩
      · rw [hopen, SameKinds, List.map_append, List.map_append, hkinds.kinds]
        exact congrArg (_ ++ [·]) hl.symm
      · exact Token.converts_of_ne (by simp [hl])
    obtain ⟨gs, hgs⟩ := attemptsFrom_openSums hk hopened after
    rw [← List.singleton_append, ← List.append_assoc, hgs]
    exact List.cons_ne_nil _ _
  obtain ⟨v, hv, hcorrect, hwrong⟩ := exists_first_not hwrong
  refine ⟨_, _, v, hparse, rfl, rfl, ?_, hcorrect, hwrong⟩
  have hlength := congrArg List.length hopen
  rw [List.length_append, List.length_singleton] at hlength
  simp only [Failure.blame, Failure.here, List.length_append]
  omega

/-- `1 + (1 + (1 + (`, nested too deeply: without any `=`, it is blamed behind the place where its
longest correct beginning ends. -/
theorem too_deep_fault_behind_correct_beginning :
    let eof : Token := ⟨.eof, "", 0⟩
    let ts := openSums 200 ++ [eof]
    ∃ b bs v, parse ts = .error (.faults (b :: bs)) ∧ b.reason = .nestingTooDeep ∧
      b.token = ⟨.number, "1", 0⟩ ∧ v < b.index ∧ (∀ i < v, CorrectTo ts i) ∧
      ¬ CorrectTo ts v ∧ ∀ t ∈ ts, t.kind ≠ .mark .equal := by
  intro eof ts
  have hts : ts = openSums 142 ++ openSums 58 ++ [eof] :=
    congrArg (· ++ [eof]) (openSums_add 142 58)
  have heof : eof.kind = .eof := rfl
  obtain ⟨b, bs, v, hparse, hreason, htoken, hv, hcorrect, hwrong⟩ :=
    parse_openSums (k := 141) rfl (endless_openSums 58) (converts_openSums 58) heof
  rw [← hts] at hparse hcorrect hwrong
  refine ⟨b, bs, v, hparse, hreason, htoken, hv, hcorrect, hwrong, ?_⟩
  refine List.forall_mem_append.mpr ⟨fun t ht hequal => ?_, ?_⟩
  · have hkind := kind_of_mem_openSums ht
    rw [hequal] at hkind
    exact absurd hkind (by decide)
  · exact List.forall_mem_singleton.mpr (by decide)

end

end RoxLang.Descent
