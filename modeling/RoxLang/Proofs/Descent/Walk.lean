/-
# `RoxLang.Proofs.Descent.Walk` — reading comes to its end, and in order

The watched cursor reads every list that ends with an end token, and gives what the descent gives:
no look is out of place, no round stands still and no loop is cut short.  What ends the reading
early is a number that is misread, and then it ends right behind that number.  That recovery never
looks before the first token is due to the loops, which attempt no declaration at the end.  So where
recovery cannot move on, because the declaration has failed at the end, there is a token in front of
that end, the one at which the declaration has started.

The positions of the blamed tokens then are the order of the failures of the descent.  The cursor
remembers in addition the left braces of the blocks that it has entered.  A block that is not left
again is blamed at the end, and no other block is.
-/
import RoxLang.Proofs.Descent.Order
import RoxLang.Proofs.Descent.Recovery
import RoxLang.Proofs.Descent.Tracks

namespace RoxLang.Descent

/-! ## Recovery -/

section

variable {tokens body ts : List Token} {eof t : Token} {c c' : Cursor}

theorem walkSkip_nil (h : Ended tokens body eof) {rounds : Nat} (hrounds : 0 < rounds)
    (hc : At body c []) : walkSkip tokens rounds c = .ok () c := by
  obtain ⟨rounds, rfl⟩ := Nat.exists_eq_succ_of_ne_zero (Nat.ne_of_gt hrounds)
  rw [walkSkip, walk_bind_ok (peek_nil h hc), if_pos h.isEof]
  rfl

/-- Skipping, from the token before the cursor. -/
theorem walkSkip_eq (h : Ended tokens body eof) : ∀ {rounds : Nat} {c : Cursor} {t : Token}
    {ts : List Token}, At body c (t :: ts) → ts.length < rounds →
      ∃ p, walkSkip tokens rounds c.onward = .ok () (c.to p) ∧
        At body (c.to p) (skipFrom t ts) := by
  intro rounds
  induction rounds with
  | zero => exact fun _ hrounds => absurd hrounds (Nat.not_lt_zero _)
  | succ rounds ih =>
      intro c t ts hc hrounds
      have honward := hc.onward
      cases ts with
      | nil => exact ⟨c.position + 1, walkSkip_nil h (Nat.zero_lt_succ _) honward, honward⟩
      | cons u us =>
          rw [walkSkip, walk_bind_ok (peek_cons h honward),
            if_neg (ne_true_of_eq_false (h.isEof_of_mem honward.mem)),
            walk_bind_ok (previous_onward h hc), skipFrom]
          split
          · exact ⟨c.position + 1, rfl, honward⟩
          · rw [walk_bind_ok (advance_cons h honward)]
            exact ih honward (Nat.lt_of_succ_lt_succ hrounds)

/-- A fault added to what is recorded. -/
def Cursor.record (c : Cursor) (b : Blame) : Cursor := { c with recorded := c.recorded ++ [b] }

theorem recover_eq (h : Ended tokens body eof) (hbody : body ≠ []) (hc : At body c ts) (b : Blame) :
    ∃ p, recover tokens b c = .ok none ((c.record b).to p) ∧ At body (c.to p) (synchronize ts) := by
  have hrecord : At body (c.record b) ts := ⟨hc.le, hc.drop⟩
  cases ts with
  | nil =>
      have hrounds : 0 < tokens.length := hc.length_lt h
      obtain ⟨t, hadvance⟩ := advance_nil h hrecord hbody
      refine ⟨c.position, ?_, hc⟩
      show ((advance tokens >>= fun _ => _) (c.record b)) = _
      rw [walk_bind_ok hadvance, walk_bind_ok (walkSkip_nil h hrounds hrecord)]
      rfl
  | cons t ts =>
      obtain ⟨p, hskip, hp⟩ := walkSkip_eq h hrecord (hc.onward.length_lt h)
      refine ⟨p, ?_, ⟨hp.le, hp.drop⟩⟩
      show ((advance tokens >>= fun _ => _) (c.record b)) = _
      rw [walk_bind_ok (advance_cons h hrecord), walk_bind_ok hskip]
      rfl

theorem recovering_ok {walk : Walk Tree} {tree : Tree} (hwalk : walk c = .ok tree c') :
    recovering tokens walk c = .ok (some tree) c' := by
  show EStateM.tryCatch (walk >>= fun tree => pure (some tree)) _ c = _
  rw [EStateM.tryCatch, walk_bind_ok hwalk]
  rfl

theorem recovering_error {walk : Walk Tree} {i : Interrupt} (hwalk : walk c = .error i c') :
    recovering tokens walk c = recoverFrom tokens i c' := by
  show EStateM.tryCatch (walk >>= fun tree => pure (some tree)) _ c = _
  rw [EStateM.tryCatch, walk_bind_error hwalk]
  rfl

end

/-! ## Declarations and blocks -/

/-- The blocks that are entered and not left are those that are blamed for it. -/
structure Enters (body : List Token) (c : Cursor) (fs : List Failure) (c' : Cursor)
    (inner : List Nat) : Prop where
  entered : c'.entered = inner ++ c.entered
  length : inner.length = fs.countP (·.reason = .blockEnd)
  braces : ∀ i ∈ inner, body[i]?.map Token.kind = some (.mark .leftBrace)

/-- What reading leaves behind when it has got to a place and has met some failures on its way. -/
structure Leaves (body : List Token) (eof : Token) (c : Cursor) (fs : List Failure)
    (rest : List Token) (c' : Cursor) : Prop where
  place : At body c' rest
  recorded : c'.recorded = c.recorded ++ fs.map (·.blame body eof)
  enters : ∃ inner, Enters body c fs c' inner

/-- What reading leaves behind when it has got to a place and stops there, inside of any blocks. -/
structure Stops (body : List Token) (eof : Token) (c : Cursor) (fs : List Failure)
    (rest : List Token) (c' : Cursor) : Prop where
  place : At body c' rest
  recorded : c'.recorded = c.recorded ++ fs.map (·.blame body eof)
  entered : ∃ inner, c'.entered = inner ++ c.entered ∧
    ∀ i ∈ inner, body[i]?.map Token.kind = some (.mark .leftBrace)

section

variable {tokens body ts rest : List Token} {eof t : Token} {c c' c'' : Cursor} {n : Nat}
  {fs gs : List Failure}

theorem Enters.refl (body : List Token) (c : Cursor) : Enters body c [] c [] :=
  ⟨rfl, rfl, List.forall_mem_nil _⟩

theorem Enters.append {inner inner' : List Nat} (h : Enters body c fs c' inner)
    (h' : Enters body c' gs c'' inner') : Enters body c (fs ++ gs) c'' (inner' ++ inner) where
  entered := by rw [h'.entered, h.entered, List.append_assoc]
  length := by rw [List.length_append, List.countP_append, h.length, h'.length, Nat.add_comm]
  braces := List.forall_mem_append.mpr ⟨h'.braces, h.braces⟩

theorem Leaves.refl (hc : At body c ts) : Leaves body eof c [] ts c :=
  ⟨hc, (List.append_nil _).symm, [], .refl body c⟩

theorem Leaves.append (h : Leaves body eof c fs ts c') (h' : Leaves body eof c' gs rest c'') :
    Leaves body eof c (fs ++ gs) rest c'' := by
  obtain ⟨inner, hinner⟩ := h.enters
  obtain ⟨inner', hinner'⟩ := h'.enters
  refine ⟨h'.place, ?_, _, hinner.append hinner'⟩
  rw [h'.recorded, h.recorded, List.map_append, List.append_assoc]

theorem Leaves.stops (h : Leaves body eof c fs ts c') (h' : Stops body eof c' gs rest c'') :
    Stops body eof c (fs ++ gs) rest c'' := by
  obtain ⟨inner, hinner⟩ := h.enters
  obtain ⟨inner', hentered, hbraces⟩ := h'.entered
  refine ⟨h'.place, ?_, inner' ++ inner, ?_, List.forall_mem_append.mpr ⟨hbraces, hinner.braces⟩⟩
  · rw [h'.recorded, h.recorded, List.map_append, List.append_assoc]
  · rw [hentered, hinner.entered, List.append_assoc]

/-! ## Readings with failures -/

/-- What comes of a reading with some failures on its way: the value of the descent, with the cursor
where the descent goes on.  But a number that is misread among these failures is thrown, with the
cursor behind it. -/
inductive Yields (body : List Token) (eof : Token) (c : Cursor) {α : Type} (fs : List Failure)
    (a : α) (rest : List Token) : EStateM.Result Interrupt Cursor α → Prop
  | ok {c' : Cursor} : (∀ f ∈ fs, f.reason ≠ .misreadNumber) → Leaves body eof c fs rest c' →
      Yields body eof c fs a rest (.ok a c')
  | misread {gs hs : List Failure} {number : Token} {us : List Token} {c' : Cursor} :
      fs = gs ++ .here .misreadNumber (number :: us) :: hs →
      (∀ f ∈ gs, f.reason ≠ .misreadNumber) → Stops body eof c gs us c' →
      Yields body eof c fs a rest (.error (.misread number) c')

/-- A reading that goes on without any failure. -/
theorem Yields.finish {α β : Type} {a : α} {b : β} {x : Walk α} {k : α → Walk β}
    (h : Yields body eof c fs a rest (x c))
    (hk : ∀ c', (∀ f ∈ fs, f.reason ≠ .misreadNumber) → Leaves body eof c fs rest c' →
      k a c' = .ok b c') :
    Yields body eof c fs b rest ((x >>= k) c) := by
  generalize hx : x c = y at h
  cases h with
  | ok hreasons hleaves =>
      rw [walk_bind_ok hx, hk _ hreasons hleaves]
      exact .ok hreasons hleaves
  | misread hfs hreasons hstops =>
      rw [walk_bind_error hx]
      exact .misread hfs hreasons hstops

theorem Yields.bind {α β : Type} {a : α} {b : β} {x : Walk α} {k : α → Walk β}
    (h : Yields body eof c fs a ts (x c))
    (hk : ∀ c', Leaves body eof c fs ts c' → Yields body eof c' gs b rest (k a c')) :
    Yields body eof c (fs ++ gs) b rest ((x >>= k) c) := by
  generalize hx : x c = y at h
  cases h with
  | ok hreasons hleaves =>
      rw [walk_bind_ok hx]
      have hgo := hk _ hleaves
      generalize k a _ = z at hgo
      cases hgo with
      | ok hreasons' hleaves' =>
          exact .ok (List.forall_mem_append.mpr ⟨hreasons, hreasons'⟩) (hleaves.append hleaves')
      | misread hgs hreasons' hstops =>
          rw [hgs, ← List.append_assoc]
          exact .misread rfl (List.forall_mem_append.mpr ⟨hreasons, hreasons'⟩)
            (hleaves.stops hstops)
  | misread hfs hreasons hstops =>
      rw [walk_bind_error hx, hfs, List.append_assoc, List.cons_append]
      exact .misread rfl hreasons hstops

/-- A declaration that has been stopped by a fault goes on behind the next boundary. -/
theorem recovering_fault (h : Ended tokens body eof) (hbody : body ≠ []) {walk : Walk Tree}
    {i : Interrupt} (hwalk : walk c = .error i c') (fs : List Failure) (f : Failure)
    (hc : At body c' f.resume)
    (hi : recoverFrom tokens i c' = recover tokens (f.blame body eof) c')
    (hreasons : ∀ g ∈ fs ++ [f], g.reason ≠ .misreadNumber)
    (hrecorded : c'.recorded = c.recorded ++ fs.map (·.blame body eof))
    (henters : ∃ inner, Enters body c (fs ++ [f]) c' inner) :
    Yields body eof c (fs ++ [f]) none (synchronize f.resume) (recovering tokens walk c) := by
  obtain ⟨p, hrecover, hp⟩ := recover_eq h hbody hc (f.blame body eof)
  obtain ⟨inner, hinner⟩ := henters
  rw [recovering_error hwalk, hi, hrecover]
  refine .ok hreasons ⟨⟨hp.le, hp.drop⟩, ?_, inner,
    ⟨hinner.entered, hinner.length, hinner.braces⟩⟩
  show c'.recorded ++ _ = _
  rw [hrecorded, List.map_append, List.append_assoc]
  rfl

/-- A declaration without blocks. -/
theorem recovering_tracks (h : Ended tokens body eof) (hbody : body ≠ []) {walk : Walk Tree}
    {r : Except Failure (Tree × List Token)} (hr : Tracks body eof c r (walk c)) :
    Yields body eof c (Attempt.close [] r).failures (Attempt.close [] r).tree?
      (Attempt.close [] r).rest (recovering tokens walk c) := by
  generalize hx : walk c = x at hr
  cases hr with
  | @ok tree rest p hc =>
      rw [recovering_ok hx]
      exact .ok (List.forall_mem_nil _)
        ⟨hc, (List.append_nil _).symm, [], rfl, rfl, List.forall_mem_nil _⟩
  | @fault f p hc hreason =>
      refine recovering_fault h hbody hx [] f hc rfl (List.forall_mem_singleton.mpr hreason.2)
        (List.append_nil _).symm ⟨[], rfl, ?_, List.forall_mem_nil _⟩
      simp [hreason.1]
  | @deep ts p hc =>
      refine recovering_fault h hbody hx [] (.here .nestingTooDeep ts) hc ?_
        (List.forall_mem_singleton.mpr nofun) (List.append_nil _).symm
        ⟨[], rfl, rfl, List.forall_mem_nil _⟩
      exact walk_bind_ok (blameHere_eq h hc .nestingTooDeep)
  | @misread number ts p hc =>
      rw [recovering_error hx]
      have hplace := hc.onward
      exact .misread (show _ = [] ++ Failure.here .misreadNumber (number :: ts) :: [] from rfl)
        (List.forall_mem_nil _)
        ⟨⟨hplace.le, hplace.drop⟩, (List.append_nil _).symm, [], rfl, List.forall_mem_nil _⟩

/-- A declaration that is read where the cursor is. -/
def FollowsAttempt (tokens body : List Token) (eof : Token) (n : Nat) : Prop :=
  ∀ {c : Cursor} {t : Token} {ts : List Token}, At body c (t :: ts) →
    Yields body eof c (attemptWithin n (t :: ts)).failures (attemptWithin n (t :: ts)).tree?
      (attemptWithin n (t :: ts)).rest (walkAttempt tokens n c)

/-- Every round of a loop over declarations moves the cursor, so no loop is cut short. -/
theorem walkAll_follows (h : Ended tokens body eof) (one : FollowsAttempt tokens body eof n)
    (stop : Token → Bool) : ∀ {rounds : Nat} {c : Cursor} {ts : List Token}, At body c ts →
      ts.length < rounds →
      Yields body eof c (attemptsFrom n stop ts).failures (attemptsFrom n stop ts).trees
        (attemptsFrom n stop ts).rest (walkAll tokens (walkAttempt tokens n) stop rounds c) := by
  intro rounds
  induction rounds with
  | zero => exact fun _ hrounds => absurd hrounds (Nat.not_lt_zero _)
  | succ rounds ih =>
      intro c ts hc hrounds
      cases ts with
      | nil =>
          rw [walkAll, walk_bind_ok (peek_nil h hc), if_pos (by rw [h.isEof, Bool.or_true])]
          exact .ok (List.forall_mem_nil _) (.refl hc)
      | cons t ts =>
          rw [walkAll, walk_bind_ok (peek_cons h hc), h.isEof_of_mem hc.mem, Bool.or_false]
          cases ht : stop t with
          | true =>
              rw [attemptsFrom_of_stop ht]
              exact .ok (List.forall_mem_nil _) (.refl hc)
          | false =>
              have hsuffix := attemptWithin_advances n t ts
              have hround : Yields body eof c (attemptWithin n (t :: ts)).failures
                  (attemptWithin n (t :: ts)).tree? (attemptWithin n (t :: ts)).rest
                  (moving tokens (walkAttempt tokens n) c) := by
                show Yields _ _ _ _ _ _ ((walkAttempt tokens n >>= fun _ => _) c)
                refine (one hc).finish fun c' _ hleaves => ?_
                have hmoves : c.position < c'.position := by
                  have hlength := hc.length
                  have hlength' := hleaves.place.length
                  have hle := hleaves.place.le
                  have hless := hsuffix.length_le
                  rw [List.length_cons] at hlength
                  omega
                show ((peek tokens >>= fun _ => _) c') = _
                rw [walk_bind_ok (peek_eq h hleaves.place), if_pos (by simp [hmoves])]
                rfl
              rw [if_neg Bool.false_ne_true, attemptsFrom_cons ht]
              refine hround.bind fun c' hleaves => ?_
              have hrest := Nat.lt_of_le_of_lt hsuffix.length_le (Nat.lt_of_succ_lt_succ hrounds)
              exact (ih hleaves.place hrest).finish fun _ _ _ => rfl

/-- A block: what its declarations leave open is open where its brace is missing, and nothing is
where it is not. -/
theorem recovering_block (h : Ended tokens body eof) (one : FollowsAttempt tokens body eof n)
    {l : Token} (hl : l.kind = .mark .leftBrace) {walk : Walk Tree} (hc : At body c (l :: ts))
    (hwalk : walk c = walkBlock tokens (walkAttempt tokens n) c.onward) :
    Yields body eof c (attemptWithin (n + 1) (l :: ts)).failures
      (attemptWithin (n + 1) (l :: ts)).tree? (attemptWithin (n + 1) (l :: ts)).rest
      (recovering tokens walk c) := by
  have hbody : body ≠ [] := List.ne_nil_of_mem hc.mem
  let inside : Cursor := { c.onward with entered := c.position :: c.entered }
  have hinside : At body inside ts := ⟨hc.onward.le, hc.onward.drop⟩
  have hbrace : body[c.position]?.map Token.kind = some (.mark .leftBrace) := by
    rw [hc.getElem?]
    exact congrArg some hl
  rw [attemptWithin_block hl]
  have hyields := walkAll_follows h one closesBlock hinside (hinside.length_lt h)
  generalize hall : walkAll tokens (walkAttempt tokens n) closesBlock tokens.length inside = x
    at hyields
  obtain @⟨c', hreasons, hplace, hrecorded, inner, hinner⟩ |
    @⟨gs, hs, number, us, c', hfs, hreasons, hplace, hrecorded, inner, hentered, hbraces⟩ := hyields
  case misread =>
    -- no declaration around catches the number, and none closes its block
    have hthrown : walk c = .error (.misread number) c' := by
      rw [hwalk]
      show ((walkAll tokens _ _ _ >>= fun _ => _) inside) = _
      exact walk_bind_error hall
    obtain ⟨more, hmore⟩ := close_recorded_prefix (attemptsFrom n closesBlock ts).failures
      (readBlockEnd (attemptsFrom n closesBlock ts))
    rw [recovering_error hthrown, ← hmore, hfs, List.append_assoc, List.cons_append]
    refine .misread rfl hreasons ⟨hplace, hrecorded, inner ++ [c.position], ?_, ?_⟩
    · rw [hentered, List.append_assoc]
      rfl
    · exact List.forall_mem_append.mpr ⟨hbraces, List.forall_mem_singleton.mpr hbrace⟩
  have hblock : walk c = (do
      let _ ← consume tokens (.mark .rightBrace) .blockEnd
      modify fun c => { c with entered := c.entered.tail }
      return .block (attemptsFrom n closesBlock ts).trees : Walk Tree) c' := by
    rw [hwalk]
    show ((walkAll tokens _ _ _ >>= fun _ => _) inside) = _
    rw [walk_bind_ok hall]
  have horder := attemptsFrom_inOrder (attemptWithin_inOrder n) closesBlock ts
  obtain ⟨hrest, hmissing⟩ | ⟨r, rest, hrest, hr, hclosed⟩ := readBlockEnd_cases n ts
  · rw [hrest] at hplace
    have hconsume := consume_nil h (.mark .rightBrace) (by decide) .blockEnd hplace
    rw [hmissing]
    refine recovering_fault h hbody (hblock.trans (walk_bind_error hconsume)) _
      (.here .blockEnd []) hplace rfl ?_ hrecorded ⟨inner ++ [c.position], ?_, ?_, ?_⟩
    · exact List.forall_mem_append.mpr ⟨hreasons, List.forall_mem_singleton.mpr nofun⟩
    · rw [hinner.entered, List.append_assoc]
      rfl
    · rw [List.length_append, List.countP_append, hinner.length]
      rfl
    · exact List.forall_mem_append.mpr ⟨hinner.braces, List.forall_mem_singleton.mpr hbrace⟩
  · rw [hrest] at hplace horder
    -- a block inside that is not closed would have been blamed at the end, where this one is not
    have hnone : (attemptsFrom n closesBlock ts).failures.countP (·.reason = .blockEnd) = 0 := by
      refine List.countP_eq_zero.mpr fun f hf hreason => ?_
      have hblamed := (horder.apt f hf).unclosed (of_decide_eq_true hreason)
      obtain hless | ⟨-, hnil⟩ := horder.passed f hf
      · rw [hblamed] at hless
        exact absurd hless (Nat.not_lt_zero _)
      · cases hnil
    obtain rfl := List.length_eq_zero_iff.mp (hinner.length.trans hnone)
    rw [hclosed]
    have honward := hplace.onward
    rw [recovering_ok (hblock.trans (walk_bind_ok (consume_cons h hr hplace)))]
    refine .ok hreasons
      ⟨⟨honward.le, honward.drop⟩, hrecorded, [], ?_, hnone.symm, List.forall_mem_nil _⟩
    show c'.entered.tail = _
    rw [hinner.entered]
    rfl

theorem walkAttempt_follows (h : Ended tokens body eof) : ∀ n : Nat,
    FollowsAttempt tokens body eof n := by
  intro n
  induction n with
  | zero =>
      intro c t ts hc
      exact recovering_tracks h (List.ne_nil_of_mem hc.mem) (Tracks.deep (p := c.position) hc)
  | succ n ih =>
      intro c t ts hc
      have hbody : body ≠ [] := List.ne_nil_of_mem hc.mem
      by_cases hvar : t.kind = .word .var
      · rw [attemptWithin_var hvar]
        refine recovering_tracks h hbody ?_
        rw [walk_bind_ok (take_cons_pos h (decide_eq_true hvar) hc), if_pos rfl]
        exact (follows_declaration h n hc.onward).from
      have htakeVar : take tokens (·.kind = .word .var) c = .ok false c :=
        take_cons_neg h (decide_eq_false hvar) hc
      by_cases hprint : t.kind = .word .print
      · rw [attemptWithin_print hprint]
        refine recovering_tracks h hbody ?_
        rw [walk_bind_ok htakeVar, if_neg Bool.false_ne_true,
          walk_bind_ok (take_cons_pos h (decide_eq_true hprint) hc), if_pos rfl]
        exact (follows_print h n hc.onward).from
      have htakePrint : take tokens (·.kind = .word .print) c = .ok false c :=
        take_cons_neg h (decide_eq_false hprint) hc
      by_cases hbrace : t.kind = .mark .leftBrace
      · refine recovering_block h ih hbrace hc ?_
        rw [walk_bind_ok htakeVar, if_neg Bool.false_ne_true, walk_bind_ok htakePrint,
          if_neg Bool.false_ne_true, walk_bind_ok (take_cons_pos h (decide_eq_true hbrace) hc),
          if_pos rfl]
      · rw [attemptWithin_other hvar hprint hbrace]
        refine recovering_tracks h hbody ?_
        rw [walk_bind_ok htakeVar, if_neg Bool.false_ne_true, walk_bind_ok htakePrint,
          if_neg Bool.false_ne_true, walk_bind_ok (take_cons_neg h (decide_eq_false hbrace) hc),
          if_neg Bool.false_ne_true]
        exact follows_discard h n hc

end

/-! ## Programs -/

theorem ended_of_split {ts body : List Token} {eof : Token}
    (h : splitAtEof ts = some (body, eof)) : Ended ts body eof := by
  unfold splitAtEof at h
  split at h
  · next last first _ hfind =>
      obtain ⟨heof, body', after, rfl, hbody⟩ := List.find?_eq_some_iff_append.mp hfind
      split at h
      · cases h
        have htake : (body' ++ eof :: after).takeWhile (!·.isEof) = body' := by
          rw [List.takeWhile_append_of_pos hbody, List.takeWhile_cons_of_neg (by simp [heof]),
            List.append_nil]
        refine ⟨⟨after, by rw [htake]⟩, fun t ht => ?_, by simpa [Token.isEof] using heof⟩
        rw [htake] at ht
        simpa [Token.isEof] using hbody t ht
      · cases h
  · cases h

/-- The cursor reads what the descent reads, and comes to the first end token, or it comes to the
number that the descent misreads. -/
theorem walkProgram_yields {ts body : List Token} {eof : Token}
    (h : splitAtEof ts = some (body, eof)) :
    Yields body eof .start (attemptsFrom levelLimit never body).failures (parse ts) []
      (walkProgram ts .start) := by
  have hended := ended_of_split h
  have hstart : At body .start body := ⟨Nat.zero_le _, rfl⟩
  have hall := walkAll_follows hended (walkAttempt_follows hended levelLimit) never hstart
    hended.length_lt
  have hrest : (attemptsFrom levelLimit never body).rest = [] := by
    refine List.head?_eq_none_iff.mp (Option.eq_none_iff_forall_not_mem.mpr fun t ht => ?_)
    exact Bool.false_ne_true (attemptsFrom_end levelLimit never body t ht)
  rw [hrest] at hall
  refine hall.finish fun c hreasons hleaves => ?_
  rw [parse_of_reasons h hreasons, show List.map _ _ = c.recorded from hleaves.recorded.symm]
  rfl

/-! ## Blames -/

/-- A blame may be followed by one of a token further on, and at the last place by a block that is
not closed. -/
def Blame.Precedes (last : Nat) (a b : Blame) : Prop :=
  a.index < b.index ∨ a.index = last ∧ b.index = last ∧ b.reason = .blockEnd

theorem Precedes.blame {body : List Token} {f g : Failure} (h : Precedes f g)
    (hf : f.blamed <:+ body) (eof : Token) :
    (f.blame body eof).Precedes body.length (g.blame body eof) := by
  have hlength := hf.length_le
  obtain hless | ⟨hf, hg, hreason⟩ := h
  · refine .inl ?_
    simp only [Failure.blame]
    omega
  · exact .inr ⟨by simp [Failure.blame, hf], by simp [Failure.blame, hg], hreason⟩

/-- The blamed token stands where the blame says. -/
theorem Ended.blamed {tokens body : List Token} {eof : Token} (h : Ended tokens body eof)
    {f : Failure} (hf : f.blamed <:+ body) : (f.blame body eof).index ≤ body.length ∧
      tokens[(f.blame body eof).index]? = some (f.blame body eof).token := by
  have hle : (f.blame body eof).index ≤ body.length := Nat.sub_le _ _
  refine ⟨hle, ?_⟩
  obtain ⟨before, rfl⟩ := hf
  have hindex : (f.blame (before ++ f.blamed) eof).index = before.length := by
    simp only [Failure.blame, List.length_append, Nat.add_sub_cancel]
  rw [h.getElem? hle, hindex, List.getElem?_append_right (Nat.le_refl _), Nat.sub_self,
    ← List.head?_eq_getElem?]
  rfl

/-- What is recorded when failures have been met in order. -/
theorem InOrder.recorded {tokens body rest : List Token} {eof : Token} {fs : List Failure}
    (h : InOrder body fs rest) (hended : Ended tokens body eof) {recorded : List Blame}
    (hrecorded : recorded = fs.map (·.blame body eof)) :
    recorded.Pairwise (Blame.Precedes body.length) ∧ ∀ b ∈ recorded, b.index ≤ body.length ∧
      tokens[b.index]? = some b.token ∧ (b.reason = .blockEnd → b.index = body.length) := by
  subst hrecorded
  constructor
  · refine List.pairwise_map.mpr (h.inTurn.imp_of_mem fun {f g} hf _ hfg => ?_)
    exact hfg.blame (h.ahead f hf) eof
  · refine List.forall_mem_map.mpr fun f hf => ?_
    obtain ⟨hle, htoken⟩ := hended.blamed (h.ahead f hf)
    refine ⟨hle, htoken, fun hreason => ?_⟩
    simp [Failure.blame, (h.apt f hf).unclosed hreason]

/-- The failures in front of a misread number blame what stands before it. -/
theorem InOrder.before_misread {body rest : List Token} {eof number : Token} {gs hs : List Failure}
    {us front : List Token}
    (h : InOrder body (gs ++ .here .misreadNumber (number :: us) :: hs) rest)
    (hfront : front ++ number :: us = body) :
    ∀ f ∈ gs, (f.blame body eof).index < front.length := by
  intro f hf
  obtain ⟨-, -, hcross⟩ := List.pairwise_append.mp h.inTurn
  have hlength := congrArg List.length hfront
  rw [List.length_append, List.length_cons] at hlength
  have hle := (h.ahead f (List.mem_append_left _ hf)).length_le
  obtain hless | ⟨-, -, hreason⟩ := hcross f hf _ (List.mem_cons_self ..)
  · simp only [Failure.here, List.length_cons] at hless
    simp only [Failure.blame]
    omega
  · cases hreason

/-- Reading a list that ends with an end token comes to its end, in order.  The cursor never looks
before the first token or behind the first end token, each round of a loop over declarations moves
it, and no loop goes round more often than there are tokens: nothing of this stops the reading,
which ends at the first end token with the result of the descent, or right behind a number that is
misread, if it comes to one.  The tokens behind the end do not matter.

The blamed tokens stand one behind the other, and only the end may be blamed again, for each block
that is open there. -/
theorem reading_comes_to_its_end_in_order {eof : Token} (heof : eof.kind = .eof)
    (before : List Token) :
    ∃ body first after c, before ++ [eof] = body ++ first :: after ∧
      (∀ t ∈ body, t.kind ≠ .eof) ∧ first.kind = .eof ∧
      parse (before ++ [eof]) = parse (body ++ [first]) ∧
      c.recorded.Pairwise (fun a b => a.index < b.index ∨
        a.index = body.length ∧ b.index = body.length ∧ b.reason = .blockEnd) ∧
      (∀ b ∈ c.recorded, b.index ≤ body.length ∧ (before ++ [eof])[b.index]? = some b.token ∧
        (b.reason = .blockEnd → b.index = body.length)) ∧
      (∀ i ∈ c.entered, body[i]?.map Token.kind = some (.mark .leftBrace)) ∧
      (walkProgram (before ++ [eof]) .start = .ok (parse (before ++ [eof])) c ∧
        c.position = body.length ∧ c.recorded = blamesOf (before ++ [eof]) ∧
        c.recorded.countP (·.reason = .blockEnd) = c.entered.length ∨
      ∃ number i, body[i]? = some number ∧ number.kind = .number ∧
        Number.ofText? number.lexeme = none ∧
        parse (before ++ [eof]) = .error (.misread number) ∧
        walkProgram (before ++ [eof]) .start = .error (.misread number) c ∧
        c.position = i + 1 ∧ ∀ b ∈ c.recorded, b.index < i) := by
  obtain ⟨first, hsplit⟩ := splitAtEof_append heof before
  have hended := ended_of_split hsplit
  obtain ⟨after, htokens⟩ := hended.split
  have hsame : parse (before ++ [eof]) = parse (bodyOf (before ++ [eof]) ++ [first]) := by
    rw [parse_of_split hsplit, parse_of_split (splitAtEof_append_eof hended.endless hended.ends)]
  have horder := attempts_inOrder (bodyOf (before ++ [eof]))
  have hyields := walkProgram_yields hsplit
  generalize hwalk : walkProgram (before ++ [eof]) .start = x at hyields
  cases hyields with
  | @ok c hreasons hleaves =>
      obtain ⟨hplace, hrecorded, inner, hinner⟩ := hleaves
      have hentered : c.entered = inner := hinner.entered.trans (List.append_nil inner)
      have hrecorded : c.recorded = _ := hrecorded
      obtain ⟨hpairwise, hblamed⟩ := horder.recorded hended hrecorded
      refine ⟨_, first, after, c, htokens, hended.endless, hended.ends, hsame, hpairwise, hblamed,
        hentered ▸ hinner.braces, .inl ⟨rfl, ?_, ?_, ?_⟩⟩
      · exact hplace.position_at_end
      · rw [hrecorded, blamesOf_split hsplit (misreadOf_of_reasons hsplit hreasons)]
        rfl
      · rw [hrecorded, hentered, hinner.length]
        exact List.countP_map
  | @misread gs hs number us c hfs hreasons hstops =>
      obtain ⟨hplace, hrecorded, inner, hentered, hbraces⟩ := hstops
      have hentered : c.entered = inner := hentered.trans (List.append_nil inner)
      have hrecorded : c.recorded = gs.map (·.blame (bodyOf (before ++ [eof])) first) := hrecorded
      rw [hfs] at horder
      obtain ⟨hpairwise, hblamed⟩ :=
        (horder.sublist (List.sublist_append_left gs _)).recorded hended hrecorded
      let f : Failure := .here .misreadNumber (number :: us)
      have hf : f ∈ gs ++ f :: hs := List.mem_append_right gs (List.mem_cons_self ..)
      obtain ⟨front, hfront⟩ := horder.ahead f hf
      obtain ⟨_, ⟨⟩, hnumber⟩ := (horder.apt f hf).misread rfl
      obtain ⟨hkind, hnone⟩ := Token.not_converts_iff.mp hnumber
      refine ⟨_, first, after, c, htokens, hended.endless, hended.ends, hsame, hpairwise, hblamed,
        hentered ▸ hbraces, .inr ⟨number, front.length, ?_, hkind, hnone, ?_, rfl, ?_, ?_⟩⟩
      · rw [← hfront, List.getElem?_append_right (Nat.le_refl _), Nat.sub_self]
        rfl
      · exact misreadOf_eq_some_iff.mp (misreadOf_of_failures hsplit hfs hreasons)
      · exact hplace.position_behind hfront
      · rw [hrecorded]
        exact List.forall_mem_map.mpr (horder.before_misread hfront)

/-- `{ print ; { 1`, with a fault inside and two blocks open at the end, which is blamed for a
semicolon first and then for either block.  The semicolon behind the end is not read. -/
theorem reading_comes_to_its_end_in_order_open_blocks :
    let left : Token := ⟨.mark .leftBrace, "\x7b", 0⟩
    let print : Token := ⟨.word .print, "print", 0⟩
    let semicolon : Token := ⟨.mark .semicolon, ";", 0⟩
    let one : Token := ⟨.number, "1", 0⟩
    let eof : Token := ⟨.eof, "", 0⟩
    let ts : List Token := [left, print, semicolon, left, one, eof, semicolon] ++ [eof]
    let blames : List Blame := [⟨.noExpression, semicolon, 2⟩, ⟨.expressionEnd, eof, 5⟩,
      ⟨.blockEnd, eof, 5⟩, ⟨.blockEnd, eof, 5⟩]
    walkProgram ts .start = .ok (parse ts) ⟨5, blames, [3, 0]⟩ ∧ blamesOf ts = blames := by
  intro left print semicolon one eof ts blames
  have hwalk : walkProgram ts .start = .ok (.error (.faults blames)) ⟨5, blames, [3, 0]⟩ := by
    subst left print semicolon one eof ts blames
    rfl
  obtain ⟨body, first, after, c, -, -, -, -, -, -, -, hreads⟩ :=
    reading_comes_to_its_end_in_order (show eof.kind = .eof from rfl)
      [left, print, semicolon, left, one, eof, semicolon]
  rw [show walkProgram _ .start = _ from hwalk] at hreads
  obtain ⟨hreads, -, hblames, -⟩ | ⟨_, _, -, -, -, -, hreads, -⟩ := hreads
  · obtain ⟨hresult, rfl⟩ := EStateM.Result.ok.inj hreads
    exact ⟨hwalk.trans (congrArg (EStateM.Result.ok · _) hresult), hblames.symm⟩
  · cases hreads

end RoxLang.Descent
