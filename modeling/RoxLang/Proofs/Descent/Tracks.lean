/-
# `RoxLang.Proofs.Descent.Tracks` — the cursor goes where the descent goes

Where the cursor is in front of the first end token or at it, the tokens from there up to that end
token are a place of the descent.  A rule that starts there ends with the value of the descent where
the descent ends, or is stopped where the descent is stopped, and what it throws is what the descent
blames, or the number that the descent misreads, with the cursor behind it.  In no case does it look
where it must not: the token before the cursor is asked for behind a token that has just been taken,
and the end token is never taken.

A chain looks for a step at most once more than there are tokens in front of the end, and the end is
a token too.
-/
import RoxLang.Proofs.Descent.Cursor
import RoxLang.Proofs.Descent.Onward

namespace RoxLang.Descent

/-! ## Steps of a reading -/

section

variable {α β : Type} {x : Walk α} {k : α → Walk β} {c c' : Cursor}

theorem walk_bind_ok {a : α} (h : x c = .ok a c') : (x >>= k) c = k a c' := by
  show EStateM.bind x k c = _
  simp only [EStateM.bind, h]

theorem walk_bind_error {i : Interrupt} (h : x c = .error i c') :
    (x >>= k) c = .error i c' := by
  show EStateM.bind x k c = _
  simp only [EStateM.bind, h]

end

/-! ## Places of the cursor -/

/-- The cursor moved to another position. -/
def Cursor.to (c : Cursor) (position : Nat) : Cursor := { c with position }

/-- The cursor moved on by one token. -/
def Cursor.onward (c : Cursor) : Cursor := c.to (c.position + 1)

/-- The cursor is at a place among the tokens in front of the first end token, or at that one. -/
structure At (body : List Token) (c : Cursor) (ts : List Token) : Prop where
  le : c.position ≤ body.length
  drop : body.drop c.position = ts

/-- All of the tokens, those in front of the first end token, and that token. -/
structure Ended (tokens body : List Token) (eof : Token) : Prop where
  split : ∃ after, tokens = body ++ eof :: after
  endless : ∀ t ∈ body, t.kind ≠ .eof
  ends : eof.kind = .eof

section

variable {tokens body ts us : List Token} {eof t : Token} {c : Cursor}

theorem At.getElem? (h : At body c ts) : body[c.position]? = ts.head? := by
  rw [← List.head?_drop, h.drop]

theorem At.length (h : At body c ts) : ts.length = body.length - c.position := by
  rw [← h.drop, List.length_drop]

theorem At.position_at_end (h : At body c []) : c.position = body.length := by
  have hle := h.le
  have hlength := h.length
  rw [List.length_nil] at hlength
  omega

theorem At.position_behind (h : At body c ts) {front : List Token}
    (hfront : front ++ t :: ts = body) : c.position = front.length + 1 := by
  have hle := h.le
  have hlength := h.length
  rw [← hfront, List.length_append, List.length_cons] at hle hlength
  omega

theorem At.mem (h : At body c (t :: ts)) : t ∈ body :=
  List.mem_of_getElem? h.getElem?

theorem At.onward (h : At body c (t :: ts)) : At body c.onward ts where
  le := (List.getElem?_eq_some_iff.mp h.getElem?).1
  drop := by
    show body.drop (c.position + 1) = ts
    rw [← List.tail_drop, h.drop, List.tail_cons]

/-- What is blamed where the cursor is. -/
theorem At.blame (h : At body c ts) (reason : Reason) (resume : List Token) :
    (Failure.mk reason ts resume).blame body eof = ⟨reason, ts.head?.getD eof, c.position⟩ := by
  have hle := h.le
  simp only [Failure.blame, h.length, Blame.mk.injEq, true_and]
  omega

theorem Ended.isEof (h : Ended tokens body eof) : eof.isEof = true := by
  simp [Token.isEof, h.ends]

theorem Ended.isEof_of_mem (h : Ended tokens body eof) (ht : t ∈ body) : t.isEof = false := by
  simp [Token.isEof, h.endless t ht]

theorem Ended.eof_ne (h : Ended tokens body eof) {kind : Kind} (hkind : kind ≠ .eof) :
    decide (eof.kind = kind) = false := decide_eq_false (h.ends.trans_ne hkind.symm)

theorem Ended.length_lt (h : Ended tokens body eof) : body.length < tokens.length := by
  obtain ⟨after, rfl⟩ := h.split
  simp

/-- There are more tokens than there are from the cursor to the end. -/
theorem At.length_lt (hc : At body c ts) (h : Ended tokens body eof) :
    ts.length < tokens.length := by
  rw [hc.length]
  exact Nat.lt_of_le_of_lt (Nat.sub_le _ _) h.length_lt

theorem Ended.getElem? (h : Ended tokens body eof) {i : Nat} (hi : i ≤ body.length) :
    tokens[i]? = some (body[i]?.getD eof) := by
  obtain ⟨after, rfl⟩ := h.split
  obtain hlt | rfl := Nat.lt_or_eq_of_le hi
  · rw [List.getElem?_append_left hlt, List.getElem?_eq_getElem hlt]
    rfl
  · rw [List.getElem?_append_right (Nat.le_refl _), Nat.sub_self,
      List.getElem?_eq_none (Nat.le_refl _)]
    rfl

theorem Ended.any_take (h : Ended tokens body eof) {i : Nat} (hi : i ≤ body.length) :
    (tokens.take i).any Token.isEof = false := by
  obtain ⟨after, hsplit⟩ := h.split
  rw [hsplit, List.take_append_of_le_length hi, List.any_eq_false]
  intro t ht
  rw [h.isEof_of_mem (List.mem_of_mem_take ht)]
  exact Bool.false_ne_true

/-! ## Looking and moving -/

theorem lookAt_eq (h : Ended tokens body eof) {i : Nat} (hi : i ≤ body.length) :
    lookAt tokens i c = .ok (body[i]?.getD eof) c := by
  rw [lookAt, h.getElem? hi]
  simp only [h.any_take hi]
  rfl

theorem peek_eq (h : Ended tokens body eof) (hc : At body c ts) :
    peek tokens c = .ok (ts.head?.getD eof) c := by
  rw [← hc.getElem?]
  exact lookAt_eq h hc.le

theorem peek_cons (h : Ended tokens body eof) (hc : At body c (t :: ts)) :
    peek tokens c = .ok t c := peek_eq h hc

theorem peek_nil (h : Ended tokens body eof) (hc : At body c []) : peek tokens c = .ok eof c :=
  peek_eq h hc

theorem previous_eq (h : Ended tokens body eof) {i : Nat} (hi : i ≤ body.length)
    (hc : c.position = i + 1) : previous tokens c = .ok (body[i]?.getD eof) c := by
  obtain ⟨position, recorded, entered⟩ := c
  cases hc
  exact lookAt_eq h hi

theorem previous_onward (h : Ended tokens body eof) (hc : At body c (t :: ts)) :
    previous tokens c.onward = .ok t c.onward := by
  rw [previous_eq h hc.le rfl, hc.getElem?]
  rfl

theorem advance_cons (h : Ended tokens body eof) (hc : At body c (t :: ts)) :
    advance tokens c = .ok t c.onward := by
  rw [advance, walk_bind_ok (peek_cons h hc), if_neg (ne_true_of_eq_false (h.isEof_of_mem hc.mem))]
  exact previous_onward h hc

/-- At the end the cursor stays, and there is a token before it, unless there are none at all. -/
theorem advance_nil (h : Ended tokens body eof) (hc : At body c []) (hbody : body ≠ []) :
    ∃ t, advance tokens c = .ok t c := by
  obtain ⟨i, hi⟩ : ∃ i, c.position = i + 1 := by
    refine Nat.exists_eq_succ_of_ne_zero fun hzero => hbody ?_
    have hdrop := hc.drop
    rwa [hzero, List.drop_zero] at hdrop
  have hle := hc.le
  rw [hi] at hle
  rw [advance, walk_bind_ok (peek_nil h hc), if_pos h.isEof]
  exact ⟨_, previous_eq h (Nat.le_of_succ_le hle) hi⟩

theorem take_nil (h : Ended tokens body eof) {p : Token → Bool} (hp : p eof = false)
    (hc : At body c []) : take tokens p c = .ok false c := by
  rw [take, walk_bind_ok (peek_nil h hc), if_neg (ne_true_of_eq_false hp)]
  rfl

theorem take_cons_pos (h : Ended tokens body eof) {p : Token → Bool} (ht : p t = true)
    (hc : At body c (t :: ts)) : take tokens p c = .ok true c.onward := by
  rw [take, walk_bind_ok (peek_cons h hc), if_pos ht]
  exact walk_bind_ok (advance_cons h hc)

theorem take_cons_neg (h : Ended tokens body eof) {p : Token → Bool} (ht : p t = false)
    (hc : At body c (t :: ts)) : take tokens p c = .ok false c := by
  rw [take, walk_bind_ok (peek_cons h hc), if_neg (ne_true_of_eq_false ht)]
  rfl

theorem blameBefore_onward (h : Ended tokens body eof) (hc : At body c (t :: ts))
    (reason : Reason) :
    blameBefore tokens reason c.onward = .ok ⟨reason, t, c.position⟩ c.onward := by
  rw [blameBefore, walk_bind_ok (previous_onward h hc)]
  rfl

theorem blameHere_eq (h : Ended tokens body eof) (hc : At body c ts) (reason : Reason) :
    blameHere tokens reason c = .ok ((Failure.here reason ts).blame body eof) c := by
  rw [blameHere, walk_bind_ok (peek_eq h hc), Failure.here, hc.blame]
  rfl

theorem fail_eq {α : Type} (h : Ended tokens body eof) (hc : At body c ts) (reason : Reason) :
    fail (α := α) tokens reason c = .error (.fault ((Failure.here reason ts).blame body eof)) c :=
  walk_bind_ok (blameHere_eq h hc reason)

theorem consume_cons (h : Ended tokens body eof) {kind : Kind} {reason : Reason}
    (ht : t.kind = kind) (hc : At body c (t :: ts)) :
    consume tokens kind reason c = .ok t c.onward := by
  rw [consume, walk_bind_ok (peek_cons h hc), if_pos ht, advance_cons h hc]

theorem consume_nil (h : Ended tokens body eof) (kind : Kind) (hkind : kind ≠ .eof)
    (reason : Reason) (hc : At body c []) : consume tokens kind reason c
      = .error (.fault ((Failure.here reason []).blame body eof)) c := by
  rw [consume, walk_bind_ok (peek_nil h hc), if_neg (h.ends.trans_ne hkind.symm)]
  exact fail_eq h hc reason

end

/-! ## Readings that record nothing -/

/-- The end of a reading without blocks: the cursor is where the descent has stopped, and what is
thrown is blamed by the descent too.  Behind a number that is misread it has moved on by one
token. -/
inductive Tracks (body : List Token) (eof : Token) (c : Cursor) {α : Type} :
    Except Failure (α × List Token) → EStateM.Result Interrupt Cursor α → Prop
  | ok {a : α} {rest : List Token} {p : Nat} : At body (c.to p) rest →
      Tracks body eof c (.ok (a, rest)) (.ok a (c.to p))
  | fault {f : Failure} {p : Nat} : At body (c.to p) f.resume → AnyPlace f.reason →
      Tracks body eof c (.error f) (.error (.fault (f.blame body eof)) (c.to p))
  | deep {ts : List Token} {p : Nat} : At body (c.to p) ts →
      Tracks body eof c (.error (.here .nestingTooDeep ts)) (.error .tooDeep (c.to p))
  | misread {number : Token} {ts : List Token} {p : Nat} : At body (c.to p) (number :: ts) →
      Tracks body eof c (.error (.here .misreadNumber (number :: ts)))
        (.error (.misread number) (c.to p).onward)

section

variable {tokens body ts : List Token} {eof t : Token} {c : Cursor} {α β : Type} {n p : Nat}

/-- The position where a reading starts does not matter to where it ends. -/
theorem Tracks.from {r : Except Failure (α × List Token)} {x : EStateM.Result Interrupt Cursor α}
    (h : Tracks body eof (c.to p) r x) : Tracks body eof c r x := by
  cases h with
  | ok hc => exact .ok hc
  | fault hc hreason => exact .fault hc hreason
  | deep hc => exact .deep hc
  | misread hc => exact .misread hc

theorem Tracks.bind {r : Except Failure (α × List Token)} {x : Walk α}
    {k : α × List Token → Except Failure (β × List Token)} {k' : α → Walk β}
    (h : Tracks body eof c r (x c))
    (hk : ∀ a rest p, r = .ok (a, rest) → At body (c.to p) rest →
      Tracks body eof (c.to p) (k (a, rest)) (k' a (c.to p))) :
    Tracks body eof c (r >>= k) ((x >>= k') c) := by
  generalize hx : x c = y at h
  cases h with
  | ok hc =>
      rw [walk_bind_ok hx]
      exact (hk _ _ _ rfl hc).from
  | fault hc hreason =>
      rw [walk_bind_error hx]
      exact .fault hc hreason
  | deep hc =>
      rw [walk_bind_error hx]
      exact .deep hc
  | misread hc =>
      rw [walk_bind_error hx]
      exact .misread hc

theorem tracks_pure (hc : At body c ts) (a : α) :
    Tracks body eof c (.ok (a, ts)) ((pure a : Walk α) c) := Tracks.ok (p := c.position) hc

theorem tracks_fail (h : Ended tokens body eof) (hc : At body c ts) {reason : Reason}
    (hreason : AnyPlace reason) :
    Tracks (α := α) body eof c (.error (.here reason ts)) (fail tokens reason c) := by
  rw [fail_eq h hc]
  exact Tracks.fault (p := c.position) hc hreason

theorem tracks_consume (h : Ended tokens body eof) (kind : Kind) (hkind : kind ≠ .eof)
    (reason : Reason) (hreason : AnyPlace reason) :
    ∀ {ts : List Token}, At body c ts →
      Tracks body eof c (expect kind reason ts) (consume tokens kind reason c)
  | [], hc => by
      rw [consume_nil h kind hkind reason hc]
      exact Tracks.fault (p := c.position) hc hreason
  | t :: ts, hc => by
      by_cases ht : t.kind = kind
      · rw [expect_cons ht, consume_cons h ht hc]
        exact .ok hc.onward
      · rw [expect_cons_ne ht, consume, walk_bind_ok (peek_cons h hc), if_neg ht]
        exact tracks_fail h hc hreason

/-- Whether a token is taken is decided at the place where the cursor is. -/
theorem tracks_take (h : Ended tokens body eof) {p : Token → Bool} (hp : p eof = false)
    {yes no : Walk α} {r : Except Failure (α × List Token)} (hc : At body c ts)
    (hyes : ∀ t us, ts = t :: us → p t = true → Tracks body eof c.onward r (yes c.onward))
    (hno : (∀ t ∈ ts.head?, p t = false) → Tracks body eof c r (no c)) :
    Tracks body eof c r ((do if ← take tokens p then yes else no) c) := by
  cases ts with
  | nil =>
      rw [walk_bind_ok (take_nil h hp hc)]
      exact hno fun t ht => by cases ht
  | cons t us =>
      cases ht : p t with
      | true =>
          rw [walk_bind_ok (take_cons_pos h ht hc)]
          exact (hyes t us rfl ht).from
      | false =>
          rw [walk_bind_ok (take_cons_neg h ht hc)]
          refine hno ?_
          rintro _ ⟨⟩
          exact ht

/-! ## Expressions -/

/-- A reader goes along with the descent from wherever the cursor is. -/
def Follows (body : List Token) (eof : Token)
    (read : List Token → Except Failure (α × List Token)) (walk : Walk α) : Prop :=
  ∀ {c : Cursor} {ts : List Token}, At body c ts → Tracks body eof c (read ts) (walk c)

/-- There are always more tokens than a chain may still have steps, so it never looks for one once
too often. -/
theorem follows_steps (h : Ended tokens body eof) {tier : Tier}
    (operand : Follows body eof (readWithin n (.operandOf tier))
      (walkWithin tokens n (.operandOf tier))) :
    ∀ {rounds steps : Nat} (left : Tree) {c : Cursor} {ts : List Token}, At body c ts →
      ts.length < rounds → ts.length ≤ steps →
      Tracks body eof c (readSteps tier (readWithin n (.operandOf tier)) steps left ts)
        (walkSteps tokens tier (walkWithin tokens n (.operandOf tier)) rounds left c) := by
  intro rounds
  induction rounds with
  | zero => exact fun _ _ _ _ hrounds _ => absurd hrounds (Nat.not_lt_zero _)
  | succ rounds ih =>
      intro steps left c ts hc hrounds hsteps
      have heof : decide (eof.kind.tier? = some tier) = false := by rw [h.ends]; rfl
      refine tracks_take h heof hc ?_ fun hno => ?_
      · rintro t us rfl ht
        obtain ⟨steps, rfl⟩ : ∃ k, steps = k + 1 := ⟨steps - 1, by
          rw [List.length_cons] at hsteps
          omega⟩
        rw [readSteps, if_pos (of_decide_eq_true ht), walk_bind_ok (previous_onward h hc)]
        refine (operand hc.onward).bind fun right rest p hright hrest => ?_
        have honward := onward_readWithin n (.operandOf tier) us
        rw [hright] at honward
        cases honward with
        | ok hsuffix =>
            have hless := hsuffix.length_le
            simp only [List.length_cons] at hrounds hsteps
            exact ih _ hrest (by omega) (by omega)
      · have hnone : readSteps tier (readWithin n (.operandOf tier)) steps left ts
            = .ok (left, ts) := by
          cases ts with
          | nil => cases steps <;> rfl
          | cons t us =>
              cases steps with
              | zero => rfl
              | succ steps =>
                  rw [readSteps, if_neg (of_decide_eq_false (hno t rfl))]
        rw [hnone]
        exact tracks_pure hc left

theorem tracks_assigned {r : Except Failure (Tree × List Token)} {x : Walk Tree} {us : List Token}
    (h : Tracks body eof c r (x c)) (target : Tree) {wrong : Blame}
    (hwrong : ∀ rest, (Failure.mk .assignmentTarget us rest).blame body eof = wrong) :
    Tracks body eof c (assigned target us r) ((x >>= assignTo target wrong) c) := by
  generalize hx : x c = y at h
  cases h with
  | @ok value rest p hc =>
      have hreason : AnyPlace .assignmentTarget := by decide
      rw [walk_bind_ok hx]
      cases target with
      | reference name => exact .ok hc
      | _ =>
          rw [← hwrong rest]
          exact .fault hc hreason
  | fault hc hreason =>
      rw [walk_bind_error hx]
      exact .fault hc hreason
  | deep hc =>
      rw [walk_bind_error hx]
      exact .deep hc
  | misread hc =>
      rw [walk_bind_error hx]
      exact .misread hc

theorem follows_within (h : Ended tokens body eof) : ∀ (n : Nat) (rule : Rule),
    Follows body eof (readWithin n rule) (walkWithin tokens n rule) := by
  intro n
  induction n with
  | zero =>
      intro rule c ts hc
      exact Tracks.deep (p := c.position) hc
  | succ n ih =>
      intro rule c ts hc
      cases rule with
      | assignment =>
          refine (ih (.chain .equality) hc).bind fun target rest p _ hrest => ?_
          refine tracks_take h (h.eof_ne (by decide)) hrest ?_ fun hno => ?_
          · rintro t us rfl ht
            show Tracks _ _ _ (if _ then _ else _) _
            rw [if_pos (of_decide_eq_true ht),
              walk_bind_ok (blameBefore_onward h hrest .assignmentTarget)]
            exact tracks_assigned (ih .assignment hrest.onward) target fun _ => hrest.blame _ _
          · cases rest with
            | nil => exact tracks_pure hrest target
            | cons t us =>
                show Tracks _ _ _ (if _ then _ else _) _
                rw [if_neg (of_decide_eq_false (hno t rfl))]
                exact tracks_pure hrest target
      | chain tier =>
          refine (ih (.operandOf tier) hc).bind fun first rest p _ hrest => ?_
          exact follows_steps h (ih (.operandOf tier)) first hrest (hrest.length_lt h)
            (Nat.le_refl _)
      | unary =>
          have heof : eof.kind.isUnary = false := by rw [h.ends]; rfl
          refine tracks_take h heof hc ?_ fun hno => ?_
          · rintro t us rfl ht
            rw [readWithin, if_pos ht, walk_bind_ok (previous_onward h hc)]
            refine (ih .unary hc.onward).bind fun operand rest p _ hrest => ?_
            exact tracks_pure hrest (Tree.unary t operand)
          · have hprimary : readWithin (n + 1) .unary ts = readWithin n .primary ts := by
              cases ts with
              | nil => rfl
              | cons t us => rw [readWithin, if_neg (ne_true_of_eq_false (hno t rfl))]
            rw [hprimary]
            exact ih .primary hc
      | primary =>
          rw [walkWithin, walk_bind_ok (peek_eq h hc)]
          cases hatom : Tree.atom? (ts.head?.getD eof) with
          | some atom =>
              cases ts with
              | nil => simp [Tree.atom?, h.ends] at hatom
              | cons t us =>
                  have hatom : Tree.atom? t = some atom := hatom
                  simp only [readWithin, hatom]
                  rw [walk_bind_ok (advance_cons h hc)]
                  exact (tracks_pure hc.onward atom).from
          | none =>
              refine tracks_take h (h.eof_ne (by decide)) hc ?_ fun hnumber => ?_
              · rintro t us rfl ht
                have hatom : Tree.atom? t = none := hatom
                have hnumber : t.kind = .number := of_decide_eq_true ht
                have hparen : t.kind ≠ .mark .leftParen := hnumber.trans_ne (by decide)
                simp only [readWithin, hatom, if_neg hparen, noOperand, if_pos hnumber]
                rw [walk_bind_ok (previous_onward h hc)]
                exact Tracks.misread (c := c.onward) (p := c.position) hc
              refine tracks_take h (h.eof_ne (by decide)) hc ?_ fun hno => ?_
              · rintro t us rfl ht
                have hatom : Tree.atom? t = none := hatom
                simp only [readWithin, hatom, of_decide_eq_true ht, if_true]
                refine (ih .assignment hc.onward).bind fun inner rest p _ hrest => ?_
                have hparen :=
                  tracks_consume h (.mark .rightParen) (by decide) .groupEnd (by decide) hrest
                exact hparen.bind fun _ _ _ _ hrest => tracks_pure hrest (Tree.grouping inner)
              · have hnone : readWithin (n + 1) .primary ts = .error (.here .noExpression ts) := by
                  cases ts with
                  | nil => rfl
                  | cons t us =>
                      have hatom : Tree.atom? t = none := hatom
                      have hparen := of_decide_eq_false (hno t rfl)
                      have hnumber := of_decide_eq_false (hnumber t rfl)
                      simp only [readWithin, hatom, if_neg hparen, noOperand, if_neg hnumber]
                rw [hnone]
                exact tracks_fail h hc (by decide)

/-! ## Statements without blocks -/

theorem follows_terminated (h : Ended tokens body eof) (n : Nat) (reason : Reason)
    (hreason : AnyPlace reason) :
    Follows body eof (readTerminated n reason) (walkTerminated tokens n reason) := by
  intro c ts hc
  refine (follows_within h n .assignment hc).bind fun value rest p _ hrest => ?_
  refine (tracks_consume h (.mark .semicolon) (by decide) reason hreason hrest).bind ?_
  exact fun _ _ _ _ hrest => tracks_pure hrest value

theorem follows_declaration (h : Ended tokens body eof) (n : Nat) :
    Follows body eof (readDeclaration n) (walkDeclaration tokens n) := by
  intro c ts hc
  refine (tracks_consume h .identifier (by decide) .variableName (by decide) hc).bind ?_
  intro name rest p _ hrest
  refine tracks_take h (h.eof_ne (by decide)) hrest ?_ fun hno => ?_
  · rintro t us rfl ht
    show Tracks _ _ _ (if _ then _ else _) _
    rw [if_pos (of_decide_eq_true ht)]
    refine (follows_terminated h n .declarationEnd (by decide) hrest.onward).bind ?_
    exact fun value _ _ _ hrest => tracks_pure hrest (Tree.define name value)
  · have hend : Tracks body eof (c.to p)
        (expect (.mark .semicolon) .declarationEnd rest >>= fun r => .ok (Tree.declare name, r.2))
        ((do let _ ← consume tokens (.mark .semicolon) .declarationEnd
             return .declare name : Walk Tree) (c.to p)) :=
      (tracks_consume h (.mark .semicolon) (by decide) .declarationEnd (by decide) hrest).bind
        fun _ _ _ _ hrest => tracks_pure hrest (Tree.declare name)
    cases rest with
    | nil => exact hend
    | cons t us =>
        show Tracks _ _ _ (if _ then _ else _) _
        rw [if_neg (of_decide_eq_false (hno t rfl))]
        exact hend

theorem follows_print (h : Ended tokens body eof) (n : Nat) :
    Follows body eof (readPrint n) (walkPrint tokens n) := by
  intro c ts hc
  refine (follows_terminated h n .valueEnd (by decide) hc).bind fun value _ _ _ hrest => ?_
  exact tracks_pure hrest (Tree.print value)

theorem follows_discard (h : Ended tokens body eof) (n : Nat) :
    Follows body eof (readDiscard n) (walkDiscard tokens n) := by
  intro c ts hc
  refine (follows_terminated h n .expressionEnd (by decide) hc).bind fun value _ _ _ hrest => ?_
  exact tracks_pure hrest (Tree.discard value)

end

end RoxLang.Descent
