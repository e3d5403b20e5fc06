/-
# `RoxLang.Proofs.Descent.Order` — failures are met in the order of their places

What an attempt blames lies between where it starts and where reading goes on.  A blamed token is
passed before the next attempt starts, since recovery drops at least the token at which the failed
declaration has stopped, and that is the blamed one or one behind it.  So every failure blames a
place behind those blamed before it, for as long as there are tokens to blame.

The end is not passed, so it may be blamed again.  But a loop over declarations attempts nothing at
the end.  What is left to fail there are the blocks around, each of which misses its closing brace.
-/
import RoxLang.Proofs.Descent.Onward

namespace RoxLang.Descent

/-- A failure may be followed by one that blames a place further on, and at the end by a block that
is not closed. -/
def Precedes (f g : Failure) : Prop :=
  g.blamed.length < f.blamed.length ∨ f.blamed = [] ∧ g.blamed = [] ∧ g.reason = .blockEnd

/-- The failures met between two places.  What they blame is behind the one and in front of the
other, if it is not the end, each blames a place behind those before, and what is blamed suits the
reason. -/
structure InOrder (ts : List Token) (fs : List Failure) (rest : List Token) : Prop where
  ahead : ∀ f ∈ fs, f.blamed <:+ ts
  passed : ∀ f ∈ fs, rest.length < f.blamed.length ∨ f.blamed = [] ∧ rest = []
  inTurn : fs.Pairwise Precedes
  apt : ∀ f ∈ fs, f.Apt

section

variable {ts mid rest : List Token} {fs gs : List Failure}

theorem inOrder_nil (ts rest : List Token) : InOrder ts [] rest :=
  ⟨List.forall_mem_nil _, List.forall_mem_nil _, .nil, List.forall_mem_nil _⟩

/-- At the end only blocks are left to fail. -/
theorem InOrder.append (h : InOrder ts fs mid) (h' : InOrder mid gs rest) (hmid : mid <:+ ts)
    (hrest : rest <:+ mid) (hend : fs ≠ [] → mid = [] → ∀ g ∈ gs, g.reason = .blockEnd) :
    InOrder ts (fs ++ gs) rest := by
  refine ⟨?_, ?_, ?_, ?_⟩
  · exact List.forall_mem_append.mpr ⟨h.ahead, fun g hg => (h'.ahead g hg).trans hmid⟩
  · refine List.forall_mem_append.mpr ⟨fun f hf => ?_, h'.passed⟩
    obtain hless | ⟨hf, rfl⟩ := h.passed f hf
    · exact .inl (Nat.lt_of_le_of_lt hrest.length_le hless)
    · exact .inr ⟨hf, List.suffix_nil.mp hrest⟩
  · refine List.pairwise_append.mpr ⟨h.inTurn, h'.inTurn, fun f hf g hg => ?_⟩
    have hahead := h'.ahead g hg
    obtain hless | ⟨hblamed, rfl⟩ := h.passed f hf
    · exact .inl (Nat.lt_of_le_of_lt hahead.length_le hless)
    · exact .inr ⟨hblamed, List.suffix_nil.mp hahead, hend (List.ne_nil_of_mem hf) rfl g hg⟩
  · exact List.forall_mem_append.mpr ⟨h.apt, h'.apt⟩

theorem InOrder.sublist (h : InOrder ts fs rest) (hgs : gs.Sublist fs) : InOrder ts gs rest :=
  ⟨fun f hf => h.ahead f (hgs.mem hf), fun f hf => h.passed f (hgs.mem hf),
    h.inTurn.sublist hgs, fun f hf => h.apt f (hgs.mem hf)⟩

theorem InOrder.mono (h : InOrder mid fs rest) (hmid : mid <:+ ts) : InOrder ts fs rest :=
  ⟨fun f hf => (h.ahead f hf).trans hmid, h.passed, h.inTurn, h.apt⟩

/-- Recovery passes the place that is blamed, unless that is the end. -/
theorem synchronize_passes {f : Failure} (h : f.resume <:+ f.blamed) :
    (synchronize f.resume).length < f.blamed.length ∨
      f.blamed = [] ∧ synchronize f.resume = [] := by
  cases hresume : f.resume with
  | nil =>
      cases hblamed : f.blamed with
      | nil => exact .inr ⟨rfl, rfl⟩
      | cons u us => exact .inl (Nat.zero_lt_succ _)
  | cons u us =>
      have hless := h.length_le
      rw [hresume] at hless
      refine .inl (Nat.lt_of_lt_of_le (Nat.lt_succ_of_le ?_) hless)
      exact (synchronize_suffix_tail u us).length_le

theorem inOrder_close {recorded : List Failure} {r : Except Failure (Tree × List Token)}
    (h : InOrder ts recorded mid) (hmid : mid <:+ ts) (hr : Onward mid r)
    (hend : recorded ≠ [] → mid = [] → ∀ f, r = .error f → f.reason = .blockEnd) :
    InOrder ts (Attempt.close recorded r).failures (Attempt.close recorded r).rest := by
  cases hr with
  | @ok tree rest hrest =>
      have hnone := h.append (inOrder_nil mid rest) hmid hrest fun _ _ => List.forall_mem_nil _
      rwa [List.append_nil] at hnone
  | @error f hblamed hresume hapt =>
      have hrest := (synchronize_suffix f.resume).trans (hresume.trans hblamed)
      refine h.append ⟨?_, ?_, List.pairwise_singleton .., ?_⟩ hmid hrest fun hfs hnil => ?_
      · exact List.forall_mem_singleton.mpr hblamed
      · exact List.forall_mem_singleton.mpr (synchronize_passes hresume)
      · exact List.forall_mem_singleton.mpr hapt
      · exact List.forall_mem_singleton.mpr (hend hfs hnil f rfl)

end

/-- An attempt meets its failures in order. -/
def MeetsInOrder (attempt : List Token → Attempt) : Prop :=
  ∀ (t : Token) (ts : List Token),
    InOrder (t :: ts) (attempt (t :: ts)).failures (attempt (t :: ts)).rest

theorem attemptsFrom_inOrder {n : Nat} (one : MeetsInOrder (attemptWithin n))
    (stop : Token → Bool) : ∀ ts : List Token,
      InOrder ts (attemptsFrom n stop ts).failures (attemptsFrom n stop ts).rest
  | [] => inOrder_nil [] []
  | t :: ts => by
      cases ht : stop t with
      | true =>
          rw [attemptsFrom_of_stop ht]
          exact inOrder_nil _ _
      | false =>
          have hone := attemptWithin_advances n t ts
          have hless := hone.length_le
          rw [attemptsFrom_cons ht]
          refine (one t ts).append (attemptsFrom_inOrder one stop (attemptWithin n (t :: ts)).rest)
            (hone.trans (List.suffix_cons t ts))
            (attemptsFrom_suffix n stop _) fun _ hnil => ?_
          rw [hnil]
          exact List.forall_mem_nil _
  termination_by ts => ts.length
  decreasing_by exact Nat.lt_succ_of_le hless

theorem attemptWithin_inOrder (n : Nat) : MeetsInOrder (attemptWithin n) := by
  induction n with
  | zero =>
      intro t ts
      exact inOrder_close (inOrder_nil _ _) (List.suffix_refl _)
        (onward_here (List.suffix_refl _) (by decide)) fun h => absurd rfl h
  | succ n ih =>
      intro t ts
      by_cases ht : t.kind = .mark .leftBrace
      · rw [attemptWithin_block ht]
        have hbody := attemptsFrom_suffix n closesBlock ts
        have hts := List.suffix_cons t ts
        refine inOrder_close ((attemptsFrom_inOrder ih closesBlock ts).mono hts) (hbody.trans hts)
          (onward_readBlockEnd n ts) fun _ _ f hf => ?_
        obtain ⟨-, hend⟩ | ⟨_, _, _, _, hend⟩ := readBlockEnd_cases n ts
        · rw [hend] at hf
          rw [← Except.error.inj hf]
          rfl
        · rw [hend] at hf
          cases hf
      · obtain ⟨r, hclose, hr⟩ := attemptWithin_closes (n + 1) ht ts
        rw [hclose]
        exact inOrder_close (inOrder_nil _ _) (List.suffix_refl _) hr fun h => absurd rfl h

end RoxLang.Descent
