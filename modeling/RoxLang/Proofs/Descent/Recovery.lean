/-
# `RoxLang.Proofs.Descent.Recovery` — recovery stays between the semicolons and the braces

A stretch is a list of tokens that ends with a semicolon and has no braces in it; otherwise it may
be anything.  A body is made of stretches and of groups in braces around bodies.  However a
declaration fails inside of a stretch, its recovery ends inside of that stretch or right behind it:
a failure is always met at a token of the stretch, since no rule goes past the semicolon of its
statement, and skipping from there stops behind the last semicolon of the stretch at the latest.

So what is blamed in a body is what is blamed in its stretches, each of them read alone
(`blamesOf_body`), as long as no number is misread: the first one that is ends the reading, of the
body as of its stretch, and then nothing is reported, not even what the stretches in front of it
blame.  The proof is a use of the law of two readings: the first one is of the rest of a
stretch with everything that follows, the second one is of the rest of the stretch only.  The two
have different levels, because the first may be inside of groups, so a body that uses up the levels
is left out.
-/
import RoxLang.Proofs.Descent.Outcome

namespace RoxLang.Descent

open Grammar

/-! ## Inside a stretch -/

/-- A list without braces whose last token, if it has one, is a semicolon. -/
structure InStretch (ts : List Token) : Prop where
  plain : ∀ t ∈ ts, t.kind ≠ .mark .leftBrace ∧ t.kind ≠ .mark .rightBrace
  ends : ∀ t ∈ ts.getLast?, t.kind = .mark .semicolon

theorem InStretch.suffix {ts us : List Token} (hus : InStretch us) (h : ts <:+ us) :
    InStretch ts where
  plain := fun t ht => hus.plain t (h.mem ht)
  ends := by
    obtain ⟨before, rfl⟩ := h
    intro t ht
    refine hus.ends t ?_
    rw [List.getLast?_append, ht]
    rfl

/-- Only the last token of a stretch has nothing behind it. -/
theorem InStretch.ne_nil {t : Token} {ts : List Token} (h : InStretch (t :: ts))
    (ht : t.kind ≠ .mark .semicolon) : ts ≠ [] := by
  rintro rfl
  exact ht (h.ends t rfl)

/-- Skipping stops behind the last semicolon of a stretch, if it comes that far. -/
theorem skipFrom_append (tail : List Token) : ∀ {previous : Token} {ts : List Token},
    InStretch (previous :: ts) → skipFrom previous (ts ++ tail) = skipFrom previous ts ++ tail
  | previous, [], h => by
      have hprevious : previous.kind = .mark .semicolon := h.ends previous rfl
      cases tail with
      | nil => rfl
      | cons u tail => simp only [List.nil_append, skipFrom, hprevious, decide_true, Bool.true_or,
          if_true]
  | previous, t :: ts, h => by
      have hskip := skipFrom_append tail (h.suffix (List.suffix_cons previous (t :: ts)))
      simp only [List.cons_append, skipFrom, hskip]
      split <;> rfl

/-- Related are a place with everything that follows the stretch and the same place without it. -/
def Within (stretch tail ts ts' : List Token) : Prop := ts = ts' ++ tail ∧ ts' <:+ stretch

/-- The end of the stretch is not inside of it. -/
def Inside (stretch tail ts ts' : List Token) : Prop := Within stretch tail ts ts' ∧ ts' ≠ []

theorem places_stretch {stretch : List Token} (h : InStretch stretch) (tail : List Token) :
    Places (Inside stretch tail) (Within stretch tail) where
  ahead := by
    rintro _ ts' ⟨⟨rfl, hts⟩, hne⟩
    obtain ⟨t, ts, rfl⟩ := List.exists_cons_of_ne_nil hne
    have hbehind : Within stretch tail (ts ++ tail) ts := ⟨rfl, (List.suffix_cons t ts).trans hts⟩
    exact .cons hbehind fun ht => ⟨hbehind, (h.suffix hts).ne_nil ht⟩
  recover := by
    rintro _ ts' ⟨⟨rfl, hts⟩, hne⟩
    obtain ⟨t, ts, rfl⟩ := List.exists_cons_of_ne_nil hne
    exact ⟨skipFrom_append tail (h.suffix hts), (synchronize_suffix (t :: ts)).trans hts⟩

/-! ## Blames of a stretch -/

/-- A blame as it is reported with so many tokens more in front. -/
def Blame.further (k : Nat) (b : Blame) : Blame := ⟨b.reason, b.token, k + b.index⟩

variable {n n' k : Nat} {stop : Token → Bool} {stretch tail whole : List Token}

/-- A failure inside of a stretch blames a token of the stretch, wherever the stretch stands. -/
theorem SameFailure.blame {f f' : Failure} (h : SameFailure (Inside stretch tail) f f')
    (hwhole : whole.length = k + (stretch ++ tail).length) (eof eof' : Token) :
    f.blame whole eof = (f'.blame stretch eof').further k := by
  obtain ⟨hreason, ⟨⟨hblamed, hsuffix⟩, hne⟩, _⟩ := h
  obtain ⟨t, ts, hts⟩ := List.exists_cons_of_ne_nil hne
  have hless := hsuffix.length_le
  simp only [Failure.blame, Blame.further, hreason, hblamed, hwhole, List.length_append]
  rw [hts] at hless ⊢
  simp only [List.cons_append, List.head?_cons, Option.getD_some, List.length_cons,
    Blame.mk.injEq, true_and] at hless ⊢
  omega

theorem map_blame_stretch {fs fs' : List Failure}
    (h : List.Forall₂ (SameFailure (Inside stretch tail)) fs fs')
    (hwhole : whole.length = k + (stretch ++ tail).length) (eof eof' : Token) :
    fs.map (·.blame whole eof) = fs'.map fun f => (f.blame stretch eof').further k := by
  induction h with
  | nil => rfl
  | cons hf _ ih => rw [List.map_cons, List.map_cons, ih, hf.blame hwhole eof eof']

theorem tooDeep_append {fs gs : List Failure} : TooDeep (fs ++ gs) ↔ TooDeep fs ∨ TooDeep gs := by
  simp only [TooDeep, List.mem_append, or_and_right, exists_or]

theorem tooDeep_iff_blames (whole : List Token) (eof : Token) (fs : List Failure) :
    TooDeep fs ↔ ∃ b ∈ fs.map (·.blame whole eof), b.reason = .nestingTooDeep := by
  simp [TooDeep, Failure.blame]

theorem not_tooDeep_of_blames {fs gs : List Failure} {bs : List Blame} {eof : Token}
    (hdeep : ¬ TooDeep fs)
    (h : fs.map (·.blame whole eof) = bs ++ gs.map (·.blame whole eof)) : ¬ TooDeep gs := by
  intro hgs
  obtain ⟨b, hb, hreason⟩ := (tooDeep_iff_blames whole eof gs).mp hgs
  refine hdeep ((tooDeep_iff_blames whole eof fs).mpr ⟨b, ?_, hreason⟩)
  rw [h]
  exact List.mem_append_right bs hb

/-- A loop over attempts stops, if at all, at a closing brace. -/
def StopsAtBraces (stop : Token → Bool) : Prop :=
  ∀ t : Token, t.kind ≠ .mark .rightBrace → stop t = false

theorem closesBlock_stopsAtBraces : StopsAtBraces closesBlock := by
  intro t ht
  simp [closesBlock, ht]

/-- The attempts at a stretch: what they blame, they blame without what follows too, and then
reading goes on behind the stretch. -/
theorem attemptsFrom_stretch (hn : n ≤ n') (hstretch : InStretch stretch)
    (hstop : StopsAtBraces stop) (hwhole : whole.length = k + (stretch ++ tail).length)
    (eof eof' : Token) : ∀ {ts : List Token}, ts <:+ stretch →
      ¬ TooDeep (attemptsFrom n stop (ts ++ tail)).failures →
      (attemptsFrom n stop (ts ++ tail)).failures.map (·.blame whole eof)
          = ((attemptsFrom n' never ts).failures.map
              fun f => (f.blame stretch eof').further k)
            ++ (attemptsFrom n stop tail).failures.map (·.blame whole eof) ∧
        (attemptsFrom n stop (ts ++ tail)).rest = (attemptsFrom n stop tail).rest
  | [], _, _ => ⟨rfl, rfl⟩
  | t :: ts, hts, hdeep => by
      obtain ⟨hleft, hright⟩ := hstretch.plain t (hts.mem (List.mem_cons_self ..))
      have hblock : ∀ u ∈ (t :: (ts ++ tail)).head?, u.kind ≠ .mark .leftBrace := by
        rintro _ ⟨⟩
        exact hleft
      have hinside : Inside stretch tail (t :: (ts ++ tail)) (t :: ts) :=
        ⟨⟨rfl, hts⟩, List.cons_ne_nil t ts⟩
      have hone := parallel_attemptWithin hn (places_stretch hstretch tail) hinside hblock
      rw [List.cons_append, attemptsFrom_cons (hstop t hright), Attempt.andThen_failures]
        at hdeep
      obtain ⟨hdeep, hdeep'⟩ := not_or.mp (mt tooDeep_append.mpr hdeep)
      obtain ⟨hfailures, hrest, hsuffix⟩ := hone.same.resolve_left hdeep
      have hless := (attemptWithin_advances n' t ts).length_le
      rw [hrest] at hdeep'
      obtain ⟨hblames, hend⟩ :=
        attemptsFrom_stretch hn hstretch hstop hwhole eof eof' hsuffix hdeep'
      have hnever : never t = false := rfl
      rw [List.cons_append, attemptsFrom_cons (hstop t hright), attemptsFrom_cons hnever, hrest]
      refine ⟨?_, hend⟩
      simp only [Attempt.andThen_failures, List.map_append,
        map_blame_stretch hfailures hwhole eof eof', hblames, List.append_assoc]
  termination_by ts => ts.length
  decreasing_by exact Nat.lt_succ_of_le hless

/-! ## Bodies -/

/-- A list of tokens that ends with a semicolon and has neither braces nor an end token in it. -/
structure Stretch where
  tokens : List Token
  plain : ∀ t ∈ tokens, t.kind ≠ .mark .leftBrace ∧ t.kind ≠ .mark .rightBrace ∧ t.kind ≠ .eof
  ends : tokens.getLast?.map Token.kind = some (.mark .semicolon)

theorem Stretch.inStretch (s : Stretch) : InStretch s.tokens where
  plain := fun t ht => ⟨(s.plain t ht).1, (s.plain t ht).2.1⟩
  ends := by
    intro t ht
    have hends := s.ends
    rw [ht] at hends
    exact Option.some.inj hends

/-- The braces of a group. -/
structure Braces where
  left : Token
  right : Token
  opens : left.kind = .mark .leftBrace
  closes : right.kind = .mark .rightBrace

/-- Stretches and groups, one after another, with bodies inside of the groups. -/
inductive Body where
  | nil
  | stretch (s : Stretch) (after : Body)
  | group (braces : Braces) (inside after : Body)

namespace Body

def tokens : Body → List Token
  | .nil => []
  | .stretch s after => s.tokens ++ after.tokens
  | .group braces inside after => braces.left :: (inside.tokens ++ braces.right :: after.tokens)

/-- The stretches of a body that starts at a given index, each with the index where it starts. -/
def stretchesFrom (k : Nat) : Body → List (Nat × Stretch)
  | .nil => []
  | .stretch s after => (k, s) :: after.stretchesFrom (k + s.tokens.length)
  | .group _ inside after =>
      inside.stretchesFrom (k + 1) ++ after.stretchesFrom (k + 1 + inside.tokens.length + 1)

/-- The trees of a body that starts at a given index: those of its stretches in their order, and one
block for each group. -/
def treesFrom (treesOf : Nat → Stretch → List Tree) (k : Nat) : Body → List Tree
  | .nil => []
  | .stretch s after => treesOf k s ++ after.treesFrom treesOf (k + s.tokens.length)
  | .group _ inside after =>
      .block (inside.treesFrom treesOf (k + 1))
        :: after.treesFrom treesOf (k + 1 + inside.tokens.length + 1)

theorem kind_ne_eof : ∀ (b : Body) {t : Token}, t ∈ b.tokens → t.kind ≠ .eof
  | .nil, _, ht => nomatch ht
  | .stretch s after, t, ht => by
      rw [tokens, List.mem_append] at ht
      obtain ht | ht := ht
      · exact (s.plain t ht).2.2
      · exact after.kind_ne_eof ht
  | .group braces inside after, t, ht => by
      rw [tokens, List.mem_cons, List.mem_append, List.mem_cons] at ht
      obtain rfl | ht | rfl | ht := ht
      · rw [braces.opens]
        nofun
      · exact inside.kind_ne_eof ht
      · rw [braces.closes]
        nofun
      · exact after.kind_ne_eof ht

end Body

/-! ## Misread numbers among blames -/

/-- The number that a blame is about, if it is one that is misread. -/
def Blame.misread? (b : Blame) : Option Token :=
  if b.reason = .misreadNumber then some b.token else none

theorem Failure.Apt.misread?_blame {f : Failure} (h : f.Apt) (body : List Token) (eof : Token) :
    (f.blame body eof).misread? = f.misread? := by
  show (if f.reason = _ then some (f.blamed.head?.getD eof) else none) = _
  rw [Failure.misread?]
  split
  · next hreason =>
      obtain ⟨t, ht, -⟩ := h.misread hreason
      rw [Option.mem_def.mp ht]
      rfl
  · rfl

/-- What the attempts at these tokens blame, numbers that are misread among it. -/
def blamesOfAttempts (ts : List Token) (eof : Token) : List Blame :=
  (attemptsFrom levelLimit never ts).failures.map (·.blame ts eof)

section

variable {ts : List Token} {eof : Token}

theorem misreadOf_eq_findSome? (hts : ∀ t ∈ ts, t.kind ≠ .eof) (heof : eof.kind = .eof) :
    misreadOf (ts ++ [eof]) = (blamesOfAttempts ts eof).findSome? Blame.misread? := by
  have happly : (attemptsFrom levelLimit never ts).failures.filterMap Failure.misread?
      = (attemptsFrom levelLimit never ts).failures.filterMap
          (Blame.misread? ∘ (·.blame ts eof)) :=
    List.filterMap_congr fun f hf => (((attempts_inOrder ts).apt f hf).misread?_blame ts eof).symm
  rw [misreadOf_split (splitAtEof_append_eof hts heof), blamesOfAttempts, List.findSome?_map,
    ← List.head?_filterMap, ← List.head?_filterMap, happly]

theorem blamesOf_eq_attempts (hts : ∀ t ∈ ts, t.kind ≠ .eof) (heof : eof.kind = .eof)
    (h : misreadOf (ts ++ [eof]) = none) : blamesOf (ts ++ [eof]) = blamesOfAttempts ts eof :=
  blamesOf_split (splitAtEof_append_eof hts heof) h

end

theorem findSome?_flatMap {α β γ : Type} (l : List α) (f : α → List β) (g : β → Option γ) :
    (l.flatMap f).findSome? g = l.findSome? fun a => (f a).findSome? g := by
  simp only [← List.head?_filterMap, List.filterMap_flatMap, List.head?_flatMap]

/-! ## Blames of a body -/

/-- What the attempts at the stretches of a body blame, each of them alone and with an end token of
its own. -/
def Body.blamesFrom (eofs : Nat → Token) (k : Nat) (b : Body) : List Blame :=
  (b.stretchesFrom k).flatMap fun p => (blamesOfAttempts p.2.tokens (eofs p.1)).map (·.further p.1)

theorem Body.blamesFrom_stretch (eofs : Nat → Token) (k : Nat) (s : Stretch) (after : Body) :
    (Body.stretch s after).blamesFrom eofs k
      = (blamesOfAttempts s.tokens (eofs k)).map (·.further k)
        ++ after.blamesFrom eofs (k + s.tokens.length) := by
  rw [blamesFrom, stretchesFrom, List.flatMap_cons]
  rfl

theorem Body.blamesFrom_group (eofs : Nat → Token) (k : Nat) (braces : Braces)
    (inside after : Body) : (Body.group braces inside after).blamesFrom eofs k
      = inside.blamesFrom eofs (k + 1)
        ++ after.blamesFrom eofs (k + 1 + inside.tokens.length + 1) := by
  rw [blamesFrom, stretchesFrom, List.flatMap_append]
  rfl

/-- What is recorded stays recorded when an attempt is closed. -/
theorem close_recorded_prefix (recorded : List Failure) (r : Except Failure (Tree × List Token)) :
    recorded <+: (Attempt.close recorded r).failures := by
  cases r with
  | ok _ => exact List.prefix_refl recorded
  | error f => exact List.prefix_append recorded [f]

theorem tooDeep_close {recorded : List Failure} {r : Except Failure (Tree × List Token)}
    (h : TooDeep recorded) : TooDeep (Attempt.close recorded r).failures := by
  obtain ⟨more, hmore⟩ := close_recorded_prefix recorded r
  rw [← hmore]
  exact tooDeep_append.mpr (.inl h)

/-- A block whose declarations end in front of its closing brace. -/
theorem attemptWithin_group (braces : Braces) {ts after : List Token}
    (h : (attemptsFrom n closesBlock ts).rest = braces.right :: after) :
    attemptWithin (n + 1) (braces.left :: ts) = ⟨(attemptsFrom n closesBlock ts).failures,
      some (.block (attemptsFrom n closesBlock ts).trees), after⟩ := by
  rw [attemptWithin_block braces.opens, readBlockEnd, h, expect_cons braces.closes]
  rfl

/-- The attempts at a body: they blame what its stretches blame, and then reading goes on behind
the body.  The induction goes into the groups, where there is one level less and the loop stops at
the closing brace. -/
theorem Body.attemptsFrom_tokens (eof : Token) (eofs : Nat → Token) :
    ∀ (b : Body) {n k : Nat} {stop : Token → Bool} {tail : List Token}, n ≤ levelLimit →
      StopsAtBraces stop → whole.length = k + (b.tokens ++ tail).length →
      ¬ TooDeep (attemptsFrom n stop (b.tokens ++ tail)).failures →
      (attemptsFrom n stop (b.tokens ++ tail)).failures.map (·.blame whole eof)
          = b.blamesFrom eofs k ++ (attemptsFrom n stop tail).failures.map (·.blame whole eof) ∧
        (attemptsFrom n stop (b.tokens ++ tail)).rest = (attemptsFrom n stop tail).rest := by
  intro b
  induction b with
  | nil =>
      intro n k stop tail _ _ _ _
      exact ⟨rfl, rfl⟩
  | stretch s after ih =>
      intro n k stop tail hn hstop hwhole hdeep
      rw [tokens, List.append_assoc] at hwhole hdeep ⊢
      obtain ⟨hblames, hrest⟩ := attemptsFrom_stretch hn s.inStretch hstop hwhole eof (eofs k)
        (List.suffix_refl s.tokens) hdeep
      have hafter : whole.length = k + s.tokens.length + (after.tokens ++ tail).length := by
        rw [hwhole, List.length_append, Nat.add_assoc]
      obtain ⟨hblames', hrest'⟩ := ih hn hstop hafter (not_tooDeep_of_blames hdeep hblames)
      refine ⟨?_, hrest.trans hrest'⟩
      rw [hblames, hblames', blamesFrom_stretch, blamesOfAttempts, List.map_map,
        List.append_assoc]
      rfl
  | group braces inside after ihInside ihAfter =>
      intro n k stop tail hn hstop hwhole hdeep
      have hleft : stop braces.left = false := hstop braces.left (by rw [braces.opens]; nofun)
      have hright : closesBlock braces.right = true := by simp [closesBlock, braces.closes]
      have htokens : (group braces inside after).tokens ++ tail
          = braces.left :: (inside.tokens ++ braces.right :: (after.tokens ++ tail)) := by
        simp only [tokens, List.cons_append, List.append_assoc]
      rw [htokens] at hwhole hdeep ⊢
      rw [attemptsFrom_cons hleft, Attempt.andThen_failures, tooDeep_append, not_or] at hdeep
      obtain ⟨hone, hothers⟩ := hdeep
      cases n with
      | zero => exact absurd ⟨_, List.mem_singleton_self _, rfl⟩ hone
      | succ m =>
          have hinside : whole.length
              = k + 1 + (inside.tokens ++ braces.right :: (after.tokens ++ tail)).length := by
            rw [hwhole, List.length_cons]
            omega
          have hafter : whole.length
              = k + 1 + inside.tokens.length + 1 + (after.tokens ++ tail).length := by
            rw [hinside, List.length_append, List.length_cons]
            omega
          rw [attemptWithin_block braces.opens] at hone
          obtain ⟨hblames, hrest⟩ := ihInside (Nat.le_of_succ_le hn) closesBlock_stopsAtBraces
            hinside (mt tooDeep_close hone)
          rw [attemptsFrom_of_stop hright] at hblames hrest
          have hgroup := attemptWithin_group braces hrest
          rw [hgroup] at hothers
          obtain ⟨hblames', hrest'⟩ := ihAfter hn hstop hafter hothers
          rw [attemptsFrom_cons hleft, hgroup]
          refine ⟨?_, hrest'⟩
          rw [Attempt.andThen_failures, List.map_append, hblames, hblames', List.map_nil,
            List.append_nil, blamesFrom_group, List.append_assoc]

/-! ## Programs of a body -/

/-- What is read of tokens without end tokens is derived by all of them. -/
theorem program_of_parse {ts : List Token} {eof : Token} {trees : List Tree}
    (hts : ∀ t ∈ ts, t.kind ≠ .eof) (heof : eof.kind = .eof)
    (h : parse (ts ++ [eof]) = .ok trees) : Program ts trees := by
  obtain ⟨hprogram, _⟩ := (parse_ok_iff heof ts trees).mp h
  rwa [bodyOf_append_eof hts heof] at hprogram

theorem Body.program {treesOf : Nat → Stretch → List Tree} : ∀ (b : Body) (k : Nat),
    (∀ p ∈ b.stretchesFrom k, Program p.2.tokens (treesOf p.1 p.2)) →
      Program b.tokens (b.treesFrom treesOf k)
  | .nil, _, _ => .nil
  | .stretch s after, k, h => by
      obtain ⟨hs, hafter⟩ := List.forall_mem_cons.mp h
      exact (after.program _ hafter).append hs
  | .group braces inside after, k, h => by
      obtain ⟨hinside, hafter⟩ := List.forall_mem_append.mp h
      have hblock := Declaration.block braces.opens (inside.program _ hinside) braces.closes
      have hprogram := Program.cons hblock (after.program _ hafter)
      rw [tokens, treesFrom]
      simpa only [List.cons_append, List.append_assoc, List.nil_append] using hprogram

/-- The attempts at a body that does not use up the levels blame what those at its stretches do. -/
theorem Body.blamesOfAttempts_tokens (b : Body) (eof : Token) (eofs : Nat → Token)
    (hdeep : ∀ f ∈ (attemptProgram b.tokens).failures, f.reason ≠ .nestingTooDeep) :
    blamesOfAttempts b.tokens eof = b.blamesFrom eofs 0 := by
  have hshallow : ¬ TooDeep (attemptsFrom levelLimit never (b.tokens ++ [])).failures := by
    rw [List.append_nil]
    rintro ⟨f, hf, hreason⟩
    exact hdeep f hf hreason
  have hwhole : b.tokens.length = 0 + (b.tokens ++ []).length := by simp
  have hnever : StopsAtBraces never := fun _ _ => rfl
  obtain ⟨hblames, _⟩ :=
    b.attemptsFrom_tokens eof eofs (Nat.le_refl levelLimit) hnever hwhole hshallow
  simpa only [blamesOfAttempts, List.append_nil, attemptsFrom_nil, List.map_nil] using hblames

/-- A body is read as its stretches are read alone.  The number that it misreads is the first one
that any of them misreads.  If there is none, it blames what they blame, in their order and with
nothing added, and if each of them is a program, it is their program with a block for each group.
The levels have to suffice for all of it. -/
theorem blamesOf_body (b : Body) {eof : Token} (heof : eof.kind = .eof) (eofs : Nat → Token)
    (heofs : ∀ k, (eofs k).kind = .eof)
    (hdeep : ∀ f ∈ (attemptProgram b.tokens).failures, f.reason ≠ .nestingTooDeep) :
    misreadOf (b.tokens ++ [eof])
        = (b.stretchesFrom 0).findSome? (fun p => misreadOf (p.2.tokens ++ [eofs p.1])) ∧
      (misreadOf (b.tokens ++ [eof]) = none →
        blamesOf (b.tokens ++ [eof]) = (b.stretchesFrom 0).flatMap (fun p =>
          (blamesOf (p.2.tokens ++ [eofs p.1])).map (·.further p.1))) ∧
      ∀ treesOf : Nat → Stretch → List Tree,
        (∀ p ∈ b.stretchesFrom 0, parse (p.2.tokens ++ [eofs p.1]) = .ok (treesOf p.1 p.2)) →
          parse (b.tokens ++ [eof]) = .ok (b.treesFrom treesOf 0) := by
  have hplain : ∀ t ∈ b.tokens, t.kind ≠ .eof := fun t => b.kind_ne_eof
  have hstretch (p : Nat × Stretch) : ∀ t ∈ p.2.tokens, t.kind ≠ .eof :=
    fun t ht => (p.2.plain t ht).2.2
  have hattempts := b.blamesOfAttempts_tokens eof eofs hdeep
  have hfirst : misreadOf (b.tokens ++ [eof])
      = (b.stretchesFrom 0).findSome? (fun p => misreadOf (p.2.tokens ++ [eofs p.1])) := by
    rw [misreadOf_eq_findSome? hplain heof, hattempts, Body.blamesFrom, findSome?_flatMap]
    congr 1
    funext p
    rw [misreadOf_eq_findSome? (hstretch p) (heofs p.1), List.findSome?_map]
    rfl
  have hblames (hmisread : misreadOf (b.tokens ++ [eof]) = none) :
      blamesOf (b.tokens ++ [eof]) = (b.stretchesFrom 0).flatMap (fun p =>
        (blamesOf (p.2.tokens ++ [eofs p.1])).map (·.further p.1)) := by
    rw [blamesOf_eq_attempts hplain heof hmisread, hattempts]
    refine List.flatMap_congr fun p hp => ?_
    have hnone := List.findSome?_eq_none_iff.mp (hfirst.symm.trans hmisread) p hp
    rw [blamesOf_eq_attempts (hstretch p) (heofs p.1) hnone]
  refine ⟨hfirst, hblames, fun treesOf hparse => ?_⟩
  have hmisread : misreadOf (b.tokens ++ [eof]) = none := by
    refine hfirst.trans (List.findSome?_eq_none_iff.mpr fun p hp => ?_)
    rw [misreadOf, hparse p hp]
  have hnone : blamesOf (b.tokens ++ [eof]) = [] := by
    refine (hblames hmisread).trans (List.flatMap_eq_nil_iff.mpr fun p hp => ?_)
    rw [blamesOf, hparse p hp]
    rfl
  obtain ⟨trees, htrees⟩ :=
    exists_parse_of_blamesOf_nil (splitAtEof_append_eof hplain heof) hmisread hnone
  have hprogram : Program b.tokens (b.treesFrom treesOf 0) := b.program 0 fun p hp =>
    program_of_parse (hstretch p) (heofs p.1) (hparse p hp)
  rw [htrees, program_unique (program_of_parse hplain heof htrees) hprogram]

/-- `* ; { a a ; print a ; }`, where both the stretch in front of the group and the one in it start
with a fault, and `{ print a ; }`, where there is none. -/
theorem blamesOf_body_fault_in_group :
    let star : Token := ⟨.mark .star, "*", 0⟩
    let a : Token := ⟨.identifier, "a", 0⟩
    let print : Token := ⟨.word .print, "print", 0⟩
    let semicolon : Token := ⟨.mark .semicolon, ";", 0⟩
    let eof : Token := ⟨.eof, "", 0⟩
    let braces : Braces := ⟨⟨.mark .leftBrace, "\x7b", 0⟩, ⟨.mark .rightBrace, "\x7d", 0⟩, rfl, rfl⟩
    let b : Body := .stretch ⟨[star, semicolon], by decide, rfl⟩
      (.group braces (.stretch ⟨[a, a, semicolon, print, a, semicolon], by decide, rfl⟩ .nil) .nil)
    let b' : Body := .group braces (.stretch ⟨[print, a, semicolon], by decide, rfl⟩ .nil) .nil
    blamesOf (b.tokens ++ [eof]) = [⟨.noExpression, star, 0⟩, ⟨.expressionEnd, a, 4⟩] ∧
      blamesOf (b.tokens ++ [eof]) = (b.stretchesFrom 0).flatMap (fun p =>
        (blamesOf (p.2.tokens ++ [eof])).map (·.further p.1)) ∧
      parse (b'.tokens ++ [eof]) = .ok [.block [.print (.reference a)]] := by
  intro star a print semicolon eof braces b b'
  have hblames : blamesOf (b.tokens ++ [eof])
      = [⟨.noExpression, star, 0⟩, ⟨.expressionEnd, a, 4⟩] := rfl
  have hreasons : (attemptProgram b.tokens).failures.map Failure.reason
      = [.noExpression, .expressionEnd] := rfl
  have hshallow : ∀ r ∈ (attemptProgram b.tokens).failures.map Failure.reason,
      r ≠ .nestingTooDeep := by
    rw [hreasons]
    decide
  have hnone : (attemptProgram b'.tokens).failures = [] := rfl
  refine ⟨hblames, (blamesOf_body b rfl (fun _ => eof) (fun _ => rfl) ?_).2.1 rfl, ?_⟩
  · exact fun f hf => hshallow f.reason (List.mem_map_of_mem hf)
  · refine (blamesOf_body b' rfl (fun _ => eof) (fun _ => rfl) ?_).2.2
      (fun _ _ => [.print (.reference a)]) (List.forall_mem_singleton.mpr rfl)
    rw [hnone]
    exact List.forall_mem_nil _

/-- `* ;` and behind it a number that is spelled `abc`.  The first stretch alone has a fault, which
is not reported where the second one comes behind it. -/
theorem blamesOf_body_misread_number :
    let star : Token := ⟨.mark .star, "*", 0⟩
    let abc : Token := ⟨.number, "abc", 0⟩
    let semicolon : Token := ⟨.mark .semicolon, ";", 0⟩
    let eof : Token := ⟨.eof, "", 0⟩
    let b : Body := .stretch ⟨[star, semicolon], by decide, rfl⟩
      (.stretch ⟨[abc, semicolon], by decide, rfl⟩ .nil)
    parse (b.tokens ++ [eof]) = .error (.misread abc) ∧
      blamesOf ([star, semicolon] ++ [eof]) = [⟨.noExpression, star, 0⟩] ∧
      blamesOf (b.tokens ++ [eof]) ≠ (b.stretchesFrom 0).flatMap (fun p =>
        (blamesOf (p.2.tokens ++ [eof])).map (·.further p.1)) := by
  intro star abc semicolon eof b
  have hparse : parse (b.tokens ++ [eof]) = .error (.misread abc) := by
    subst abc semicolon eof b
    rfl
  have hblames : blamesOf ([star, semicolon] ++ [eof]) = [⟨.noExpression, star, 0⟩] := rfl
  refine ⟨hparse, hblames, fun h => ?_⟩
  rw [blamesOf, hparse] at h
  cases h

end RoxLang.Descent
