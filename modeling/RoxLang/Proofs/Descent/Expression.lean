/-
# `RoxLang.Proofs.Descent.Expression` — the descent reads the expressions of the grammar

Two statements, one for each direction.  What a rule reads is derived by that rule, and it takes no
more levels than there were (`readWithin_sound`).  What a rule derives is read in full by it, given
enough levels and a next token that does not go on with the expression (`readWithin_of_derives`).

The second needs more for a chain.  A chain is derived from its left end but its steps are read
one after the other by a loop, so the induction speaks of the loop: having read a derived chain, the
reader is in its loop with the tree of that chain, and whether the loop goes on is for the next
token to say.
-/
import RoxLang.Proofs.Descent.Levels

namespace RoxLang.Descent

open Grammar RoxLang.Tree

/-! ## Reading one thing after another -/

/-- Where the whole has been read, so have its parts. -/
theorem ok_of_bind {ε α β : Type} {x : Except ε α} {f : α → Except ε β} {b : β}
    (h : (x >>= f) = .ok b) : ∃ a, x = .ok a ∧ f a = .ok b := by
  cases x with
  | ok a => exact ⟨a, rfl, h⟩
  | error f => cases h

theorem error_of_bind {ε α β : Type} {x : Except ε α} {f : α → Except ε β} {e : ε}
    (h : (x >>= f) = .error e) : x = .error e ∨ ∃ a, x = .ok a ∧ f a = .error e := by
  cases x with
  | ok a => exact .inr ⟨a, rfl, h⟩
  | error e' =>
      cases h
      exact .inl rfl

theorem ok_bind {ε α β : Type} (a : α) (f : α → Except ε β) : (Except.ok a >>= f) = f a := rfl

theorem expect_cons {kind : Kind} {t : Token} (h : t.kind = kind) (reason : Reason)
    (ts : List Token) : expect kind reason (t :: ts) = .ok (t, ts) := by
  simp [expect, h]

theorem expect_cons_ne {kind : Kind} {t : Token} (h : t.kind ≠ kind) (reason : Reason)
    (ts : List Token) : expect kind reason (t :: ts) = .error (.here reason (t :: ts)) :=
  if_neg h

theorem expect_eq_ok {kind : Kind} {reason : Reason} {ts rest : List Token} {t : Token}
    (h : expect kind reason ts = .ok (t, rest)) : ts = t :: rest ∧ t.kind = kind := by
  cases ts with
  | nil => cases h
  | cons u us =>
      by_cases hu : u.kind = kind
      · rw [expect_cons hu] at h
        cases h
        exact ⟨rfl, hu⟩
      · simp [expect, hu] at h

theorem expect_eq_error {kind : Kind} {reason : Reason} {ts : List Token} {f : Failure}
    (h : expect kind reason ts = .error f) :
    f.blamed = ts ∧ ∀ t ∈ ts.head?, t.kind ≠ kind := by
  cases ts with
  | nil =>
      cases h
      exact ⟨rfl, nofun⟩
  | cons t ts =>
      by_cases ht : t.kind = kind
      · rw [expect_cons ht] at h
        cases h
      · rw [expect_cons_ne ht] at h
        cases h
        refine ⟨rfl, fun u hu => ?_⟩
        cases hu
        exact ht

/-! ## What is read is derived -/

/-- A rule has read `e` within so many levels and left `rest`: what it took derives `e`. -/
def Taken (levels : Nat) (rule : Rule) (ts : List Token) (e : Tree) (rest : List Token) : Prop :=
  ∃ us, ts = us ++ rest ∧ Derives rule us e ∧ levelsFrom rule e ≤ levels

theorem Taken.loosen {levels : Nat} {rule looser : Rule} {ts rest : List Token} {e : Tree}
    (hr : rule.rank = looser.rank + 1) (hd : ∀ {us}, Derives rule us e → Derives looser us e)
    (h : Taken levels rule ts e rest) : Taken (levels + 1) looser ts e rest := by
  obtain ⟨us, rfl, h, hl⟩ := h
  exact ⟨us, rfl, hd h, Nat.le_trans (levelsFrom_le_succ hr e) (Nat.succ_le_succ hl)⟩

/-- The loop of a chain: behind the operands read so far, it reads on to a longer chain. -/
theorem readSteps_sound {tier : Tier} {n : Nat}
    (operand : ∀ {ts e rest}, readWithin n (.operandOf tier) ts = .ok (e, rest) →
      Taken n (.operandOf tier) ts e rest) :
    ∀ {steps : Nat} {left e : Tree} {us ts rest : List Token},
      Derives (.chain tier) us left → levelsFrom (.chain tier) left ≤ n + 1 →
      readSteps tier (readWithin n (.operandOf tier)) steps left ts = .ok (e, rest) →
      Taken (n + 1) (.chain tier) (us ++ ts) e rest
  | 0, _, _, us, _, _, hl, hlevels, h => by
      cases h
      exact ⟨us, rfl, hl, hlevels⟩
  | _ + 1, _, _, us, [], _, hl, hlevels, h => by
      cases h
      exact ⟨us, rfl, hl, hlevels⟩
  | steps + 1, left, e, us, t :: ts, rest, hl, hlevels, h => by
      by_cases ht : t.kind.tier? = some tier
      · simp only [readSteps, ht, if_true] at h
        obtain ⟨⟨right, after⟩, hr, hgo⟩ := ok_of_bind h
        obtain ⟨vs, rfl, hr, hrlevels⟩ := operand hr
        have hstep := Derives.step hl (operator_iff.mpr ht) hr
        have := readSteps_sound operand hstep
          (by rw [levelsFrom_step ht]; omega) hgo
        simpa using this
      · simp only [readSteps, ht, if_false] at h
        cases h
        exact ⟨us, rfl, hl, hlevels⟩

/-- The right side of an assignment, and with it the assignment. -/
theorem assigned_eq_ok {target e : Tree} {place rest : List Token}
    {reading : Except Failure (Tree × List Token)}
    (h : assigned target place reading = .ok (e, rest)) :
    ∃ name value, target = .reference name ∧ e = .assign name value ∧
      reading = .ok (value, rest) := by
  cases reading with
  | error f => cases h
  | ok r =>
      obtain ⟨value, after⟩ := r
      cases target with
      | reference name =>
          cases h
          exact ⟨name, value, rfl, rfl, rfl⟩
      | _ => cases h

theorem assigned_eq_error {target : Tree} {place : List Token}
    {reading : Except Failure (Tree × List Token)} {f : Failure}
    (h : assigned target place reading = .error f) :
    reading = .error f ∨ f.blamed = place ∧ ∀ name, target ≠ .reference name := by
  cases reading with
  | error g => exact .inl h
  | ok r =>
      obtain ⟨value, rest⟩ := r
      right
      cases target with
      | reference name => cases h
      | _ =>
          cases h
          exact ⟨rfl, fun name heq => by cases heq⟩

/-- What one level less reads is taken from the front of the tokens. -/
def SoundWithin (n : Nat) : Prop := ∀ {rule : Rule} {ts rest : List Token} {e : Tree},
  readWithin n rule ts = .ok (e, rest) → Taken n rule ts e rest

section

variable {n : Nat} {ts rest : List Token} {e : Tree}

theorem SoundWithin.assignment (ih : SoundWithin n)
    (h : readWithin (n + 1) .assignment ts = .ok (e, rest)) :
    Taken (n + 1) .assignment ts e rest := by
  simp only [readWithin] at h
  obtain ⟨⟨target, after⟩, ht, hgo⟩ := ok_of_bind h
  have htaken := ih ht
  cases after with
  | nil =>
      cases hgo
      exact htaken.loosen rfl .equality
  | cons t after =>
      by_cases heq : t.kind = .mark .equal
      · simp only [heq, if_true] at hgo
        obtain ⟨name, value, rfl, rfl, hv⟩ := assigned_eq_ok hgo
        obtain ⟨us, rfl, htd, htl⟩ := htaken
        obtain ⟨vs, rfl, hvd, hvl⟩ := ih hv
        obtain ⟨rfl, hname⟩ := htd.eq_of_reference
        refine ⟨name :: t :: vs, by simp, .assign hname heq hvd, ?_⟩
        rw [levelsFrom_reference] at htl
        rw [levelsFrom_assign]
        omega
      · simp only [heq, if_false] at hgo
        cases hgo
        exact htaken.loosen rfl .equality

theorem SoundWithin.chain (ih : SoundWithin n) {tier : Tier}
    (h : readWithin (n + 1) (.chain tier) ts = .ok (e, rest)) :
    Taken (n + 1) (.chain tier) ts e rest := by
  simp only [readWithin] at h
  obtain ⟨⟨first, after⟩, hf, hgo⟩ := ok_of_bind h
  obtain ⟨us, rfl, hfd, hfl⟩ := (ih hf).loosen (Rule.rank_operandOf tier) .operand
  exact readSteps_sound ih hfd hfl hgo

theorem SoundWithin.unary (ih : SoundWithin n) (h : readWithin (n + 1) .unary ts = .ok (e, rest)) :
    Taken (n + 1) .unary ts e rest := by
  cases ts with
  | nil =>
      simp only [readWithin] at h
      exact (ih h).loosen rfl .primary
  | cons t ts =>
      simp only [readWithin] at h
      by_cases hs : t.kind.isUnary = true
      · simp only [hs, if_true] at h
        obtain ⟨⟨operand, after⟩, ho, hgo⟩ := ok_of_bind h
        cases hgo
        obtain ⟨us, rfl, hod, hol⟩ := ih ho
        refine ⟨t :: us, rfl, .sign (sign_iff.mpr hs) hod, ?_⟩
        rw [levelsFrom_sign]
        exact Nat.succ_le_succ hol
      · simp only [hs] at h
        exact (ih h).loosen rfl .primary

theorem SoundWithin.primary (ih : SoundWithin n)
    (h : readWithin (n + 1) .primary ts = .ok (e, rest)) : Taken (n + 1) .primary ts e rest := by
  cases ts with
  | nil => cases h
  | cons t ts =>
      simp only [readWithin] at h
      split at h
      · next atom ha =>
          cases h
          have ha := atom_iff.mpr ha
          refine ⟨[t], rfl, .atom ha, ?_⟩
          cases ha <;> exact Nat.le_add_left 1 n
      · by_cases hp : t.kind = .mark .leftParen
        · simp only [hp, if_true] at h
          obtain ⟨⟨inner, after⟩, hi, hgo⟩ := ok_of_bind h
          obtain ⟨⟨r, rest⟩, hr, hgo⟩ := ok_of_bind hgo
          cases hgo
          obtain ⟨rfl, hkind⟩ := expect_eq_ok hr
          obtain ⟨us, rfl, hid, hil⟩ := ih hi
          refine ⟨t :: (us ++ [r]), by simp, .group hp hkind hid, ?_⟩
          rw [levelsFrom_group]
          exact Nat.succ_le_succ hil
        · simp only [hp, if_false] at h
          cases h

end

theorem readWithin_sound (n : Nat) : SoundWithin n := by
  induction n with
  | zero =>
      intro rule ts rest e h
      cases h
  | succ n ih =>
      intro rule ts rest e h
      cases rule with
      | assignment => exact ih.assignment h
      | chain tier => exact ih.chain h
      | unary => exact ih.unary h
      | primary => exact ih.primary h

/-! ## What is derived is read -/

/-- The rank of the rule that a token between two operands belongs to. -/
def joint? : Kind → Option Nat
  | .mark .equal => some 0
  | k => k.tier?.map (·.rank + 1)

/-- The next token does not go on with what the rule has read. -/
def Ends (rule : Rule) (rest : List Token) : Prop :=
  ∀ t ∈ rest.head?, ∀ rank ∈ joint? t.kind, rank < rule.rank

theorem Ends.tighten {rule tighter : Rule} {rest : List Token} (h : Ends rule rest)
    (hr : rule.rank ≤ tighter.rank) : Ends tighter rest :=
  fun t ht rank hrank => Nat.lt_of_lt_of_le (h t ht rank hrank) hr

theorem ends_of_joint?_eq_none {t : Token} (rule : Rule) (h : joint? t.kind = none)
    (rest : List Token) : Ends rule (t :: rest) := by
  intro u hu rank hrank
  cases hu
  rw [h] at hrank
  cases hrank

theorem joint?_of_tier? {k : Kind} {tier : Tier} (h : k.tier? = some tier) :
    joint? k = some (tier.rank + 1) := by
  unfold joint?
  split
  · cases h
  · rw [h]; rfl

/-- An operator ends the operand in front of it. -/
theorem ends_operandOf {tier : Tier} {op : Token} (h : op.kind.tier? = some tier)
    (rest : List Token) : Ends (.operandOf tier) (op :: rest) := by
  intro t ht rank hrank
  cases ht
  rw [joint?_of_tier? h] at hrank
  cases hrank
  rw [Rule.rank_operandOf]
  exact Nat.lt_succ_self _

/-- The loop of a chain stops in front of a token that does not go on with the chain. -/
theorem readSteps_of_ends {tier : Tier} {rest : List Token} (h : Ends (.chain tier) rest)
    (operand : List Token → Except Failure (Tree × List Token)) (steps : Nat) (left : Tree) :
    readSteps tier operand steps left rest = .ok (left, rest) := by
  match steps, rest with
  | 0, _ | _ + 1, [] => rfl
  | steps + 1, t :: rest =>
      have ht : t.kind.tier? ≠ some tier := fun ht =>
        absurd (h t rfl _ (joint?_of_tier? ht)) (Nat.lt_irrefl _)
      simp only [readSteps, ht, if_false]

/-- What the induction says of a derivation.  Behind a derived chain the reader is in the loop of
that chain; the tokens behind need not end the chain, only its last operand. -/
def Found (rule : Rule) (us : List Token) (e : Tree) : Prop :=
  match rule with
  | .chain tier => ∀ n rest, levelsFrom (.chain tier) e ≤ n + 1 → Ends (.operandOf tier) rest →
      ∃ steps, rest.length ≤ steps ∧ readWithin (n + 1) (.chain tier) (us ++ rest)
        = readSteps tier (readWithin n (.operandOf tier)) steps e rest
  | rule => ∀ n rest, levelsFrom rule e ≤ n → Ends rule rest →
      readWithin n rule (us ++ rest) = .ok (e, rest)

theorem Found.read {rule : Rule} {us rest : List Token} {e : Tree} {n : Nat}
    (h : Found rule us e) (hn : levelsFrom rule e ≤ n) (hrest : Ends rule rest) :
    readWithin n rule (us ++ rest) = .ok (e, rest) := by
  cases rule with
  | chain tier =>
      have := one_le_levelsFrom (.chain tier) e
      obtain ⟨n, rfl⟩ : ∃ m, n = m + 1 := ⟨n - 1, by omega⟩
      obtain ⟨steps, _, heq⟩ := h n rest hn (hrest.tighten (by rw [Rule.rank_operandOf]; omega))
      rw [heq, readSteps_of_ends hrest]
  | assignment | unary | primary => exact h n rest hn hrest

theorem Found.atom {t : Token} {e : Tree} (h : Atom t e) : Found .primary [t] e := by
  intro n rest hn _
  have := one_le_levelsFrom .primary e
  obtain ⟨n, rfl⟩ : ∃ m, n = m + 1 := ⟨n - 1, by omega⟩
  simp only [List.cons_append, List.nil_append, readWithin, atom_iff.mp h]

theorem Found.group {l r : Token} {us : List Token} {e : Tree} (hl : l.kind = .mark .leftParen)
    (hr : r.kind = .mark .rightParen) (h : Found .assignment us e) :
    Found .primary (l :: (us ++ [r])) (.grouping e) := by
  intro n rest hn _
  rw [levelsFrom_group] at hn
  obtain ⟨n, rfl⟩ : ∃ m, n = m + 1 := ⟨n - 1, by omega⟩
  have hatom : Tree.atom? l = none := by simp only [Tree.atom?, hl]
  have hin : readWithin n .assignment (us ++ r :: rest) = .ok (e, r :: rest) :=
    h.read (by omega) (ends_of_joint?_eq_none _ (by rw [hr]; rfl) rest)
  simp only [List.cons_append, List.append_assoc, List.nil_append, readWithin, hatom, hl, if_true,
    hin, ok_bind, expect_cons hr]

theorem Found.primary {us : List Token} {e : Tree} (hd : Derives .primary us e)
    (h : Found .primary us e) : Found .unary us e := by
  intro n rest hn hrest
  rw [@levelsFrom_succ .primary _ rfl _ hd.rank_le] at hn
  obtain ⟨n, rfl⟩ : ∃ m, n = m + 1 := ⟨n - 1, by omega⟩
  have hread := h.read (n := n) (by omega) (hrest.tighten (by decide))
  obtain ⟨t, us, rfl, ht⟩ := hd.start_not_sign
  simp only [List.cons_append, readWithin, ht, Bool.false_eq_true, if_false]
  exact hread

theorem Found.sign {op : Token} {us : List Token} {e : Tree} (hop : Sign op.kind)
    (h : Found .unary us e) : Found .unary (op :: us) (.unary op e) := by
  intro n rest hn hrest
  rw [levelsFrom_sign] at hn
  obtain ⟨n, rfl⟩ : ∃ m, n = m + 1 := ⟨n - 1, by omega⟩
  have hread := h.read (n := n) (by omega) hrest
  simp only [List.cons_append, readWithin, sign_iff.mp hop, if_true, hread, ok_bind]

theorem Found.operand {tier : Tier} {us : List Token} {e : Tree}
    (hd : Derives (.operandOf tier) us e) (h : Found (.operandOf tier) us e) :
    Found (.chain tier) us e := by
  intro n rest hn hrest
  rw [levelsFrom_succ (Rule.rank_operandOf tier) hd.rank_le] at hn
  have hread := h.read (n := n) (by omega) hrest
  exact ⟨rest.length, Nat.le_refl _, by simp only [readWithin, hread, ok_bind]⟩

theorem Found.step {tier : Tier} {op : Token} {us vs : List Token} {l r : Tree}
    (hl : Found (.chain tier) us l) (hop : Operator tier op.kind)
    (hr : Found (.operandOf tier) vs r) :
    Found (.chain tier) (us ++ op :: vs) (.binary l op r) := by
  intro n rest hn hrest
  have htier := operator_iff.mp hop
  rw [levelsFrom_step htier] at hn
  obtain ⟨steps, hsteps, heq⟩ := hl n _ (by omega) (ends_operandOf htier (vs ++ rest))
  simp only [List.length_cons, List.length_append] at hsteps
  obtain ⟨steps, rfl⟩ : ∃ m, steps = m + 1 := ⟨steps - 1, by omega⟩
  have hread := hr.read (n := n) (by omega) hrest
  refine ⟨steps, by omega, ?_⟩
  rw [List.append_assoc, List.cons_append, heq]
  simp only [readSteps, htier, if_true, hread, ok_bind]

theorem Found.equality {us : List Token} {e : Tree} (hd : Derives (.chain .equality) us e)
    (h : Found (.chain .equality) us e) : Found .assignment us e := by
  intro n rest hn hrest
  rw [@levelsFrom_succ (.chain .equality) _ rfl _ hd.rank_le] at hn
  obtain ⟨n, rfl⟩ : ∃ m, n = m + 1 := ⟨n - 1, by omega⟩
  have hread := h.read (n := n) (by omega) (hrest.tighten (Nat.zero_le _))
  simp only [readWithin, hread, ok_bind]
  match rest with
  | [] => rfl
  | t :: rest =>
      have ht : t.kind ≠ .mark .equal := fun ht =>
        absurd (hrest t rfl 0 (by rw [ht]; rfl)) (Nat.lt_irrefl 0)
      simp only [ht, if_false]

theorem Found.name {name : Token} (h : name.kind = .identifier) :
    Found (.chain .equality) [name] (.reference name) := by
  have hp : Derives .primary [name] (.reference name) := .atom (.name h)
  have hu := Derives.primary hp
  have hf := @Derives.operand .factor _ _ hu
  have ht := @Derives.operand .term _ _ hf
  have hc := @Derives.operand .comparison _ _ ht
  have hp' := Found.primary hp (Found.atom (.name h))
  have hf' := @Found.operand .factor _ _ hu hp'
  have ht' := @Found.operand .term _ _ hf hf'
  exact @Found.operand .equality _ _ hc (@Found.operand .comparison _ _ ht ht')

theorem Found.assign {name equal : Token} {us : List Token} {e : Tree}
    (hname : name.kind = .identifier) (hequal : equal.kind = .mark .equal)
    (h : Found .assignment us e) : Found .assignment (name :: equal :: us) (.assign name e) := by
  intro n rest hn hrest
  rw [levelsFrom_assign] at hn
  obtain ⟨n, rfl⟩ : ∃ m, n = m + 1 := ⟨n - 1, by omega⟩
  have hends : Ends (.chain .equality) (equal :: (us ++ rest)) := by
    intro t ht rank hrank
    cases ht
    rw [hequal] at hrank
    cases hrank
    exact Nat.zero_lt_succ _
  have htarget : readWithin n (.chain .equality) (name :: equal :: (us ++ rest)) = _ :=
    Found.read (Found.name hname) (by rw [levelsFrom_reference]; omega) hends
  have hvalue := h.read (n := n) (by omega) hrest
  simp only [List.cons_append, readWithin, htarget, ok_bind, hequal, if_true, hvalue, assigned]

theorem found_of_derives {rule : Rule} {us : List Token} {e : Tree} (h : Derives rule us e) :
    Found rule us e := by
  induction h with
  | assign hname hequal _ ih => exact Found.assign hname hequal ih
  | equality h ih => exact Found.equality h ih
  | operand h ih => exact Found.operand h ih
  | step _ hop _ ihl ihr => exact Found.step ihl hop ihr
  | sign hop _ ih => exact Found.sign hop ih
  | primary h ih => exact Found.primary h ih
  | atom h => exact Found.atom h
  | group hl hr _ ih => exact Found.group hl hr ih

/-- A derived expression is read in full, and everything behind it is left. -/
theorem readWithin_of_derives {rule : Rule} {us rest : List Token} {e : Tree} {n : Nat}
    (h : Derives rule us e) (hn : levelsFrom rule e ≤ n) (hrest : Ends rule rest) :
    readWithin n rule (us ++ rest) = .ok (e, rest) :=
  (found_of_derives h).read hn hrest

/-! ## What is left does not go on with what has been read -/

theorem joint?_eq_some {k : Kind} {rank : Nat} (h : joint? k = some rank) :
    k = .mark .equal ∧ rank = 0 ∨ ∃ tier, k.tier? = some tier ∧ rank = tier.rank + 1 := by
  unfold joint? at h
  split at h
  · exact .inl ⟨rfl, (Option.some.inj h).symm⟩
  · obtain ⟨tier, htier, hrank⟩ := Option.map_eq_some_iff.mp h
    exact .inr ⟨tier, htier, hrank.symm⟩

/-- What is left by an operand ends the operand, and so the chain if no step of it follows. -/
theorem Ends.ofOperand {tier : Tier} {rest : List Token} (h : Ends (.operandOf tier) rest)
    (ht : ∀ t ∈ rest.head?, t.kind.tier? ≠ some tier) : Ends (.chain tier) rest := by
  intro t hmem rank hrank
  have hlt := h t hmem rank hrank
  rw [Rule.rank_operandOf] at hlt
  refine Nat.lt_of_le_of_ne (Nat.le_of_lt_succ hlt) fun heq => ?_
  obtain ⟨-, rfl⟩ | ⟨other, hother, rfl⟩ := joint?_eq_some hrank
  · cases heq
  · refine ht t hmem (hother.trans (congrArg some ?_))
    have hsame : other.rank = tier.rank := Nat.succ.inj heq
    cases other <;> cases tier <;> first | rfl | cases hsame

theorem ends_unary (rest : List Token) : Ends .unary rest := by
  intro t _ rank hrank
  obtain ⟨-, rfl⟩ | ⟨tier, -, rfl⟩ := joint?_eq_some hrank
  · exact Nat.zero_lt_succ _
  · exact Nat.succ_lt_succ (by cases tier <;> decide)

theorem readSteps_ends {tier : Tier} {n : Nat}
    (operand : ∀ {ts e rest}, readWithin n (.operandOf tier) ts = .ok (e, rest) →
      Ends (.operandOf tier) rest) :
    ∀ {steps : Nat} {left e : Tree} {ts rest : List Token}, ts.length ≤ steps →
      Ends (.operandOf tier) ts →
      readSteps tier (readWithin n (.operandOf tier)) steps left ts = .ok (e, rest) →
      Ends (.chain tier) rest
  | 0, _, _, [], _, _, hends, h | _ + 1, _, _, [], _, _, hends, h => by
      cases h
      exact hends.ofOperand nofun
  | 0, _, _, _ :: _, _, hlength, _, _ => absurd hlength (Nat.not_succ_le_zero _)
  | steps + 1, left, e, t :: ts, rest, hlength, hends, h => by
      by_cases ht : t.kind.tier? = some tier
      · simp only [readSteps, ht, if_true] at h
        obtain ⟨⟨right, after⟩, hr, hgo⟩ := ok_of_bind h
        obtain ⟨us, rfl, -, -⟩ := readWithin_sound n hr
        refine readSteps_ends operand ?_ (operand hr) hgo
        simp only [List.length_cons, List.length_append] at hlength
        omega
      · simp only [readSteps, ht, if_false] at h
        cases h
        exact hends.ofOperand fun _ hmem => by cases hmem; exact ht

/-- A rule reads as far as it goes: the next token does not go on with what has been read. -/
theorem readWithin_ends : ∀ {n : Nat} {rule : Rule} {ts rest : List Token} {e : Tree},
    readWithin n rule ts = .ok (e, rest) → Ends rule rest
  | n + 1, .assignment, ts, rest, e, h => by
      simp only [readWithin] at h
      obtain ⟨⟨target, after⟩, ht, hgo⟩ := ok_of_bind h
      have hends := readWithin_ends ht
      cases after with
      | nil =>
          cases hgo
          exact nofun
      | cons t after =>
          by_cases heq : t.kind = .mark .equal
          · simp only [heq, if_true] at hgo
            obtain ⟨name, value, rfl, rfl, hv⟩ := assigned_eq_ok hgo
            exact readWithin_ends hv
          · simp only [heq, if_false] at hgo
            cases hgo
            intro u hu rank hrank
            have hlt := hends u hu rank hrank
            cases hu
            obtain ⟨hequal, -⟩ | ⟨tier, -, rfl⟩ := joint?_eq_some hrank
            · exact absurd hequal heq
            · exact absurd hlt (Nat.not_lt_of_le (Nat.le_add_left 1 tier.rank))
  | n + 1, .chain tier, ts, rest, e, h => by
      simp only [readWithin] at h
      obtain ⟨⟨first, after⟩, hf, hgo⟩ := ok_of_bind h
      exact readSteps_ends (fun h => readWithin_ends h) (Nat.le_refl _) (readWithin_ends hf) hgo
  | _ + 1, .unary, _, rest, _, _ => ends_unary rest
  | _ + 1, .primary, _, rest, _, _ => (ends_unary rest).tighten (Nat.le_succ 5)

end RoxLang.Descent
