/-
# `RoxLang.Proofs.Descent.Parallel` — two readings side by side

What the descent does depends on the kinds of the tokens that it meets, one at a time, and on
nothing else.  So let two places be related in such a way that they show the same next token, and
that the places behind that token are related again.  Then two readings from such places make the
same tree or meet the same fault, and they stop at related places.

Two relations are needed.  `L` is for places inside of a statement and `M` for places behind one.
They differ because a statement ends with a semicolon, and inside of a statement no semicolon is
ever passed.  A use of the law chooses both; that a reading only ever moves forward is one use, and
that it does not look behind the end of a statement is another.

The second reading may have more levels than the first.  Then there is one way in which they part:
the first nests too deeply.
-/
import RoxLang.Proofs.Descent.Expression
import RoxLang.Descent.Program
import Mathlib.Data.List.Forall2

namespace RoxLang.Descent

/-- Places that show the same next token, with related places behind it. -/
inductive Ahead (L M : List Token → List Token → Prop) : List Token → List Token → Prop
  | nil : Ahead L M [] []
  | cons {t : Token} {ts ts' : List Token} : M ts ts' → (t.kind ≠ .mark .semicolon → L ts ts') →
      Ahead L M (t :: ts) (t :: ts')

/-- Relations on places that reading respects: on places inside of a statement and on places
behind one. -/
structure Places (L M : List Token → List Token → Prop) : Prop where
  ahead {ts ts' : List Token} : L ts ts' → Ahead L M ts ts'
  recover {ts ts' : List Token} : L ts ts' → M (synchronize ts) (synchronize ts')

/-- The ends of two readings: the same value at places related by `Q`, the same reason at places
related by `L`, or the first reading nests too deeply. -/
inductive Parallel {α : Type} (Q L : List Token → List Token → Prop) :
    Except Failure (α × List Token) → Except Failure (α × List Token) → Prop
  | ok {a : α} {rest rest' : List Token} : Q rest rest' →
      Parallel Q L (.ok (a, rest)) (.ok (a, rest'))
  | error {reason : Reason} {blamed blamed' resume resume' : List Token} : L blamed blamed' →
      L resume resume' → Parallel Q L (.error ⟨reason, blamed, resume⟩)
        (.error ⟨reason, blamed', resume'⟩)
  | deep {f : Failure} {blamed' resume' : List Token} {r : Except Failure (α × List Token)} :
      f.reason = .nestingTooDeep → L f.blamed blamed' → L f.resume resume' →
      Parallel Q L (.error f) r

section

variable {Q Q' L L' M : List Token → List Token → Prop} {α β : Type}

theorem Parallel.mono {r r' : Except Failure (α × List Token)} (h : Parallel Q L r r')
    (hQ : ∀ {ts ts'}, Q ts ts' → Q' ts ts') (hL : ∀ {ts ts'}, L ts ts' → L' ts ts') :
    Parallel Q' L' r r' := by
  cases h with
  | ok h => exact .ok (hQ h)
  | error hb hs => exact .error (hL hb) (hL hs)
  | deep hf hb hs => exact .deep hf (hL hb) (hL hs)

theorem Parallel.bind {r r' : Except Failure (α × List Token)}
    {k k' : α × List Token → Except Failure (β × List Token)} (h : Parallel Q L r r')
    (hk : ∀ (a : α) {rest rest' : List Token}, Q rest rest' →
      Parallel Q' L (k (a, rest)) (k' (a, rest'))) : Parallel Q' L (r >>= k) (r' >>= k') := by
  cases h with
  | ok h => exact hk _ h
  | error hb hs => exact .error hb hs
  | deep hf hb hs => exact .deep hf hb hs

theorem parallel_here {ts ts' : List Token} (h : L ts ts') (reason : Reason) :
    Parallel (α := α) Q L (.error (.here reason ts)) (.error (.here reason ts')) := .error h h

variable {ts ts' : List Token}

theorem parallel_expect (hL : Places L M) (h : L ts ts') (kind : Kind) (reason : Reason) :
    Parallel M L (expect kind reason ts) (expect kind reason ts') := by
  cases hL.ahead h with
  | nil => exact parallel_here h reason
  | @cons t us us' hM _ =>
      by_cases ht : t.kind = kind
      · rw [expect_cons ht, expect_cons ht]
        exact .ok hM
      · rw [expect_cons_ne ht, expect_cons_ne ht]
        exact parallel_here h reason

/-- A token that is no semicolon does not end the statement. -/
theorem parallel_expect_inside (hL : Places L M) (h : L ts ts') {kind : Kind}
    (hkind : kind ≠ .mark .semicolon) (reason : Reason) :
    Parallel L L (expect kind reason ts) (expect kind reason ts') := by
  cases hL.ahead h with
  | nil => exact parallel_here h reason
  | @cons t us us' _ hinside =>
      by_cases ht : t.kind = kind
      · rw [expect_cons ht, expect_cons ht]
        exact .ok (hinside (ht ▸ hkind))
      · rw [expect_cons_ne ht, expect_cons_ne ht]
        exact parallel_here h reason

/-! ## Moving forward -/

theorem skipFrom_suffix : ∀ (previous : Token) (ts : List Token), skipFrom previous ts <:+ ts
  | _, [] => List.suffix_refl _
  | previous, t :: ts => by
      unfold skipFrom
      split
      · exact List.suffix_refl _
      · exact (skipFrom_suffix t ts).trans (List.suffix_cons t ts)

theorem synchronize_suffix_tail (t : Token) (ts : List Token) : synchronize (t :: ts) <:+ ts :=
  skipFrom_suffix t ts

theorem synchronize_suffix : ∀ ts : List Token, synchronize ts <:+ ts
  | [] => List.suffix_refl _
  | t :: ts => (synchronize_suffix_tail t ts).trans (List.suffix_cons t ts)

/-- Places that are related and that lie behind given ones. -/
def Behind (us us' : List Token) (L : List Token → List Token → Prop) (ts ts' : List Token) :
    Prop :=
  L ts ts' ∧ ts <:+ us ∧ ts' <:+ us'

theorem Places.behind (hL : Places L M) (us us' : List Token) :
    Places (Behind us us' L) (Behind us us' M) where
  ahead := by
    rintro ts ts' ⟨h, hts, hts'⟩
    cases hL.ahead h with
    | nil => exact .nil
    | @cons t ts ts' hM hinside =>
        have hts := (List.suffix_cons t ts).trans hts
        have hts' := (List.suffix_cons t ts').trans hts'
        exact .cons ⟨hM, hts, hts'⟩ fun ht => ⟨hinside ht, hts, hts'⟩
  recover := by
    rintro ts ts' ⟨h, hts, hts'⟩
    exact ⟨hL.recover h, (synchronize_suffix ts).trans hts, (synchronize_suffix ts').trans hts'⟩

end

/-! ## Expressions -/

/-- Two readers go side by side from all places related in a way that reading respects. -/
def ReadsParallel {α : Type} (read read' : List Token → Except Failure (α × List Token)) : Prop :=
  ∀ {L M : List Token → List Token → Prop} {ts ts' : List Token}, Places L M → L ts ts' →
    Parallel L L (read ts) (read' ts')

section

variable {L M : List Token → List Token → Prop} {ts ts' : List Token}

theorem tier?_ne_none_of_semicolon {t : Token} {tier : Tier} (h : t.kind.tier? = some tier) :
    t.kind ≠ .mark .semicolon := by
  intro ht
  rw [ht] at h
  cases h

/-- A loop over the steps of a chain needs no more rounds than there are tokens. -/
theorem parallel_readSteps {tier : Tier}
    {operand operand' : List Token → Except Failure (Tree × List Token)}
    (hoperand : ReadsParallel operand operand') (hL : Places L M) :
    ∀ {steps steps' : Nat} (left : Tree) {ts ts' : List Token}, L ts ts' → ts.length ≤ steps →
      ts'.length ≤ steps' →
      Parallel L L (readSteps tier operand steps left ts)
        (readSteps tier operand' steps' left ts') := by
  intro steps
  induction steps with
  | zero =>
      intro steps' left ts ts' h hn _
      obtain rfl := List.length_eq_zero_iff.mp (Nat.le_zero.mp hn)
      cases hL.ahead h with
      | nil =>
          unfold readSteps
          cases steps' <;> exact .ok h
  | succ steps ih =>
      intro steps' left ts ts' h hn hn'
      cases hL.ahead h with
      | nil => cases steps' <;> exact .ok h
      | @cons t us us' _ hinside =>
          obtain ⟨steps', rfl⟩ : ∃ k, steps' = k + 1 := ⟨steps' - 1, by
            rw [List.length_cons] at hn'
            omega⟩
          unfold readSteps
          split
          · next ht =>
              have hus := hinside (tier?_ne_none_of_semicolon ht)
              have hright := hoperand (hL.behind us us')
                ⟨hus, List.suffix_refl us, List.suffix_refl us'⟩
              refine (hright.mono id And.left).bind fun right rest rest' hrest => ?_
              obtain ⟨hrest, hsuffix, hsuffix'⟩ := hrest
              exact ih _ hrest (Nat.le_trans hsuffix.length_le (Nat.le_of_succ_le_succ hn))
                (Nat.le_trans hsuffix'.length_le (Nat.le_of_succ_le_succ hn'))
          · exact .ok h

theorem parallel_assigned {place place' : List Token} (hplace : L place place') (target : Tree)
    {r r' : Except Failure (Tree × List Token)} (h : Parallel L L r r') :
    Parallel L L (assigned target place r) (assigned target place' r') := by
  cases h with
  | ok h =>
      cases target with
      | reference name => exact .ok h
      | _ => exact .error hplace h
  | error hb hs => exact .error hb hs
  | deep hf hb hs => exact .deep hf hb hs

theorem ne_semicolon_of_mark {t : Token} {m : Mark} (ht : t.kind = .mark m)
    (hm : m ≠ .semicolon) : t.kind ≠ .mark .semicolon := by
  rw [ht]
  exact fun h => hm (Kind.mark.inj h)

theorem ne_semicolon_of_isUnary {t : Token} (h : t.kind.isUnary = true) :
    t.kind ≠ .mark .semicolon := by
  intro ht
  rw [ht] at h
  cases h

theorem ne_semicolon_of_atom? {t : Token} {e : Tree} (h : Tree.atom? t = some e) :
    t.kind ≠ .mark .semicolon := by
  intro ht
  unfold Tree.atom? at h
  rw [ht] at h
  cases h

/-- The rules go side by side, whatever levels the second reading has more. -/
theorem parallel_readWithin : ∀ {n n' : Nat}, n ≤ n' → ∀ rule : Rule,
    ReadsParallel (readWithin n rule) (readWithin n' rule) := by
  intro n
  induction n with
  | zero =>
      intro n' _ rule L M ts ts' _ h
      exact .deep rfl h h
  | succ n ih =>
      intro n' hn rule L M ts ts' hL h
      obtain ⟨n', rfl⟩ : ∃ k, n' = k + 1 := ⟨n' - 1, by omega⟩
      have ih (rule : Rule) : ReadsParallel (readWithin n rule) (readWithin n' rule) :=
        ih (Nat.le_of_succ_le_succ hn) rule
      cases rule with
      | assignment =>
          refine (ih (.chain .equality) hL h).bind fun target rest rest' hrest => ?_
          cases hL.ahead hrest with
          | nil => exact .ok hrest
          | cons _ hinside =>
              show Parallel L L (if _ then _ else _) (if _ then _ else _)
              split
              · next ht =>
                  have hequal := ne_semicolon_of_mark ht (by decide)
                  exact parallel_assigned hrest target (ih .assignment hL (hinside hequal))
              · exact .ok hrest
      | chain tier =>
          refine (ih (.operandOf tier) hL h).bind fun first rest rest' hrest => ?_
          exact parallel_readSteps (ih (.operandOf tier)) hL first hrest (Nat.le_refl _)
            (Nat.le_refl _)
      | unary =>
          cases hL.ahead h with
          | nil => exact ih .primary hL h
          | cons _ hinside =>
              unfold readWithin
              split
              · next ht =>
                  refine (ih .unary hL (hinside (ne_semicolon_of_isUnary ht))).bind ?_
                  exact fun operand _ _ hrest => .ok hrest
              · exact ih .primary hL h
      | primary =>
          cases hL.ahead h with
          | nil => exact parallel_here h .noExpression
          | @cons t _ _ _ hinside =>
              unfold readWithin
              cases hatom : Tree.atom? t with
              | some atom => exact .ok (hinside (ne_semicolon_of_atom? hatom))
              | none =>
                  show Parallel L L (if t.kind = _ then _ else _) (if t.kind = _ then _ else _)
                  split
                  · next ht =>
                      have hleft := ne_semicolon_of_mark ht (by decide)
                      refine (ih .assignment hL (hinside hleft)).bind ?_
                      intro inner rest rest' hrest
                      have hparen : Kind.mark .rightParen ≠ .mark .semicolon := by decide
                      refine (parallel_expect_inside hL hrest hparen .groupEnd).bind ?_
                      exact fun _ _ _ hrest => .ok hrest
                  · exact parallel_here h _

/-! ## Statements without blocks -/

variable {n n' : Nat}

theorem parallel_readTerminated (hn : n ≤ n') (reason : Reason) (hL : Places L M) (h : L ts ts') :
    Parallel M L (readTerminated n reason ts) (readTerminated n' reason ts') := by
  refine (parallel_readWithin hn .assignment hL h).bind fun value rest rest' hrest => ?_
  refine (parallel_expect hL hrest (.mark .semicolon) reason).bind ?_
  exact fun _ _ _ hrest => .ok hrest

theorem parallel_readDeclaration (hn : n ≤ n') (hL : Places L M) (h : L ts ts') :
    Parallel M L (readDeclaration n ts) (readDeclaration n' ts') := by
  have hidentifier : Kind.identifier ≠ .mark .semicolon := by decide
  refine (parallel_expect_inside hL h hidentifier .variableName).bind ?_
  intro name rest rest' hrest
  cases hL.ahead hrest with
  | nil => exact parallel_here hrest .declarationEnd
  | cons _ hinside =>
      show Parallel M L (if _ then _ else _) (if _ then _ else _)
      split
      · next ht =>
          have hequal := ne_semicolon_of_mark ht (by decide)
          refine (parallel_readTerminated hn .declarationEnd hL (hinside hequal)).bind ?_
          exact fun _ _ _ hrest => .ok hrest
      · refine (parallel_expect hL hrest (.mark .semicolon) .declarationEnd).bind ?_
        exact fun _ _ _ hrest => .ok hrest

theorem parallel_readPrint (hn : n ≤ n') (hL : Places L M) (h : L ts ts') :
    Parallel M L (readPrint n ts) (readPrint n' ts') :=
  (parallel_readTerminated hn .valueEnd hL h).bind fun _ _ _ hrest => .ok hrest

theorem parallel_readDiscard (hn : n ≤ n') (hL : Places L M) (h : L ts ts') :
    Parallel M L (readDiscard n ts) (readDiscard n' ts') :=
  (parallel_readTerminated hn .expressionEnd hL h).bind fun _ _ _ hrest => .ok hrest

end

/-! ## Attempts -/

/-- Failures for one reason at related places. -/
structure SameFailure (L : List Token → List Token → Prop) (f f' : Failure) : Prop where
  reason : f.reason = f'.reason
  blamed : L f.blamed f'.blamed
  resume : L f.resume f'.resume

/-- Some failure is that of a reading that nests too deeply. -/
def TooDeep (fs : List Failure) : Prop := ∃ f ∈ fs, f.reason = .nestingTooDeep

/-- What two attempts leave: the same failures at related places, and related places to go on at,
unless the first attempt nests too deeply. -/
structure ParallelAttempts (L M : List Token → List Token → Prop) (a a' : Attempt) : Prop where
  blamed : ∀ f ∈ a.failures, ∃ ts', L f.blamed ts'
  rest : ∃ ts', M a.rest ts'
  same : TooDeep a.failures ∨ List.Forall₂ (SameFailure L) a.failures a'.failures ∧ M a.rest a'.rest

section

variable {L M : List Token → List Token → Prop} {ts ts' : List Token} {n n' : Nat}

theorem parallel_close (hL : Places L M) {r r' : Except Failure (Tree × List Token)}
    (h : Parallel M L r r') : ParallelAttempts L M (.close [] r) (.close [] r') := by
  cases h with
  | ok h => exact ⟨nofun, ⟨_, h⟩, .inr ⟨.nil, h⟩⟩
  | error hb hs =>
      have hrest := hL.recover hs
      exact ⟨List.forall_mem_singleton.mpr ⟨_, hb⟩, ⟨_, hrest⟩,
        .inr ⟨.cons ⟨rfl, hb, hs⟩ .nil, hrest⟩⟩
  | @deep f _ _ _ hf hb hs =>
      exact ⟨List.forall_mem_singleton.mpr ⟨_, hb⟩, ⟨_, hL.recover hs⟩,
        .inl ⟨f, List.mem_singleton_self f, hf⟩⟩

/-- Attempts at a declaration that is no block go side by side. -/
theorem parallel_attemptWithin (hn : n ≤ n') (hL : Places L M) (h : L ts ts')
    (hblock : ∀ t ∈ ts.head?, t.kind ≠ .mark .leftBrace) :
    ParallelAttempts L M (attemptWithin n ts) (attemptWithin n' ts') := by
  cases n with
  | zero =>
      exact ⟨List.forall_mem_singleton.mpr ⟨_, h⟩, ⟨_, hL.recover h⟩,
        .inl ⟨_, List.mem_singleton_self _, rfl⟩⟩
  | succ n =>
      obtain ⟨n', rfl⟩ : ∃ k, n' = k + 1 := ⟨n' - 1, by omega⟩
      have hn := Nat.le_of_succ_le_succ hn
      have hdiscard := parallel_close hL (parallel_readDiscard hn hL h)
      cases hL.ahead h with
      | nil => exact hdiscard
      | @cons t ts ts' _ hinside =>
          have ht : t.kind ≠ .mark .leftBrace := hblock t rfl
          unfold attemptWithin
          simp only
          split
          · next hk =>
              exact parallel_close hL (parallel_readDeclaration hn hL (hinside (hk ▸ nofun)))
          · next hk => exact parallel_close hL (parallel_readPrint hn hL (hinside (hk ▸ nofun)))
          · next hk => exact absurd hk ht
          · exact hdiscard

end

end RoxLang.Descent
