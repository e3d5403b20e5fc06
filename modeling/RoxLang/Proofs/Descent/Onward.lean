/-
# `RoxLang.Proofs.Descent.Onward` — reading never goes back

What a rule leaves is an end of what it found.  Where a rule fails, it blames a place at or behind
the one where it started, and reading has stopped at the blamed place or behind it: at it, for every
failure but that of a wrong assignment, whose `=` is blamed when the value behind it has been read.
The closing brace of a block is missed only at the end of the tokens, because the loop over the
declarations of the block stops nowhere else but in front of such a brace.  And what is blamed for
being misread is a number that does not convert.

A declaration that fails has one failure of its own, the last that it records, and reading goes on
where recovery from that failure leads.
-/
import RoxLang.Proofs.Descent.Progress

namespace RoxLang.Descent

/-! ## Reasons and what is blamed -/

/-- What is blamed suits the reason: a block that is not closed is blamed at the end only, and what
is misread is a number that does not convert. -/
structure Failure.Apt (f : Failure) : Prop where
  unclosed : f.reason = .blockEnd → f.blamed = []
  misread : f.reason = .misreadNumber → ∃ t ∈ f.blamed.head?, ¬ t.Converts

/-- The reason may be given at any place. -/
def AnyPlace (reason : Reason) : Prop := reason ≠ .blockEnd ∧ reason ≠ .misreadNumber

instance (reason : Reason) : Decidable (AnyPlace reason) := inferInstanceAs (Decidable (_ ∧ _))

theorem AnyPlace.apt {reason : Reason} (h : AnyPlace reason) (blamed resume : List Token) :
    (Failure.mk reason blamed resume).Apt :=
  ⟨fun heq => absurd heq h.1, fun heq => absurd heq h.2⟩

/-- A token that starts no operand is a number that does not convert, or no number. -/
theorem apt_noOperand {t : Token} (h : Tree.atom? t = none) (ts : List Token) :
    (Failure.here (noOperand t) (t :: ts)).Apt := by
  unfold noOperand
  split
  · next hkind =>
      refine ⟨nofun, fun _ => ⟨t, rfl, Token.not_converts_iff.mpr ⟨hkind, ?_⟩⟩⟩
      simpa only [Tree.atom?, hkind, Option.map_eq_none_iff] using h
  · exact AnyPlace.apt ⟨by decide, by decide⟩ _ _

/-! ## Rules -/

/-- A reading from a place goes onward: its end lies there, and if it fails, the blamed place lies
there, reading has stopped at that place or behind it, and what is blamed suits the reason. -/
inductive Onward {α : Type} (ts : List Token) : Except Failure (α × List Token) → Prop
  | ok {a : α} {rest : List Token} : rest <:+ ts → Onward ts (.ok (a, rest))
  | error {f : Failure} : f.blamed <:+ ts → f.resume <:+ f.blamed → f.Apt → Onward ts (.error f)

section

variable {α β : Type} {ts us : List Token}

theorem onward_here (h : us <:+ ts) {reason : Reason} (hreason : AnyPlace reason) :
    Onward (α := α) ts (.error (.here reason us)) :=
  .error h (List.suffix_refl us) (hreason.apt us us)

theorem Onward.mono {r : Except Failure (α × List Token)} (h : Onward us r) (hus : us <:+ ts) :
    Onward ts r := by
  cases h with
  | ok hrest => exact .ok (hrest.trans hus)
  | error hblamed hresume hapt => exact .error (hblamed.trans hus) hresume hapt

theorem Onward.bind {r : Except Failure (α × List Token)}
    {k : α × List Token → Except Failure (β × List Token)} (h : Onward ts r)
    (hk : ∀ a rest, Onward rest (k (a, rest))) : Onward ts (r >>= k) := by
  cases h with
  | ok hrest => exact (hk _ _).mono hrest
  | error hblamed hresume hapt => exact .error hblamed hresume hapt

theorem onward_expect (kind : Kind) (reason : Reason) (hreason : AnyPlace reason) :
    ∀ ts : List Token, Onward ts (expect kind reason ts)
  | [] => onward_here (List.suffix_refl []) hreason
  | t :: ts => by
      show Onward _ (if _ then _ else _)
      split
      · exact .ok (List.suffix_cons t ts)
      · exact onward_here (List.suffix_refl _) hreason

theorem onward_readSteps {tier : Tier}
    {operand : List Token → Except Failure (Tree × List Token)}
    (h : ∀ ts, Onward ts (operand ts)) : ∀ (steps : Nat) (left : Tree) (ts : List Token),
      Onward ts (readSteps tier operand steps left ts)
  | 0, _, _ | _ + 1, _, [] => .ok (List.suffix_refl _)
  | steps + 1, left, t :: ts => by
      unfold readSteps
      split
      · refine ((h ts).bind fun right rest => ?_).mono (List.suffix_cons t ts)
        exact onward_readSteps h steps (.binary left t right) rest
      · exact .ok (List.suffix_refl _)

/-- A wrong assignment blames its `=`, in front of the value that has been read. -/
theorem onward_assigned (target : Tree) (t : Token)
    {r : Except Failure (Tree × List Token)} (h : Onward ts r) :
    Onward (t :: ts) (assigned target (t :: ts) r) := by
  cases h with
  | ok hrest =>
      have hrest := hrest.trans (List.suffix_cons t ts)
      have hreason : AnyPlace .assignmentTarget := by decide
      cases target with
      | reference name => exact .ok hrest
      | _ => exact .error (List.suffix_refl _) hrest (hreason.apt _ _)
  | error hblamed hresume hapt =>
      exact .error (hblamed.trans (List.suffix_cons t ts)) hresume hapt

theorem onward_readWithin : ∀ (n : Nat) (rule : Rule) (ts : List Token),
    Onward ts (readWithin n rule ts) := by
  intro n
  induction n with
  | zero =>
      intro rule ts
      exact onward_here (List.suffix_refl ts) (by decide)
  | succ n ih =>
      intro rule ts
      cases rule with
      | assignment =>
          refine (ih (.chain .equality) ts).bind fun target rest => ?_
          cases rest with
          | nil => exact .ok (List.suffix_refl [])
          | cons t after =>
              show Onward _ (if _ then _ else _)
              split
              · exact onward_assigned target t (ih .assignment after)
              · exact .ok (List.suffix_refl _)
      | chain tier =>
          refine (ih (.operandOf tier) ts).bind fun first rest => ?_
          exact onward_readSteps (ih (.operandOf tier)) rest.length first rest
      | unary =>
          cases ts with
          | nil => exact ih .primary []
          | cons t ts =>
              unfold readWithin
              split
              · refine ((ih .unary ts).bind fun operand rest => ?_).mono (List.suffix_cons t ts)
                exact .ok (List.suffix_refl rest)
              · exact ih .primary (t :: ts)
      | primary =>
          cases ts with
          | nil => exact onward_here (List.suffix_refl []) (by decide)
          | cons t ts =>
              have hts := List.suffix_cons t ts
              unfold readWithin
              cases hatom : Tree.atom? t with
              | some atom => exact .ok hts
              | none =>
                  show Onward _ (if _ then _ else _)
                  split
                  · refine ((ih .assignment ts).bind fun inner rest => ?_).mono hts
                    have hparen := onward_expect (.mark .rightParen) .groupEnd (by decide) rest
                    exact hparen.bind fun _ rest => .ok (List.suffix_refl rest)
                  · exact .error (List.suffix_refl _) (List.suffix_refl _) (apt_noOperand hatom ts)

theorem blamed_suffix {n : Nat} {rule : Rule} {f : Failure} (h : readWithin n rule ts = .error f) :
    f.blamed <:+ ts := by
  have honward := onward_readWithin n rule ts
  rw [h] at honward
  cases honward with
  | error hblamed _ _ => exact hblamed

/-! ## Statements without blocks -/

variable {n : Nat}

theorem onward_readTerminated (reason : Reason) (hreason : AnyPlace reason) (ts : List Token) :
    Onward ts (readTerminated n reason ts) := by
  refine (onward_readWithin n .assignment ts).bind fun value rest => ?_
  refine (onward_expect (.mark .semicolon) reason hreason rest).bind fun _ rest => ?_
  exact .ok (List.suffix_refl rest)

theorem onward_readDeclaration (ts : List Token) : Onward ts (readDeclaration n ts) := by
  refine (onward_expect .identifier .variableName (by decide) ts).bind fun name rest => ?_
  cases rest with
  | nil => exact onward_here (List.suffix_refl []) (by decide)
  | cons t after =>
      show Onward _ (if _ then _ else _)
      split
      · have hvalue := onward_readTerminated (n := n) .declarationEnd (by decide) after
        refine (hvalue.bind fun _ rest => ?_).mono (List.suffix_cons t after)
        exact .ok (List.suffix_refl rest)
      · have hend := onward_expect (.mark .semicolon) .declarationEnd (by decide) (t :: after)
        exact hend.bind fun _ rest => .ok (List.suffix_refl rest)

theorem onward_readPrint (ts : List Token) : Onward ts (readPrint n ts) :=
  (onward_readTerminated .valueEnd (by decide) ts).bind fun _ rest => .ok (List.suffix_refl rest)

theorem onward_readDiscard (ts : List Token) : Onward ts (readDiscard n ts) :=
  (onward_readTerminated .expressionEnd (by decide) ts).bind fun _ rest =>
    .ok (List.suffix_refl rest)

end

/-! ## Attempts -/

/-- What closes a block is missed at the end only. -/
theorem onward_readBlockEnd (n : Nat) (ts : List Token) :
    Onward (attemptsFrom n closesBlock ts).rest (readBlockEnd (attemptsFrom n closesBlock ts)) := by
  obtain ⟨-, hend⟩ | ⟨r, rest, hrest, -, hend⟩ := readBlockEnd_cases n ts
  · rw [hend]
    exact .error List.nil_suffix (List.suffix_refl []) ⟨fun _ => rfl, nofun⟩
  · rw [hend, hrest]
    exact .ok (List.suffix_cons r rest)

/-- An attempt at a declaration that is no block closes a reading that goes onward. -/
theorem attemptWithin_closes (n : Nat) {t : Token} (ht : t.kind ≠ .mark .leftBrace)
    (ts : List Token) : ∃ r, attemptWithin n (t :: ts) = .close [] r ∧ Onward (t :: ts) r := by
  have hts := List.suffix_cons t ts
  cases n with
  | zero => exact ⟨_, rfl, onward_here (List.suffix_refl _) (by decide)⟩
  | succ n =>
      by_cases hvar : t.kind = .word .var
      · exact ⟨_, attemptWithin_var hvar n ts, (onward_readDeclaration ts).mono hts⟩
      by_cases hprint : t.kind = .word .print
      · exact ⟨_, attemptWithin_print hprint n ts, (onward_readPrint ts).mono hts⟩
      · exact ⟨_, attemptWithin_other hvar hprint ht n ts, onward_readDiscard (t :: ts)⟩

/-- The failure of a declaration that fails: the last that is recorded, and the one that reading
recovers from. -/
theorem attemptWithin_failed {n : Nat} {t : Token} {ts : List Token}
    (h : (attemptWithin n (t :: ts)).tree? = none) :
    ∃ recorded f, (attemptWithin n (t :: ts)).failures = recorded ++ [f] ∧ f.resume <:+ t :: ts ∧
      (attemptWithin n (t :: ts)).rest = synchronize f.resume := by
  obtain ⟨recorded, r, hclose, honward⟩ :
      ∃ recorded r, attemptWithin n (t :: ts) = .close recorded r ∧ Onward (t :: ts) r := by
    by_cases ht : t.kind = .mark .leftBrace
    · cases n with
      | zero => exact ⟨[], _, rfl, onward_here (List.suffix_refl _) (by decide)⟩
      | succ n =>
          have hbody := (attemptsFrom_suffix n closesBlock ts).trans (List.suffix_cons t ts)
          exact ⟨_, _, attemptWithin_block ht n ts, (onward_readBlockEnd n ts).mono hbody⟩
    · exact ⟨[], attemptWithin_closes n ht ts⟩
  rw [hclose] at h ⊢
  cases honward with
  | ok _ => cases h
  | @error f hblamed hresume _ => exact ⟨recorded, f, rfl, hresume.trans hblamed, rfl⟩

end RoxLang.Descent
