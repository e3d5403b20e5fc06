/-
# `RoxLang.Proofs.Automaton.Stack` — what may wait on the machine's stack, and runs over tokens

Whether the machine builds something when an operand is complete depends on the top of its stack
alone.  `Awaits rank stack` says that nothing on top takes an operand of that rank at once: no sign
is there, and a left operand there belongs to a looser tier.  On such a stack the operand stays
where it is.

Operands are built lazily, so after a chain the machine holds pieces of it, not its tree.  What
matters is what the pieces amount to, and the laws below say that it is the same whether the loosest
operators are applied at once or after the tighter ones.
-/
import RoxLang.Automaton.Config

namespace RoxLang

theorem Tier.rank_lt (tier : Tier) : tier.rank < 4 := by cases tier <;> decide

namespace Automaton.Config

/-- Nothing on top of the stack takes an operand of the given rank. -/
def Awaits (rank : Nat) : List Frame → Prop
  | .sign _ :: _ => False
  | .left tier _ _ :: _ => tier.rank < rank
  | _ => True

theorem Awaits.mono {low high : Nat} (h : low ≤ high) :
    ∀ {stack : List Frame}, Awaits low stack → Awaits high stack
  | [], _ | .group :: _, _ | .target _ :: _, _ => trivial
  | .left _ _ _ :: _, hs => Nat.lt_of_lt_of_le hs h

theorem awaits_of_startsExpression {rank : Nat} {stack : List Frame}
    (h : startsExpression stack = true) : Awaits rank stack := by
  match stack with
  | [] | .group :: _ | .target _ :: _ => trivial
  | .sign _ :: _ | .left _ _ _ :: _ => cases h

theorem settle_of_awaits {rank : Nat} (e : Tree) :
    ∀ {stack : List Frame}, Awaits rank stack → settle stack e = (stack, e)
  | [], _ | .group :: _, _ | .target _ :: _, _ | .left _ _ _ :: _, _ => rfl

theorem reduceTo_of_awaits {tier : Tier} (e : Tree) :
    ∀ {stack : List Frame}, Awaits tier.rank stack → reduceTo tier stack e = (stack, e)
  | [], _ | .group :: _, _ | .target _ :: _, _ => rfl
  | .left _ _ _ :: _, h => by simp only [reduceTo, Nat.not_le_of_lt h, if_false]

theorem reduceTo_left {tier tighter : Tier} (h : tier.rank ≤ tighter.rank) (stack : List Frame)
    (l e : Tree) (op : Token) :
    reduceTo tier (.left tighter l op :: stack) e = reduceTo tier stack (.binary l op e) := by
  simp only [reduceTo, h, if_true]

/-- Applying the tighter operators first makes no difference. -/
theorem reduceTo_reduceTo {tier tighter : Tier} (h : tier.rank ≤ tighter.rank) :
    ∀ (stack : List Frame) (e : Tree),
      reduceTo tier (reduceTo tighter stack e).1 (reduceTo tighter stack e).2
        = reduceTo tier stack e
  | [], _ | .group :: _, _ | .target _ :: _, _ | .sign _ :: _, _ => rfl
  | .left t l op :: stack, e => by
      by_cases ht : tighter.rank ≤ t.rank
      · rw [reduceTo_left ht, reduceTo_left (Nat.le_trans h ht)]
        exact reduceTo_reduceTo h stack _
      · simp only [reduceTo, ht, if_false]

theorem close_reduceTo (tier : Tier) :
    ∀ (stack : List Frame) (e : Tree),
      close (reduceTo tier stack e).1 (reduceTo tier stack e).2 = close stack e
  | [], _ | .group :: _, _ | .target _ :: _, _ | .sign _ :: _, _ => rfl
  | .left t l op :: stack, e => by
      by_cases ht : tier.rank ≤ t.rank
      · rw [reduceTo_left ht]
        exact close_reduceTo tier stack _
      · simp only [reduceTo, ht, if_false]

/-! ## Runs over tokens -/

/-- The machine after several tokens, if it can take them all. -/
def steps? (c : Config) (ts : List Token) : Option Config := ts.foldlM step? c

@[simp] theorem steps?_nil (c : Config) : c.steps? [] = some c := rfl

theorem steps?_cons (c : Config) (t : Token) (ts : List Token) :
    c.steps? (t :: ts) = (c.step? t).bind (steps? · ts) := rfl

theorem steps?_append (c : Config) (ts us : List Token) :
    c.steps? (ts ++ us) = (c.steps? ts).bind (steps? · us) := List.foldlM_append

theorem steps?_singleton (c : Config) (t : Token) : c.steps? [t] = c.step? t := by
  rw [steps?_cons]
  cases c.step? t <;> rfl

/-- A run goes on from where the first part of it led. -/
theorem steps?_trans {c c' : Config} {ts : List Token} (h : c.steps? ts = some c')
    (us : List Token) : c.steps? (ts ++ us) = c'.steps? us := by
  rw [steps?_append, h]
  rfl

end Automaton.Config

end RoxLang
