/-
# `RoxLang.Proofs.Descent.Levels` — how many levels of rules a tree takes

The descent enters one rule inside another, and every rule entered costs a level.  How many levels
it takes to read a tree is a function of the tree alone: each node has a rule of its own, the
tightest one that derives it, and a rule looser than that reaches it by going through all the rules
in between, so the way from one rule to another is a difference of ranks.

The operands of a chain share the level of the chain, whatever its length.
-/
import RoxLang.Proofs.Grammar.Derivation

namespace RoxLang

open Descent (Rule)

namespace Tree

/-- The rank of the tightest rule that derives an expression. -/
def ownRank : Tree → Nat
  | .assign .. => 0
  | .binary _ op _ => match op.kind.tier? with
    | some tier => tier.rank + 1
    | none => 6
  | .unary .. => 5
  | _ => 6

mutual

/-- The levels that a tree takes from its own rule on. -/
def ownLevels : Tree → Nat
  | .assign _ e => max 6 (e.ownRank + e.ownLevels) + 1
  | .binary l op r =>
      let rank := (Tree.binary l op r).ownRank
      max (l.ownRank - rank + l.ownLevels) (r.ownRank - (rank + 1) + r.ownLevels + 1)
  | .unary _ e => e.ownRank - 5 + e.ownLevels + 1
  | .grouping e | .discard e | .print e | .define _ e => e.ownRank + e.ownLevels + 1
  | .block ts => levelsOfProgram ts + 1
  | .literal _ | .reference _ | .declare _ | .foreign _ => 1

/-- The levels that the deepest statement of a program takes. -/
def levelsOfProgram : List Tree → Nat
  | [] => 0
  | t :: ts => max t.ownLevels (levelsOfProgram ts)

end

/-- The levels that an expression takes from a rule on. -/
def levelsFrom (rule : Rule) (e : Tree) : Nat := e.ownRank - rule.rank + e.ownLevels

theorem one_le_ownLevels : ∀ t : Tree, 1 ≤ t.ownLevels
  | .assign .. | .binary .. | .unary .. | .grouping _ | .discard _ | .print _ | .define ..
  | .block _ | .literal _ | .reference _ | .declare _ | .foreign _ => by
      simp only [ownLevels]; omega

/-- A rule one rank looser takes at most one level more. -/
theorem levelsFrom_le_succ {rule looser : Rule} (h : rule.rank = looser.rank + 1) (e : Tree) :
    levelsFrom looser e ≤ levelsFrom rule e + 1 := by
  simp only [levelsFrom]
  omega

/-- And exactly one, unless the tree belongs to the looser rule. -/
theorem levelsFrom_succ {rule looser : Rule} (h : rule.rank = looser.rank + 1) {e : Tree}
    (he : rule.rank ≤ e.ownRank) : levelsFrom looser e = levelsFrom rule e + 1 := by
  simp only [levelsFrom]
  omega

theorem one_le_levelsFrom (rule : Rule) (e : Tree) : 1 ≤ levelsFrom rule e := by
  have := one_le_ownLevels e
  simp only [levelsFrom]
  omega

/-! ## The levels of each node, from its own rule -/

@[simp] theorem levelsFrom_group (e : Tree) :
    levelsFrom .primary (.grouping e) = levelsFrom .assignment e + 1 := by
  simp [levelsFrom, ownLevels, ownRank, Rule.rank]

@[simp] theorem levelsFrom_sign (op : Token) (e : Tree) :
    levelsFrom .unary (.unary op e) = levelsFrom .unary e + 1 := by
  simp [levelsFrom, ownLevels, ownRank, Rule.rank]

@[simp] theorem levelsFrom_assign (name : Token) (e : Tree) :
    levelsFrom .assignment (.assign name e) = max 6 (levelsFrom .assignment e) + 1 := by
  simp [levelsFrom, ownLevels, ownRank, Rule.rank]

theorem levelsFrom_step {tier : Tier} {op : Token} (h : op.kind.tier? = some tier) (l r : Tree) :
    levelsFrom (.chain tier) (.binary l op r)
      = max (levelsFrom (.chain tier) l) (levelsFrom (.operandOf tier) r + 1) := by
  cases tier <;> simp [levelsFrom, ownLevels, ownRank, Rule.rank, Rule.operandOf, Tier.rank, h]

@[simp] theorem levelsFrom_reference (name : Token) :
    levelsFrom (.chain .equality) (.reference name) = 6 := rfl

end Tree

namespace Grammar

open RoxLang.Tree

/-- A rule derives no tree that belongs to a looser rule. -/
theorem Derives.rank_le {rule : Rule} {ts : List Token} {e : Tree} (h : Derives rule ts e) :
    rule.rank ≤ e.ownRank := by
  induction h with
  | assign => exact Nat.zero_le _
  | equality => exact Nat.zero_le _
  | @operand tier _ _ _ ih =>
      have := Rule.rank_operandOf tier
      omega
  | step _ hop _ _ _ => simp [Rule.rank, ownRank, operator_iff.mp hop]
  | sign => exact Nat.le_refl 5
  | primary _ ih => exact Nat.le_trans (by decide) ih
  | atom h => cases h <;> exact Nat.le_refl 6
  | group => exact Nat.le_refl 6

end Grammar

end RoxLang
