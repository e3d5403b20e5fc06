/-
# `RoxLang.Tree.Operator` — which tokens operate, and how tightly they bind

Binary operators stand in four tiers, loosest first: equality, comparison, term, factor.  Within
a tier they group to the left.  Two marks stand before their operand and bind tighter than every
tier, and the tokens of `atom?` are operands by themselves.  Every reader of programs shares
these tables.
-/
import RoxLang.Tree.Basic

namespace RoxLang

/-- The tiers of binary operators, loosest first. -/
inductive Tier where
  | equality | comparison | term | factor
deriving DecidableEq, Inhabited

/-- How tightly a tier binds. -/
def Tier.rank : Tier → Nat
  | .equality => 0
  | .comparison => 1
  | .term => 2
  | .factor => 3

/-- The tier of a mark, if it is a binary operator. -/
def Mark.tier? : Mark → Option Tier
  | .bangEqual | .equalEqual => some .equality
  | .greater | .greaterEqual | .less | .lessEqual => some .comparison
  | .minus | .plus => some .term
  | .slash | .star => some .factor
  | _ => none

namespace Kind

/-- The tier of a token kind, if it is a binary operator. -/
def tier? : Kind → Option Tier
  | .mark m => m.tier?
  | _ => none

/-- Whether tokens of a kind may stand before an operand. -/
def isUnary (k : Kind) : Bool := k == .mark .bang || k == .mark .minus

end Kind

/-- The operand that a token is by itself.  The words for truth values and nil stand for their
value whatever they are spelled; numbers and strings take theirs from the lexeme.  A number whose
lexeme is misread is none. -/
def Tree.atom? (t : Token) : Option Tree :=
  match t.kind with
  | .word .false_ => some (.literal (.boolean false))
  | .word .true_ => some (.literal (.boolean true))
  | .word .nil => some (.literal .nil)
  | .number => (Number.ofText? t.lexeme).map fun x => .literal (.number x)
  | .string => some (.literal (.string t.lexeme))
  | .identifier => some (.reference t)
  | _ => none

end RoxLang
