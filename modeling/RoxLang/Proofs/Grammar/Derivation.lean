/-
# `RoxLang.Proofs.Grammar.Derivation` — the grammar, as derivations

    program      →  declaration*
    declaration  →  varDecl  |  statement
    varDecl      →  "var" IDENT ( "=" expression )? ";"
    statement    →  "print" expression ";"  |  block  |  expression ";"
    block        →  "{" declaration* "}"
    expression   →  assignment
    assignment   →  IDENT "=" assignment  |  equality
    equality     →  comparison ( ( "!=" | "==" ) comparison )*
    comparison   →  term ( ( ">" | ">=" | "<" | "<=" ) term )*
    term         →  factor ( ( "-" | "+" ) factor )*
    factor       →  unary ( ( "/" | "*" ) unary )*
    unary        →  ( "!" | "-" ) unary  |  primary
    primary      →  NUMBER | STRING | "true" | "false" | "nil" | IDENT | "(" expression ")"

`Derives rule ts e` says that the rule derives the tokens `ts` and that `e` is the tree of that
derivation; `Declaration` and `Program` say the same of the rules above expressions.  Nothing here
reads from left to right, looks ahead or counts levels: the relations know the rules and the trees
that belong to them, and no reader.

The repetition in the four binary rules is given by its left-recursive form, `chain → operand` and
`chain → chain operator operand`, which derives the same tokens and has the tree that folds the
operands to the left.
-/
import RoxLang.Descent.Expression

namespace RoxLang

open Descent (Rule)

/-! ## Numbers that can be read -/

/-- The token is no number, or its lexeme reads as one. -/
def Token.Converts (t : Token) : Prop :=
  t.kind = .number → (Number.ofText? t.lexeme).isSome = true

instance (t : Token) : Decidable t.Converts := inferInstanceAs (Decidable (_ → _))

theorem Token.converts_of_ne {t : Token} (h : t.kind ≠ .number) : t.Converts :=
  fun hnumber => absurd hnumber h

theorem Token.not_converts_iff {t : Token} :
    ¬ t.Converts ↔ t.kind = .number ∧ Number.ofText? t.lexeme = none := by
  rw [Converts, Classical.not_imp, Bool.not_eq_true, Option.isSome_eq_false_iff,
    Option.isNone_iff_eq_none]

/-- Every number among these can be read. -/
def Converts (ts : List Token) : Prop := ∀ t ∈ ts, t.Converts

instance (ts : List Token) : Decidable (Converts ts) :=
  inferInstanceAs (Decidable (∀ t ∈ ts, t.Converts))

namespace Grammar

/-! ## The rules for expressions -/

/-- The operators of each tier. -/
inductive Operator : Tier → Kind → Prop
  | bangEqual : Operator .equality (.mark .bangEqual)
  | equalEqual : Operator .equality (.mark .equalEqual)
  | greater : Operator .comparison (.mark .greater)
  | greaterEqual : Operator .comparison (.mark .greaterEqual)
  | less : Operator .comparison (.mark .less)
  | lessEqual : Operator .comparison (.mark .lessEqual)
  | minus : Operator .term (.mark .minus)
  | plus : Operator .term (.mark .plus)
  | slash : Operator .factor (.mark .slash)
  | star : Operator .factor (.mark .star)

/-- The operators that stand before their operand. -/
inductive Sign : Kind → Prop
  | bang : Sign (.mark .bang)
  | minus : Sign (.mark .minus)

/-- The tokens that are operands by themselves, with their trees.  The kind of a token decides;
only numbers and strings take their value from the lexeme, and a number whose lexeme does not read
as one is no operand. -/
inductive Atom : Token → Tree → Prop
  | false_ {t : Token} : t.kind = .word .false_ → Atom t (.literal (.boolean false))
  | true_ {t : Token} : t.kind = .word .true_ → Atom t (.literal (.boolean true))
  | nil {t : Token} : t.kind = .word .nil → Atom t (.literal .nil)
  | number {t : Token} {x : Number} : t.kind = .number → Number.ofText? t.lexeme = some x →
      Atom t (.literal (.number x))
  | string {t : Token} : t.kind = .string → Atom t (.literal (.string t.lexeme))
  | name {t : Token} : t.kind = .identifier → Atom t (.reference t)

/-- `Derives rule ts e`: the rule derives the tokens `ts`, and `e` is the tree of it. -/
inductive Derives : Rule → List Token → Tree → Prop
  | assign {name equal : Token} {ts : List Token} {e : Tree} :
      name.kind = .identifier → equal.kind = .mark .equal → Derives .assignment ts e →
      Derives .assignment (name :: equal :: ts) (.assign name e)
  | equality {ts : List Token} {e : Tree} :
      Derives (.chain .equality) ts e → Derives .assignment ts e
  | operand {tier : Tier} {ts : List Token} {e : Tree} :
      Derives (.operandOf tier) ts e → Derives (.chain tier) ts e
  | step {tier : Tier} {op : Token} {ts us : List Token} {l r : Tree} :
      Derives (.chain tier) ts l → Operator tier op.kind → Derives (.operandOf tier) us r →
      Derives (.chain tier) (ts ++ op :: us) (.binary l op r)
  | sign {op : Token} {ts : List Token} {e : Tree} :
      Sign op.kind → Derives .unary ts e → Derives .unary (op :: ts) (.unary op e)
  | primary {ts : List Token} {e : Tree} : Derives .primary ts e → Derives .unary ts e
  | atom {t : Token} {e : Tree} : Atom t e → Derives .primary [t] e
  | group {l r : Token} {ts : List Token} {e : Tree} :
      l.kind = .mark .leftParen → r.kind = .mark .rightParen → Derives .assignment ts e →
      Derives .primary (l :: (ts ++ [r])) (.grouping e)

/-! ## The rules above expressions -/

mutual

/-- `Declaration ts t`: one declaration or statement, with its tree. -/
inductive Declaration : List Token → Tree → Prop
  | declare {var name semicolon : Token} :
      var.kind = .word .var → name.kind = .identifier → semicolon.kind = .mark .semicolon →
      Declaration [var, name, semicolon] (.declare name)
  | define {var name equal semicolon : Token} {ts : List Token} {e : Tree} :
      var.kind = .word .var → name.kind = .identifier → equal.kind = .mark .equal →
      Derives .assignment ts e → semicolon.kind = .mark .semicolon →
      Declaration (var :: name :: equal :: (ts ++ [semicolon])) (.define name e)
  | print {print semicolon : Token} {ts : List Token} {e : Tree} :
      print.kind = .word .print → Derives .assignment ts e →
      semicolon.kind = .mark .semicolon → Declaration (print :: (ts ++ [semicolon])) (.print e)
  | block {l r : Token} {ts : List Token} {body : List Tree} :
      l.kind = .mark .leftBrace → Program ts body → r.kind = .mark .rightBrace →
      Declaration (l :: (ts ++ [r])) (.block body)
  | discard {semicolon : Token} {ts : List Token} {e : Tree} :
      Derives .assignment ts e → semicolon.kind = .mark .semicolon →
      Declaration (ts ++ [semicolon]) (.discard e)

/-- `Program ts trees`: declarations one after the other, with their trees. -/
inductive Program : List Token → List Tree → Prop
  | nil : Program [] []
  | cons {ts us : List Token} {t : Tree} {trees : List Tree} :
      Declaration ts t → Program us trees → Program (ts ++ us) (t :: trees)

end

end Grammar

/-! ## The order of the rules

Each rule but the tightest leads to the next tighter one, so a loose rule derives whatever a
tighter one does. -/

namespace Descent.Rule

/-- The rules for expressions ranked from the loosest to the tightest. -/
def rank : Rule → Nat
  | .assignment => 0
  | .chain tier => tier.rank + 1
  | .unary => 5
  | .primary => 6

/-- The rule of a rank. -/
def ofRank : Nat → Rule
  | 0 => .assignment
  | 1 => .chain .equality
  | 2 => .chain .comparison
  | 3 => .chain .term
  | 4 => .chain .factor
  | 5 => .unary
  | _ => .primary

theorem ofRank_rank (rule : Rule) : ofRank rule.rank = rule := by
  cases rule with
  | chain tier => cases tier <;> rfl
  | _ => rfl

theorem rank_operandOf (tier : Tier) : (operandOf tier).rank = (chain tier).rank + 1 := by
  cases tier <;> rfl

end Descent.Rule

namespace Grammar

theorem Derives.loosen_one : ∀ {rank : Nat} {ts : List Token} {e : Tree},
    Derives (.ofRank (rank + 1)) ts e → Derives (.ofRank rank) ts e
  | 0, _, _, h => .equality h
  | 1, _, _, h | 2, _, _, h | 3, _, _, h | 4, _, _, h => .operand h
  | 5, _, _, h => .primary h
  | _ + 6, _, _, h => h

/-- What a tight rule derives, every looser rule derives. -/
theorem Derives.loosen {rule looser : Rule} {ts : List Token} {e : Tree} (h : Derives rule ts e)
    (hle : looser.rank ≤ rule.rank) : Derives looser ts e := by
  have descend : ∀ gap : Nat, Derives (.ofRank (looser.rank + gap)) ts e →
      Derives (.ofRank looser.rank) ts e := by
    intro gap
    induction gap with
    | zero => exact id
    | succ gap ih => exact fun h => ih (.loosen_one h)
  have := descend (rule.rank - looser.rank)
  rw [Nat.add_sub_cancel' hle, Rule.ofRank_rank, Rule.ofRank_rank] at this
  exact this h

/-! ## The tables of the readers are those of the rules -/

theorem operator_iff {tier : Tier} {k : Kind} : Operator tier k ↔ k.tier? = some tier := by
  constructor
  · intro h
    cases h <;> rfl
  · intro h
    cases k with
    | mark m => cases m <;> cases h <;> constructor
    | _ => cases h

theorem sign_iff {k : Kind} : Sign k ↔ k.isUnary = true := by
  constructor
  · intro h
    cases h <;> rfl
  · intro h
    simp only [Kind.isUnary, Bool.or_eq_true, beq_iff_eq] at h
    rcases h with rfl | rfl
    · exact .bang
    · exact .minus

theorem atom_iff {t : Token} {e : Tree} : Atom t e ↔ Tree.atom? t = some e := by
  constructor
  · intro h
    cases h with
    | false_ h | true_ h | nil h | string h | name h => simp only [Tree.atom?, h]
    | number h hx => simp only [Tree.atom?, h, hx, Option.map_some]
  · intro h
    unfold Tree.atom? at h
    split at h
    case h_1 hk => cases h; exact .false_ hk
    case h_2 hk => cases h; exact .true_ hk
    case h_3 hk => cases h; exact .nil hk
    case h_4 hk =>
      obtain ⟨x, hx, rfl⟩ := Option.map_eq_some_iff.mp h
      exact .number hk hx
    case h_5 hk => cases h; exact .string hk
    case h_6 hk => cases h; exact .name hk
    case h_7 => cases h

/-- A number that is an operand can be read. -/
theorem Atom.converts {t : Token} {e : Tree} (h : Atom t e) : t.Converts := by
  intro hkind
  cases h with
  | number _ hx => rw [hx, Option.isSome_some]
  | false_ h | true_ h | nil h | string h | name h => rw [h] at hkind; cases hkind

/-- No token is both an operand and a sign. -/
theorem Atom.isUnary_eq_false {t : Token} {e : Tree} (h : Atom t e) : t.kind.isUnary = false := by
  cases h with
  | false_ h | true_ h | nil h | number h | string h | name h => rw [h]; rfl

/-! ## How derivations start

Every expression starts with an operand, a sign or a parenthesis, so a declaration is told from the
others by its first token, and no declaration starts with the brace that ends a block. -/

/-- What an expression may start with. -/
def StartsOperand (t : Token) : Prop :=
  (∃ e, Atom t e) ∨ Sign t.kind ∨ t.kind = .mark .leftParen

theorem StartsOperand.kind_ne {t : Token} (h : StartsOperand t) :
    t.kind ≠ .word .var ∧ t.kind ≠ .word .print ∧ t.kind ≠ .mark .leftBrace ∧
      t.kind ≠ .mark .rightBrace := by
  rcases h with ⟨e, h⟩ | h | h
  · cases h with
    | false_ h | true_ h | nil h | number h | string h | name h => simp [h]
  · cases hk : t.kind with
    | mark m => rw [hk] at h; cases h <;> simp
    | _ => rw [hk] at h; cases h
  · simp [h]

theorem Derives.start {rule : Rule} {ts : List Token} {e : Tree} (h : Derives rule ts e) :
    ∃ t us, ts = t :: us ∧ StartsOperand t := by
  induction h with
  | assign hname _ _ _ => exact ⟨_, _, rfl, .inl ⟨_, .name hname⟩⟩
  | equality _ ih => exact ih
  | operand _ ih => exact ih
  | step _ _ _ ih _ =>
      obtain ⟨t, us, rfl, h⟩ := ih
      exact ⟨t, _, rfl, h⟩
  | sign h _ _ => exact ⟨_, _, rfl, .inr (.inl h)⟩
  | primary _ ih => exact ih
  | atom h => exact ⟨_, _, rfl, .inl ⟨_, h⟩⟩
  | group h _ _ _ => exact ⟨_, _, rfl, .inr (.inr h)⟩

/-- A primary expression does not start with a sign. -/
theorem Derives.start_not_sign {ts : List Token} {e : Tree} (h : Derives .primary ts e) :
    ∃ t us, ts = t :: us ∧ t.kind.isUnary = false := by
  cases h with
  | atom h => exact ⟨_, _, rfl, h.isUnary_eq_false⟩
  | group h _ _ => exact ⟨_, _, rfl, by rw [h]; rfl⟩

theorem Declaration.start {ts : List Token} {t : Tree} (h : Declaration ts t) :
    ∃ u us, ts = u :: us ∧ u.kind ≠ .mark .rightBrace := by
  cases h with
  | declare h _ _ | define h _ _ _ _ | print h _ _ | block h _ _ =>
      exact ⟨_, _, rfl, by simp [h]⟩
  | discard h _ =>
      obtain ⟨t, us, rfl, ht⟩ := h.start
      exact ⟨t, _, rfl, ht.kind_ne.2.2.2⟩

/-! ## Derivations of names, and of programs put together -/

/-- A name is the tree of its own token alone. -/
theorem Derives.eq_of_reference {rule : Rule} {ts : List Token} {name : Token}
    (h : Derives rule ts (.reference name)) : ts = [name] ∧ name.kind = .identifier := by
  generalize he : Tree.reference name = e at h
  induction h with
  | assign | step | sign | group => cases he
  | equality _ ih => exact ih he
  | operand _ ih => exact ih he
  | primary _ ih => exact ih he
  | atom h =>
      cases h with
      | name h => cases he; exact ⟨rfl, h⟩
      | _ => cases he

theorem Declaration.program {ts : List Token} {t : Tree} (h : Declaration ts t) :
    Program ts [t] := by
  simpa using Program.cons h .nil

theorem Program.append {us : List Token} {bs : List Tree} (hb : Program us bs) :
    ∀ {ts : List Token} {as : List Tree}, Program ts as → Program (ts ++ us) (as ++ bs)
  | _, _, .nil => hb
  | _, _, .cons h ha => by
      rw [List.append_assoc]
      exact .cons h (hb.append ha)

end Grammar

end RoxLang
