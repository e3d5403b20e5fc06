/-
# `RoxLang.Proofs.Tree.Alike` — trees of one form

Two trees have one form when the same nodes stand in the same places, with tokens of the same kind
and lexeme.  The lines of the tokens are left free, and so is, up to a relation of one's choice,
what the literals hold.

`SameNode` looks at one node and leaves it to two relations what is to hold of the parts: one for
the parts in the node's own scope and one for the statements of a block.  So a relation that is
closed under `SameNode` may say more of the parts than their form.  `Like` is the least such
relation and says nothing more.
-/
import Mathlib.Data.List.Forall2
import RoxLang.Proofs.Tree.Spine

namespace RoxLang

/-- Tokens that differ in their lines at most. -/
structure Token.SameText (t u : Token) : Prop where
  kind : t.kind = u.kind
  lexeme : t.lexeme = u.lexeme

theorem Token.SameText.refl (t : Token) : t.SameText t := ⟨rfl, rfl⟩

namespace Tree

/-- Nodes of one form, with related values, parts and statements. -/
inductive SameNode (V : Value → Value → Prop) (T B : Tree → Tree → Prop) : Tree → Tree → Prop
  | literal {v w : Value} : V v w → SameNode V T B (.literal v) (.literal w)
  | unary {op op' : Token} {e e' : Tree} : op.SameText op' → T e e' →
      SameNode V T B (.unary op e) (.unary op' e')
  | binary {op op' : Token} {l l' r r' : Tree} : op.SameText op' → T l l' → T r r' →
      SameNode V T B (.binary l op r) (.binary l' op' r')
  | grouping {e e' : Tree} : T e e' → SameNode V T B (.grouping e) (.grouping e')
  | reference {name name' : Token} : name.SameText name' →
      SameNode V T B (.reference name) (.reference name')
  | assign {name name' : Token} {e e' : Tree} : name.SameText name' → T e e' →
      SameNode V T B (.assign name e) (.assign name' e')
  | discard {e e' : Tree} : T e e' → SameNode V T B (.discard e) (.discard e')
  | print {e e' : Tree} : T e e' → SameNode V T B (.print e) (.print e')
  | declare {name name' : Token} : name.SameText name' →
      SameNode V T B (.declare name) (.declare name')
  | define {name name' : Token} {e e' : Tree} : name.SameText name' → T e e' →
      SameNode V T B (.define name e) (.define name' e')
  | block {ts ts' : List Tree} : List.Forall₂ B ts ts' → SameNode V T B (.block ts) (.block ts')
  | foreign {className : String} : SameNode V T B (.foreign className) (.foreign className)

/-- The same tree, but for the lines of its tokens and for literals with related values. -/
inductive Like (V : Value → Value → Prop) : Tree → Tree → Prop
  | node {t t' : Tree} : SameNode V (Like V) (Like V) t t' → Like V t t'

theorem Like.same {V : Value → Value → Prop} {t t' : Tree} (h : Like V t t') :
    SameNode V (Like V) (Like V) t t' := by
  cases h with
  | node h => exact h

theorem SameNode.isBinary {V : Value → Value → Prop} {T B : Tree → Tree → Prop} {t t' : Tree}
    (h : SameNode V T B t t') : t.isBinary = t'.isBinary := by
  cases h <;> rfl

/-! ## Foreign nodes -/

section

variable {V : Value → Value → Prop} {T : Nat → Tree → Tree → Prop}

mutual

/-- Trees of one form have the same foreign node first, or none together.  The relation may change
from the statements around a block to those in it. -/
theorem firstForeign?_eq
    (form : ∀ {k : Nat} {t t' : Tree}, T k t t' → SameNode V (T k) (T (k + 1)) t t') :
    ∀ {k : Nat} (t : Tree) {t' : Tree}, T k t t' → t.firstForeign? = t'.firstForeign?
  | _, .literal _, _, h | _, .reference _, _, h | _, .declare _, _, h | _, .foreign _, _, h => by
      cases form h
      rfl
  | _, .unary _ e, _, h | _, .grouping e, _, h | _, .assign _ e, _, h | _, .discard e, _, h
  | _, .print e, _, h | _, .define _ e, _, h => by
      cases form h
      rename_i he
      exact (firstForeign?_eq form e he :)
  | _, .binary l op r, _, h => by
      cases form h with
      | binary _ hl hr =>
          exact congrArg₂ Option.or (firstForeign?_eq form l hl) (firstForeign?_eq form r hr)
  | _, .block ts, _, h => by
      cases form h with
      | block hts => exact firstForeignOfAll?_eq form ts hts

theorem firstForeignOfAll?_eq
    (form : ∀ {k : Nat} {t t' : Tree}, T k t t' → SameNode V (T k) (T (k + 1)) t t') :
    ∀ {k : Nat} (ts : List Tree) {ts' : List Tree}, List.Forall₂ (T k) ts ts' →
      firstForeignOfAll? ts = firstForeignOfAll? ts'
  | _, [], _, .nil => rfl
  | _, t :: ts, _, .cons ht hts =>
      congrArg₂ Option.or (firstForeign?_eq form t ht) (firstForeignOfAll?_eq form ts hts)

end

end

/-! ## A tree and itself -/

mutual

/-- A tree has the form of itself. -/
theorem Like.refl {V : Value → Value → Prop} (hV : ∀ v, V v v) : ∀ t : Tree, Like V t t
  | .literal v => .node (.literal (hV v))
  | .unary op e => .node (.unary (.refl op) (Like.refl hV e))
  | .binary l op r => .node (.binary (.refl op) (Like.refl hV l) (Like.refl hV r))
  | .grouping e => .node (.grouping (Like.refl hV e))
  | .reference name => .node (.reference (.refl name))
  | .assign name e => .node (.assign (.refl name) (Like.refl hV e))
  | .discard e => .node (.discard (Like.refl hV e))
  | .print e => .node (.print (Like.refl hV e))
  | .declare name => .node (.declare (.refl name))
  | .define name e => .node (.define (.refl name) (Like.refl hV e))
  | .block ts => .node (.block (Like.reflAll hV ts))
  | .foreign _ => .node .foreign

theorem Like.reflAll {V : Value → Value → Prop} (hV : ∀ v, V v v) :
    ∀ ts : List Tree, List.Forall₂ (Like V) ts ts
  | [] => .nil
  | t :: ts => .cons (Like.refl hV t) (Like.reflAll hV ts)

end

end Tree

end RoxLang
