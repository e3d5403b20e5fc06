/-
# `RoxLang.Proofs.Grammar.Context` — what may stand in front of a rule

A derivation says which tokens belong to a rule.  A context says where in a program these tokens may
stand, by what is in front of them: declarations and open braces in front of a declaration; the
beginning of a statement, a name with `=`, or an open parenthesis in front of an expression; a chain
with an operator behind it in front of an operand.  What comes afterwards is left open, so a context
is the beginning of some program and nothing more.

Where an expression may start and an equality chain has been derived, an `=` is the `=` of an
assignment if the chain is a name.  If it is anything else, no program has an `=` there.
-/
import RoxLang.Proofs.Grammar.Derivation

namespace RoxLang.Grammar

open Descent (Rule)

/-- `Opened ts`: a declaration may start behind `ts`. -/
inductive Opened : List Token → Prop
  | start : Opened []
  | declared {ts us : List Token} {t : Tree} : Opened ts → Declaration us t → Opened (ts ++ us)
  | block {l : Token} {ts : List Token} :
      Opened ts → l.kind = .mark .leftBrace → Opened (ts ++ [l])

/-- `Awaited rule ts`: what the rule derives may start behind `ts`. -/
inductive Awaited : Rule → List Token → Prop
  | discard {ts : List Token} : Opened ts → Awaited .assignment ts
  | print {print : Token} {ts : List Token} :
      Opened ts → print.kind = .word .print → Awaited .assignment (ts ++ [print])
  | define {var name equal : Token} {ts : List Token} :
      Opened ts → var.kind = .word .var → name.kind = .identifier → equal.kind = .mark .equal →
      Awaited .assignment (ts ++ [var, name, equal])
  | value {name equal : Token} {ts : List Token} :
      Awaited .assignment ts → name.kind = .identifier → equal.kind = .mark .equal →
      Awaited .assignment (ts ++ [name, equal])
  | equality {ts : List Token} : Awaited .assignment ts → Awaited (.chain .equality) ts
  | operand {tier : Tier} {ts : List Token} :
      Awaited (.chain tier) ts → Awaited (.operandOf tier) ts
  | step {tier : Tier} {op : Token} {ts us : List Token} {l : Tree} :
      Awaited (.chain tier) ts → Derives (.chain tier) us l → Operator tier op.kind →
      Awaited (.operandOf tier) (ts ++ (us ++ [op]))
  | sign {op : Token} {ts : List Token} :
      Awaited .unary ts → Sign op.kind → Awaited .unary (ts ++ [op])
  | primary {ts : List Token} : Awaited .unary ts → Awaited .primary ts
  | group {l : Token} {ts : List Token} :
      Awaited .primary ts → l.kind = .mark .leftParen → Awaited .assignment (ts ++ [l])

/-- Where an expression may start, an operand may. -/
theorem Awaited.operandFirst {ts : List Token} (h : Awaited .assignment ts) :
    Awaited .primary ts := by
  have hcomparison := @Awaited.operand .equality _ (.equality h)
  have hterm := @Awaited.operand .comparison _ hcomparison
  have hfactor := @Awaited.operand .term _ hterm
  exact .primary (@Awaited.operand .factor _ hfactor)

/-- The last tokens are the word that starts a declaration and a name. -/
def BehindName (ts : List Token) : Prop :=
  ∃ before var name, ts = before ++ [var, name] ∧ var.kind = .word .var ∧ name.kind = .identifier

/-- `equal` is an `=` that follows, behind `ts`, a complete left side that is not a name alone. -/
def Misassigned (ts : List Token) (equal : Token) : Prop :=
  equal.kind = .mark .equal ∧ ∃ before us e, ts = before ++ us ∧ Awaited .assignment before ∧
    Derives (.chain .equality) us e ∧ ∀ name, e ≠ .reference name

end RoxLang.Grammar
