/-
# `RoxLang.Proofs.Grammar.Sorts` — expressions and statements

One type of trees holds both, and a tree made by hand may mix them.  A derivation does not: what it
has as an operand is an expression, what stands in a program or in a block is a statement, and the
tokens that it keeps in its trees are tokens that it derives from.  So whatever is true of all
tokens of a text is true of the operators and names in its statements, and of the tokens that its
operands are made of.
-/
import RoxLang.Proofs.Grammar.Derivation

namespace RoxLang.Grammar

variable {P : Token → Prop}

/-- A tree that is an expression, made of tokens with a certain property. -/
inductive Expression (P : Token → Prop) : Tree → Prop
  | atom {t : Token} {e : Tree} : P t → Atom t e → Expression P e
  | unary {op : Token} {e : Tree} : P op → Sign op.kind → Expression P e →
      Expression P (.unary op e)
  | binary {tier : Tier} {op : Token} {l r : Tree} : P op → Operator tier op.kind →
      Expression P l → Expression P r → Expression P (.binary l op r)
  | grouping {e : Tree} : Expression P e → Expression P (.grouping e)
  | assign {name : Token} {e : Tree} : P name → name.kind = .identifier → Expression P e →
      Expression P (.assign name e)

/-- A tree that is a statement, made of such tokens. -/
inductive Statement (P : Token → Prop) : Tree → Prop
  | discard {e : Tree} : Expression P e → Statement P (.discard e)
  | print {e : Tree} : Expression P e → Statement P (.print e)
  | declare {name : Token} : P name → name.kind = .identifier → Statement P (.declare name)
  | define {name : Token} {e : Tree} : P name → name.kind = .identifier → Expression P e →
      Statement P (.define name e)
  | block {ts : List Tree} : (∀ t ∈ ts, Statement P t) → Statement P (.block ts)

theorem Derives.expression {rule : Descent.Rule} {ts : List Token} {e : Tree}
    (h : Derives rule ts e) : (∀ t ∈ ts, P t) → Expression P e := by
  induction h with
  | assign hname _ _ ih =>
      intro hts
      simp only [List.forall_mem_cons] at hts
      exact .assign hts.1 hname (ih hts.2.2)
  | equality _ ih | operand _ ih | primary _ ih => exact ih
  | step _ hop _ ihl ihr =>
      intro hts
      simp only [List.forall_mem_append, List.forall_mem_cons] at hts
      exact .binary hts.2.1 hop (ihl hts.1) (ihr hts.2.2)
  | sign hop _ ih =>
      intro hts
      simp only [List.forall_mem_cons] at hts
      exact .unary hts.1 hop (ih hts.2)
  | atom h =>
      intro hts
      exact .atom (hts _ List.mem_cons_self) h
  | group _ _ _ ih =>
      intro hts
      simp only [List.forall_mem_append, List.forall_mem_cons] at hts
      exact .grouping (ih hts.2.1)

mutual

theorem Declaration.statement : ∀ {ts : List Token} {t : Tree}, Declaration ts t →
    (∀ t ∈ ts, P t) → Statement P t
  | _, _, .declare _ hname _, hts => by
      simp only [List.forall_mem_cons] at hts
      exact .declare hts.2.1 hname
  | _, _, .define _ hname _ h _, hts => by
      simp only [List.forall_mem_append, List.forall_mem_cons] at hts
      exact .define hts.2.1 hname (h.expression hts.2.2.2.1)
  | _, _, .print _ h _, hts => by
      simp only [List.forall_mem_append, List.forall_mem_cons] at hts
      exact .print (h.expression hts.2.1)
  | _, _, .block _ h _, hts => by
      simp only [List.forall_mem_append, List.forall_mem_cons] at hts
      exact .block (Program.statements h hts.2.1)
  | _, _, .discard h _, hts => by
      simp only [List.forall_mem_append] at hts
      exact .discard (h.expression hts.1)

/-- A derived program consists of statements. -/
theorem Program.statements : ∀ {ts : List Token} {trees : List Tree}, Program ts trees →
    (∀ t ∈ ts, P t) → ∀ t ∈ trees, Statement P t
  | _, _, .nil, _ => nofun
  | _, _, .cons h hp, hts => by
      simp only [List.forall_mem_append] at hts
      exact List.forall_mem_cons.mpr ⟨Declaration.statement h hts.1, Program.statements hp hts.2⟩

end

end RoxLang.Grammar
