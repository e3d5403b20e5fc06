/-
# `RoxLang.Proofs.Grammar.Proper` — the trees that derivations make

Trees made by hand may hold any token as an operator, any number as a literal, and nodes that are
none.  A derivation makes none of these: its operators are those of the grammar, and a number in it
is what some numeral says, provided that the number tokens that it derives from are numerals.
Nothing that runs or prints a tree looks at more than this to be safe from the faults that are left
for trees made by hand.
-/
import RoxLang.Proofs.Grammar.Sorts
import RoxLang.Proofs.Number.Numeral
import RoxLang.Proofs.Tree.Plain

namespace RoxLang

open Grammar (Operator Sign Atom)

/-! ## Numerals -/

/-- The lexeme of a token is a numeral if the token is a number. -/
def Token.SpellsNumeral (t : Token) : Prop :=
  t.kind = .number → ∃ whole fraction : List Char, (Piece.number whole fraction).Lawful ∧
    t.lexeme.toList = (Piece.number whole fraction).text

/-- Numerals convert. -/
theorem Token.SpellsNumeral.converts {t : Token} (h : t.SpellsNumeral) : t.Converts := by
  intro hkind
  obtain ⟨whole, fraction, hlawful, htext⟩ := h hkind
  rw [Number.ofText?_numeral hlawful htext]
  rfl

/-! ## Proper trees -/

namespace Tree

/-- A tree without foreign nodes, whose operators are those of the grammar and whose numbers are
those of numerals. -/
inductive Proper : Tree → Prop
  | nil : Proper (.literal .nil)
  | boolean (b : Bool) : Proper (.literal (.boolean b))
  | string (s : String) : Proper (.literal (.string s))
  | number {whole fraction : List Char} : (Piece.number whole fraction).Lawful →
      Proper (.literal (.number (Decimal.ofDigits whole fraction).toNumber))
  | unary {op : Token} {e : Tree} : Sign op.kind → Proper e → Proper (.unary op e)
  | binary {tier : Tier} {op : Token} {l r : Tree} : Operator tier op.kind → Proper l → Proper r →
      Proper (.binary l op r)
  | grouping {e : Tree} : Proper e → Proper (.grouping e)
  | reference (name : Token) : Proper (.reference name)
  | assign (name : Token) {e : Tree} : Proper e → Proper (.assign name e)
  | discard {e : Tree} : Proper e → Proper (.discard e)
  | print {e : Tree} : Proper e → Proper (.print e)
  | declare (name : Token) : Proper (.declare name)
  | define (name : Token) {e : Tree} : Proper e → Proper (.define name e)
  | block {ts : List Tree} : (∀ t ∈ ts, Proper t) → Proper (.block ts)

theorem areNative_of_forall : ∀ {ts : List Tree}, (∀ t ∈ ts, t.isNative = true) →
    areNative ts = true
  | [], _ => rfl
  | t :: ts, h => by
      obtain ⟨ht, hts⟩ := List.forall_mem_cons.mp h
      rw [areNative, ht, areNative_of_forall hts]
      rfl

theorem Proper.isNative {t : Tree} (h : t.Proper) : t.isNative = true := by
  induction h with
  | nil | boolean _ | string _ | number _ | reference _ | declare _ => rfl
  | unary _ _ ih | grouping _ ih | assign _ _ ih | discard _ ih | print _ ih | define _ _ ih =>
      exact ih
  | binary _ _ _ ihl ihr => rw [Tree.isNative, ihl, ihr]; rfl
  | block _ ih => exact areNative_of_forall ih

end Tree

/-! ## Derived trees are proper -/

namespace Grammar

theorem Atom.proper {t : Token} {e : Tree} (h : Atom t e) (ht : t.SpellsNumeral) : e.Proper := by
  cases h with
  | false_ _ => exact .boolean false
  | true_ _ => exact .boolean true
  | nil _ => exact .nil
  | string _ => exact .string t.lexeme
  | name _ => exact .reference t
  | number hkind hread =>
      obtain ⟨whole, fraction, hlawful, htext⟩ := ht hkind
      rw [Number.ofText?_numeral hlawful htext] at hread
      rw [← Option.some.inj hread]
      exact .number hlawful

theorem Expression.proper {e : Tree} (h : Expression Token.SpellsNumeral e) : e.Proper := by
  induction h with
  | atom ht h => exact h.proper ht
  | unary _ hop _ ih => exact .unary hop ih
  | binary _ hop _ _ ihl ihr => exact .binary hop ihl ihr
  | grouping _ ih => exact .grouping ih
  | assign _ _ _ ih => exact .assign _ ih

theorem Statement.proper {t : Tree} (h : Statement Token.SpellsNumeral t) : t.Proper := by
  induction h with
  | discard he => exact .discard he.proper
  | print he => exact .print he.proper
  | declare _ _ => exact .declare _
  | define _ _ he => exact .define _ he.proper
  | block _ ih => exact .block ih

/-- The statements of a derived program are proper. -/
theorem Program.proper {ts : List Token} {trees : List Tree} (h : Program ts trees)
    (hts : ∀ t ∈ ts, t.SpellsNumeral) : ∀ t ∈ trees, t.Proper :=
  fun t ht => (h.statements hts t ht).proper

end Grammar

end RoxLang
