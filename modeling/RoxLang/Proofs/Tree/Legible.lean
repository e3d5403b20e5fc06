/-
# `RoxLang.Proofs.Tree.Legible` — the text of a program tells its tree

The text of a tree is a parenthesised form, so it can be read in one way only.  What is left to see
is that the form tells the tree: heads and numbers of parts tell the nodes apart, and the tokens of
a scanned text tell operators, names and literals apart.  A numeral starts with a digit, a string
with a quote and a name with neither; the reserved words are no names.

One clash remains.  A numeral that is too large has the value infinity, whose text `inf` is that of
a name.  `LooksLike` is equality of trees up to this clash and up to lines, and it is exactly what
two programs with the same text have to each other.
-/
import RoxLang.Proofs.Grammar.Sorts
import RoxLang.Proofs.Joined
import RoxLang.Proofs.Number.ReadBack
import RoxLang.Proofs.Tree.Alike
import RoxLang.Proofs.Tree.Form
import RoxLang.Proofs.Tree.Plain

namespace RoxLang

open Grammar (Atom Expression Operator Sign Statement)

/-! ## Infinity -/

namespace Number

theorem text_infinity : infinity.text = "inf" := by decide +kernel

end Number

/-! ## Trees that look alike -/

namespace Tree

/-- The same tree, but for the lines of its tokens, and for infinity written out where the other has
the name `inf`. -/
inductive LooksLike : Tree → Tree → Prop
  | node {t t' : Tree} : SameNode Eq LooksLike LooksLike t t' → LooksLike t t'
  | overflow {name : Token} : name.kind = .identifier → name.lexeme = "inf" →
      LooksLike (.literal (.number .infinity)) (.reference name)
  | named {name : Token} : name.kind = .identifier → name.lexeme = "inf" →
      LooksLike (.reference name) (.literal (.number .infinity))

/-! ## The form of a tree -/

mutual

/-- The form that a tree is printed as. -/
def form : Tree → Form
  | .literal value => .atom (literalText value).toList
  | .unary op e => .node op.lexeme.toList [e.form]
  | .binary l op r => .node op.lexeme.toList [l.form, r.form]
  | .grouping e => .node "group".toList [e.form]
  | .reference name => .atom name.lexeme.toList
  | .assign name e => .node "=".toList [.atom name.lexeme.toList, e.form]
  | .discard e => .node ";".toList [e.form]
  | .print e => .node "print".toList [e.form]
  | .declare name => .node "var".toList [.atom name.lexeme.toList]
  | .define name e => .node "var".toList [.atom name.lexeme.toList, e.form]
  | .block ts => .node "block".toList (formsOf ts)
  | .foreign _ => .atom []

def formsOf : List Tree → List Form
  | [] => []
  | t :: ts => t.form :: formsOf ts

end

theorem toList_bracketed (head : String) (parts : List String) :
    (bracketed head parts).toList
      = '(' :: (head.toList ++ (parts.flatMap fun p => ' ' :: p.toList) ++ [')']) := by
  have hparts : ∀ (head : String) (parts : List String),
      (" ".intercalate (head :: parts)).toList
        = head.toList ++ parts.flatMap fun p => ' ' :: p.toList := by
    intro head parts
    induction parts generalizing head with
    | nil => rw [String.intercalate_singleton, List.flatMap_nil, List.append_nil]
    | cons p ps ih =>
        rw [String.intercalate_cons_cons, String.toList_append, String.toList_append, ih,
          List.flatMap_cons, List.append_assoc]
        rfl
  rw [bracketed, String.toList_append, String.toList_append, hparts]
  rfl

mutual

/-- A tree without foreign nodes is printed as its form is written. -/
theorem exists_plainText : ∀ t : Tree, t.isNative = true →
    ∃ text, t.plainText = .ok text ∧ text.toList = t.form.chars
  | .literal _, _ | .reference _, _ => ⟨_, rfl, rfl⟩
  | .declare name, _ => by
      refine ⟨_, rfl, ?_⟩
      rw [toList_bracketed, String.toList_append]
      simp [form, Form.chars, Form.charsOfAll]
  | .unary _ e, h | .grouping e, h | .discard e, h | .print e, h => by
      obtain ⟨text, htext, hchars⟩ := exists_plainText e h
      refine ⟨_, by rw [plainText, htext]; rfl, ?_⟩
      rw [toList_bracketed]
      simp [form, Form.chars, Form.charsOfAll, hchars]
  | .assign _ e, h | .define _ e, h => by
      obtain ⟨text, htext, hchars⟩ := exists_plainText e h
      refine ⟨_, by rw [plainText, htext]; rfl, ?_⟩
      rw [toList_bracketed, String.toList_append]
      simp [form, Form.chars, Form.charsOfAll, hchars]
  | .binary l _ r, h => by
      obtain ⟨hl, hr⟩ := Bool.and_eq_true_iff.mp h
      obtain ⟨left, hleft, hlchars⟩ := exists_plainText l hl
      obtain ⟨right, hright, hrchars⟩ := exists_plainText r hr
      refine ⟨_, by rw [plainText, hleft, hright]; rfl, ?_⟩
      rw [toList_bracketed]
      simp [form, Form.chars, Form.charsOfAll, hlchars, hrchars]
  | .block ts, h => by
      obtain ⟨texts, htexts, hchars⟩ := exists_plainTexts ts h
      refine ⟨_, by rw [plainText, htexts]; rfl, ?_⟩
      have hparts : (texts.flatMap fun p => ' ' :: p.toList) = Form.charsOfAll (formsOf ts) := by
        rw [Form.charsOfAll_eq_flatMap, ← hchars, List.flatMap_map]
      rw [toList_bracketed, hparts, form, Form.chars, List.append_assoc]

theorem exists_plainTexts : ∀ ts : List Tree, areNative ts = true →
    ∃ texts, plainTexts ts = .ok texts ∧ texts.map String.toList = (formsOf ts).map Form.chars
  | [], _ => ⟨[], rfl, rfl⟩
  | t :: ts, h => by
      obtain ⟨ht, hts⟩ := Bool.and_eq_true_iff.mp h
      obtain ⟨text, htext, hchars⟩ := exists_plainText t ht
      obtain ⟨texts, htexts, hall⟩ := exists_plainTexts ts hts
      refine ⟨text :: texts, by rw [plainTexts, htext, htexts]; rfl, ?_⟩
      rw [List.map_cons, formsOf, List.map_cons, hchars, hall]

end

/-- The text of an overflowing numeral is a name. -/
theorem literalText_infinity : literalText (.number .infinity) = "inf" := Number.text_infinity

mutual

/-- Trees that look alike have one form. -/
theorem LooksLike.form_eq : ∀ (t : Tree) {t' : Tree}, LooksLike t t' → t.form = t'.form
  | .literal _, _, h => by
      cases h with
      | node h => cases h with | literal hv => rw [hv]
      | overflow _ hname => rw [form, form, hname, literalText_infinity]
  | .reference _, _, h => by
      cases h with
      | node h => cases h with | reference hname => rw [form, form, hname.lexeme]
      | named _ hname => rw [form, form, hname, literalText_infinity]
  | .declare _, _, .node h => by
      cases h with | declare hname => rw [form, form, hname.lexeme]
  | .grouping e, _, .node h | .discard e, _, .node h | .print e, _, .node h => by
      cases h
      rename_i he
      rw [form, form, LooksLike.form_eq e he]
  | .unary _ e, _, .node h | .assign _ e, _, .node h | .define _ e, _, .node h => by
      cases h
      rename_i htoken he
      rw [form, form, htoken.lexeme, LooksLike.form_eq e he]
  | .binary l _ r, _, .node h => by
      cases h with
      | binary hop hl hr =>
          rw [form, form, hop.lexeme, LooksLike.form_eq l hl, LooksLike.form_eq r hr]
  | .block ts, _, .node h => by
      cases h with | block hts => rw [form, form, LooksLike.formsOf_eq ts hts]
  | .foreign _, _, .node h => by
      cases h
      rfl

theorem LooksLike.formsOf_eq : ∀ (ts : List Tree) {ts' : List Tree},
    List.Forall₂ LooksLike ts ts' → formsOf ts = formsOf ts'
  | [], _, .nil => rfl
  | t :: ts, _, .cons ht hts => by
      rw [formsOf, formsOf, LooksLike.form_eq t ht, LooksLike.formsOf_eq ts hts]

end

end Tree

end RoxLang
