/-
# `RoxLang.Proofs.Grammar.Names` — the names of a program are its identifier tokens

A tree keeps a name token for each name it reads, assigns or declares.  A derivation puts every
identifier of its tokens into the tree and no other token, so the names of a tree, from left to
right, are the identifiers among the tokens that it derives from.
-/
import RoxLang.Proofs.Grammar.Derivation

namespace RoxLang

namespace Tree

mutual

/-- The name tokens of a tree, from left to right. -/
def nameTokens : Tree → List Token
  | .reference name | .declare name => [name]
  | .assign name e | .define name e => name :: e.nameTokens
  | .binary l _ r => l.nameTokens ++ r.nameTokens
  | .unary _ e | .grouping e | .discard e | .print e => e.nameTokens
  | .block ts => nameTokensOfAll ts
  | .literal _ | .foreign _ => []

def nameTokensOfAll : List Tree → List Token
  | [] => []
  | t :: ts => t.nameTokens ++ nameTokensOfAll ts

end

end Tree

namespace Grammar

open RoxLang.Tree (nameTokens nameTokensOfAll)

/-- The identifiers among some tokens. -/
def identifiers (ts : List Token) : List Token := ts.filter fun t => t.kind = .identifier

theorem identifiers_append (ts us : List Token) :
    identifiers (ts ++ us) = identifiers ts ++ identifiers us := List.filter_append ..

theorem identifiers_cons {t : Token} (h : t.kind = .identifier) (ts : List Token) :
    identifiers (t :: ts) = t :: identifiers ts := by
  rw [identifiers, List.filter_cons_of_pos (by simpa using h)]
  rfl

theorem identifiers_cons_of_ne {t : Token} {kind : Kind} (h : t.kind = kind)
    (hk : kind ≠ .identifier) (ts : List Token) : identifiers (t :: ts) = identifiers ts := by
  rw [identifiers, List.filter_cons_of_neg (by simpa [h] using hk)]
  rfl

theorem Operator.ne_identifier {tier : Tier} {kind : Kind} (h : Operator tier kind) :
    kind ≠ .identifier := by cases h <;> exact nofun

theorem Sign.ne_identifier {kind : Kind} (h : Sign kind) : kind ≠ .identifier := by
  cases h <;> exact nofun

theorem Atom.nameTokens {t : Token} {e : Tree} (h : Atom t e) : e.nameTokens = identifiers [t] := by
  cases h with
  | name h => rw [identifiers_cons h]; rfl
  | false_ h | true_ h | nil h | number h | string h =>
      rw [identifiers_cons_of_ne h nofun]
      rfl

theorem Derives.nameTokens {rule : Descent.Rule} {ts : List Token} {e : Tree}
    (h : Derives rule ts e) : e.nameTokens = identifiers ts := by
  induction h with
  | assign hname hequal _ ih =>
      rw [identifiers_cons hname, identifiers_cons_of_ne hequal nofun, ← ih]
      rfl
  | equality _ ih | operand _ ih | primary _ ih => exact ih
  | step _ hop _ ihl ihr =>
      rw [identifiers_append, identifiers_cons_of_ne rfl hop.ne_identifier, ← ihl, ← ihr]
      rfl
  | sign hop _ ih =>
      rw [identifiers_cons_of_ne rfl hop.ne_identifier, ← ih]
      rfl
  | atom h => exact h.nameTokens
  | group hl hr _ ih =>
      rw [identifiers_cons_of_ne hl nofun, identifiers_append,
        identifiers_cons_of_ne hr nofun, ← ih]
      exact (List.append_nil _).symm

mutual

theorem Declaration.nameTokens : ∀ {ts : List Token} {t : Tree}, Declaration ts t →
    t.nameTokens = identifiers ts
  | _, _, .declare hvar hname hs => by
      rw [identifiers_cons_of_ne hvar nofun, identifiers_cons hname,
        identifiers_cons_of_ne hs nofun]
      rfl
  | _, _, .define hvar hname hequal h hs => by
      rw [identifiers_cons_of_ne hvar nofun, identifiers_cons hname,
        identifiers_cons_of_ne hequal nofun, identifiers_append,
        identifiers_cons_of_ne hs nofun, ← h.nameTokens]
      exact congrArg (_ :: ·) (List.append_nil _).symm
  | _, _, .print hprint h hs => by
      rw [identifiers_cons_of_ne hprint nofun, identifiers_append,
        identifiers_cons_of_ne hs nofun, ← h.nameTokens]
      exact (List.append_nil _).symm
  | _, _, .block hl h hr => by
      rw [identifiers_cons_of_ne hl nofun, identifiers_append,
        identifiers_cons_of_ne hr nofun, ← Program.nameTokens h]
      exact (List.append_nil _).symm
  | _, _, .discard h hs => by
      rw [identifiers_append, identifiers_cons_of_ne hs nofun, ← h.nameTokens]
      exact (List.append_nil _).symm

/-- The names of a program are the identifiers of its tokens. -/
theorem Program.nameTokens : ∀ {ts : List Token} {trees : List Tree}, Program ts trees →
    nameTokensOfAll trees = identifiers ts
  | _, _, .nil => rfl
  | _, _, .cons h hp => by
      rw [identifiers_append, ← Declaration.nameTokens h, ← Program.nameTokens hp]
      rfl

end

end Grammar

end RoxLang
