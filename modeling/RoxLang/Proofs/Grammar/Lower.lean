/-
# `RoxLang.Proofs.Grammar.Lower` — lines further down

A text that follows another is the same text, some lines further down.  Its tokens are the same but
for their lines, and nothing that reads tokens looks at a line: lowered tokens derive what the
tokens derive, lowered.  A lowered tree has the form of the tree and nests as deep.
-/
import RoxLang.Proofs.Descent.Levels
import RoxLang.Proofs.Tree.Alike

namespace RoxLang

theorem Token.lower_zero (t : Token) : t.lower 0 = t := by
  show (⟨t.kind, t.lexeme, t.line + 0⟩ : Token) = t
  rw [Int.add_zero]

namespace Tree

mutual

/-- The same tree so many lines further down. -/
def lower (lines : Nat) : Tree → Tree
  | .literal v => .literal v
  | .unary op e => .unary (op.lower lines) (e.lower lines)
  | .binary l op r => .binary (l.lower lines) (op.lower lines) (r.lower lines)
  | .grouping e => .grouping (e.lower lines)
  | .reference name => .reference (name.lower lines)
  | .assign name e => .assign (name.lower lines) (e.lower lines)
  | .discard e => .discard (e.lower lines)
  | .print e => .print (e.lower lines)
  | .declare name => .declare (name.lower lines)
  | .define name e => .define (name.lower lines) (e.lower lines)
  | .block ts => .block (lowerAll lines ts)
  | .foreign className => .foreign className

def lowerAll (lines : Nat) : List Tree → List Tree
  | [] => []
  | t :: ts => t.lower lines :: lowerAll lines ts

end

theorem lowerAll_eq_map (lines : Nat) (ts : List Tree) :
    lowerAll lines ts = ts.map (lower lines) := by
  induction ts with
  | nil => rfl
  | cons t ts ih => exact congrArg (t.lower lines :: ·) ih

mutual

/-- A lowered tree has the form of the tree. -/
theorem like_lower (lines : Nat) : ∀ t : Tree, Like Eq (t.lower lines) t
  | .literal _ => .node (.literal rfl)
  | .unary _ e => .node (.unary ⟨rfl, rfl⟩ (like_lower lines e))
  | .binary l _ r => .node (.binary ⟨rfl, rfl⟩ (like_lower lines l) (like_lower lines r))
  | .grouping e => .node (.grouping (like_lower lines e))
  | .reference _ => .node (.reference ⟨rfl, rfl⟩)
  | .assign _ e => .node (.assign ⟨rfl, rfl⟩ (like_lower lines e))
  | .discard e => .node (.discard (like_lower lines e))
  | .print e => .node (.print (like_lower lines e))
  | .declare _ => .node (.declare ⟨rfl, rfl⟩)
  | .define _ e => .node (.define ⟨rfl, rfl⟩ (like_lower lines e))
  | .block ts => .node (.block (like_lowerAll lines ts))
  | .foreign _ => .node .foreign

theorem like_lowerAll (lines : Nat) : ∀ ts : List Tree,
    List.Forall₂ (Like Eq) (lowerAll lines ts) ts
  | [] => .nil
  | t :: ts => .cons (like_lower lines t) (like_lowerAll lines ts)

end

/-! ## Nesting -/

mutual

theorem levels_lower (lines : Nat) : ∀ (inChain : Bool) (t : Tree),
    (t.lower lines).levels inChain = t.levels inChain
  | _, .literal _ | _, .reference _ | _, .declare _ | _, .foreign _ => rfl
  | _, .unary _ e | _, .grouping e | _, .assign _ e | _, .discard e | _, .print e
  | _, .define _ e => by simp only [lower, levels, levels_lower lines false e]
  | _, .binary l _ r => by
      simp only [lower, levels, levels_lower lines true l, levels_lower lines false r]
  | _, .block ts => by simp only [lower, levels, levelsOfAll_lowerAll lines ts]

theorem levelsOfAll_lowerAll (lines : Nat) : ∀ ts : List Tree,
    levelsOfAll (lowerAll lines ts) = levelsOfAll ts
  | [] => rfl
  | t :: ts => by
      simp only [lowerAll, levelsOfAll, levels_lower lines false t, levelsOfAll_lowerAll lines ts]

end

theorem levelsOfAll_append (ts us : List Tree) :
    levelsOfAll (ts ++ us) = max (levelsOfAll ts) (levelsOfAll us) := by
  induction ts with
  | nil => exact (Nat.zero_max _).symm
  | cons t ts ih => simp only [List.cons_append, levelsOfAll, ih, Nat.max_assoc]

theorem ownRank_lower (lines : Nat) (t : Tree) : (t.lower lines).ownRank = t.ownRank := by
  cases t <;> rfl

mutual

theorem ownLevels_lower (lines : Nat) : ∀ t : Tree, (t.lower lines).ownLevels = t.ownLevels
  | .literal _ | .reference _ | .declare _ | .foreign _ => rfl
  | .unary _ e | .grouping e | .assign _ e | .discard e | .print e | .define _ e => by
      simp only [lower, ownLevels, ownRank_lower, ownLevels_lower lines e]
  | .binary l op r => by
      have hrank : (Tree.binary (l.lower lines) (op.lower lines) (r.lower lines)).ownRank
          = (Tree.binary l op r).ownRank := ownRank_lower lines (.binary l op r)
      simp only [lower, ownLevels, hrank, ownRank_lower, ownLevels_lower lines l,
        ownLevels_lower lines r]
  | .block ts => by simp only [lower, ownLevels, levelsOfProgram_lowerAll lines ts]

theorem levelsOfProgram_lowerAll (lines : Nat) : ∀ ts : List Tree,
    levelsOfProgram (lowerAll lines ts) = levelsOfProgram ts
  | [] => rfl
  | t :: ts => by
      simp only [lowerAll, levelsOfProgram, ownLevels_lower lines t,
        levelsOfProgram_lowerAll lines ts]

end

theorem levelsOfProgram_append (ts us : List Tree) :
    levelsOfProgram (ts ++ us) = max (levelsOfProgram ts) (levelsOfProgram us) := by
  induction ts with
  | nil => exact (Nat.zero_max _).symm
  | cons t ts ih => simp only [List.cons_append, levelsOfProgram, ih, Nat.max_assoc]

end Tree

/-! ## Derivations -/

namespace Grammar

open RoxLang.Tree (lowerAll)

theorem Atom.lower {t : Token} {e : Tree} (h : Atom t e) (lines : Nat) :
    Atom (t.lower lines) (e.lower lines) := by
  cases h with
  | false_ h => exact .false_ h
  | true_ h => exact .true_ h
  | nil h => exact .nil h
  | number h hread => exact @Atom.number (t.lower lines) _ h hread
  | string h => exact @Atom.string (t.lower lines) h
  | name h => exact .name h

theorem Derives.lower {rule : Descent.Rule} {ts : List Token} {e : Tree} (h : Derives rule ts e)
    (lines : Nat) : Derives rule (ts.map (Token.lower lines)) (e.lower lines) := by
  induction h with
  | assign hname hequal _ ih => exact .assign hname hequal ih
  | equality _ ih => exact .equality ih
  | operand _ ih => exact .operand ih
  | step _ hop _ ihl ihr =>
      rw [List.map_append, List.map_cons]
      exact .step ihl hop ihr
  | sign hop _ ih => exact .sign hop ih
  | primary _ ih => exact .primary ih
  | atom h => exact .atom (h.lower lines)
  | group hl hr _ ih =>
      rw [List.map_cons, List.map_append]
      exact .group hl hr ih

mutual

theorem Declaration.lower (lines : Nat) : ∀ {ts : List Token} {t : Tree}, Declaration ts t →
    Declaration (ts.map (Token.lower lines)) (t.lower lines)
  | _, _, .declare hvar hname hsemicolon => .declare hvar hname hsemicolon
  | _, _, .define hvar hname hequal he hsemicolon => by
      simp only [List.map_cons, List.map_append, List.map_nil]
      exact .define hvar hname hequal (he.lower lines) hsemicolon
  | _, _, .print hprint he hsemicolon => by
      simp only [List.map_cons, List.map_append, List.map_nil]
      exact .print hprint (he.lower lines) hsemicolon
  | _, _, .block hl hbody hr => by
      simp only [List.map_cons, List.map_append, List.map_nil]
      exact .block hl (hbody.lower lines) hr
  | _, _, .discard he hsemicolon => by
      simp only [List.map_cons, List.map_append, List.map_nil]
      exact .discard (he.lower lines) hsemicolon

theorem Program.lower (lines : Nat) : ∀ {ts : List Token} {trees : List Tree}, Program ts trees →
    Program (ts.map (Token.lower lines)) (lowerAll lines trees)
  | _, _, .nil => .nil
  | _, _, .cons ht hts => by
      rw [List.map_append]
      exact .cons (ht.lower lines) (hts.lower lines)

end

end Grammar

end RoxLang
