/-
# `RoxLang.Proofs.Tree.Spine` — going along a chain is recursion on the left operand

What goes through a tree takes a chain apart first and then loops over its steps, so that the
length of the chain costs nothing.  The law behind every such loop is that the chain of a binary
operator is the chain of its left operand with one more step: going along it is going along the
left operand's chain and then taking that step, whatever is done on the way.

It also gives that taking apart and folding are inverse to each other, as long as a chain starts
with what is no binary operator.
-/
import RoxLang.Tree.Text

namespace RoxLang.Tree

theorem spineOnto_eq : ∀ (t : Tree) (steps : List (Token × Tree)),
    t.spineOnto steps = ⟨t.spine.first, t.spine.steps ++ steps⟩
  | .binary l op r, steps => by
      rw [spine, spineOnto, spineOnto, spineOnto_eq l, spineOnto_eq l [(op, r)]]
      simp only [List.append_assoc, List.singleton_append]
  | .literal _, _ | .unary .., _ | .grouping _, _ | .reference _, _ | .assign .., _
  | .discard _, _ | .print _, _ | .declare _, _ | .define .., _ | .block _, _ | .foreign _, _ => rfl

/-- The chain of a binary operator is that of its left operand, with one more step. -/
theorem spine_binary (l : Tree) (op : Token) (r : Tree) :
    (binary l op r).spine = ⟨l.spine.first, l.spine.steps ++ [(op, r)]⟩ :=
  spineOnto_eq l [(op, r)]

theorem spine_of_not_binary {t : Tree} (h : t.isBinary = false) : t.spine = ⟨t, []⟩ := by
  cases t <;> first | rfl | cases h

/-- The first operand of a chain is no binary operator. -/
theorem isBinary_first : ∀ t : Tree, t.spine.first.isBinary = false
  | .binary l op r => by
      rw [spine_binary]
      exact isBinary_first l
  | .literal _ | .unary .. | .grouping _ | .reference _ | .assign .. | .discard _ | .print _
  | .declare _ | .define .. | .block _ | .foreign _ => rfl

/-- Steps that are folded onto a tree are the last steps of its chain. -/
theorem spine_foldl_extend (t : Tree) (steps : List (Token × Tree)) :
    (steps.foldl extend t).spine = ⟨t.spine.first, t.spine.steps ++ steps⟩ := by
  induction steps generalizing t with
  | nil => rw [List.foldl_nil, List.append_nil]
  | cons step steps ih =>
      rw [List.foldl_cons, ih, extend, spine_binary]
      simp only [List.append_assoc, List.singleton_append]

/-- A chain that starts with no binary operator is the chain of the tree that it folds to, and of
no other tree. -/
theorem spine_eq_iff {t : Tree} {s : Spine} :
    t.spine = s ↔ s.first.isBinary = false ∧ s.toTree = t := by
  constructor
  · rintro rfl
    exact ⟨isBinary_first t, spine_toTree t⟩
  · rintro ⟨hfirst, rfl⟩
    rw [Spine.toTree, spine_foldl_extend, spine_of_not_binary hfirst]
    rfl

/-- In `a - b - c * d` the last operand is a chain of its own. -/
example (a b c d minus star : Token) :
    (binary (.binary (.reference a) minus (.reference b)) minus
      (.binary (.reference c) star (.reference d))).spine
      = ⟨.reference a,
        [(minus, .reference b), (minus, .binary (.reference c) star (.reference d))]⟩ := rfl

/-! ## Going along a chain -/

section

variable {m : Type → Type} [Monad m] [LawfulMonad m] {α : Type}

/-- Take the first operand of a tree's chain, and then step by step the others. -/
def alongSpine (operand : Tree → m α) (step : α → Token → Tree → m α) (t : Tree) : m α := do
  t.spine.steps.foldlM (fun a (op, e) => step a op e) (← operand t.spine.first)

theorem alongSpine_binary (operand : Tree → m α) (step : α → Token → Tree → m α) (l : Tree)
    (op : Token) (r : Tree) : alongSpine operand step (.binary l op r)
      = alongSpine operand step l >>= fun a => step a op r := by
  simp only [alongSpine, spine_binary, List.foldlM_append, List.foldlM_cons, List.foldlM_nil,
    bind_assoc, bind_pure]

theorem alongSpine_of_not_binary (operand : Tree → m α) (step : α → Token → Tree → m α) {t : Tree}
    (h : t.isBinary = false) : alongSpine operand step t = operand t := by
  simp only [alongSpine, spine_of_not_binary h, List.foldlM_nil, bind_pure]

end

/-! ## Levels along a chain -/

theorem levels_binary (l : Tree) (op : Token) (r : Tree) :
    (binary l op r).levels false = (binary l op r).levels true + 1 := by
  simp only [levels, Bool.false_eq_true, if_false, if_true, Nat.add_zero]

theorem levels_of_not_binary {t : Tree} (h : t.isBinary = false) :
    t.levels true = t.levels false := by
  cases t <;> first | rfl | cases h

/-- A tree takes at least one level. -/
theorem exists_levels {t : Tree} {n : Nat} (h : t.levels false ≤ n) : ∃ k, n = k + 1 := by
  refine ⟨n - 1, ?_⟩
  have : 1 ≤ t.levels false := by cases t <;> simp [levels]
  omega

/-! ## Trees of the language -/

mutual

/-- Whether there is no foreign node in a tree. -/
def isNative : Tree → Bool
  | .literal _ | .reference _ | .declare _ => true
  | .unary _ e | .grouping e | .assign _ e | .discard e | .print e | .define _ e => e.isNative
  | .binary l _ r => l.isNative && r.isNative
  | .block ts => areNative ts
  | .foreign _ => false

def areNative : List Tree → Bool
  | [] => true
  | t :: ts => t.isNative && areNative ts

end

mutual

/-- The class name of the foreign node that stands first in a tree. -/
def firstForeign? : Tree → Option String
  | .literal _ | .reference _ | .declare _ => none
  | .unary _ e | .grouping e | .assign _ e | .discard e | .print e | .define _ e => e.firstForeign?
  | .binary l _ r => l.firstForeign?.or r.firstForeign?
  | .block ts => firstForeignOfAll? ts
  | .foreign className => some className

def firstForeignOfAll? : List Tree → Option String
  | [] => none
  | t :: ts => t.firstForeign?.or (firstForeignOfAll? ts)

end

mutual

theorem isNone_firstForeign? : ∀ t : Tree, t.firstForeign?.isNone = t.isNative
  | .literal _ | .reference _ | .declare _ | .foreign _ => rfl
  | .unary _ e | .grouping e | .assign _ e | .discard e | .print e | .define _ e =>
      isNone_firstForeign? e
  | .binary l _ r => by
      rw [firstForeign?, Option.isNone_or, isNone_firstForeign? l, isNone_firstForeign? r, isNative]
  | .block ts => isNone_firstForeignOfAll? ts

theorem isNone_firstForeignOfAll? : ∀ ts : List Tree,
    (firstForeignOfAll? ts).isNone = areNative ts
  | [] => rfl
  | t :: ts => by
      rw [firstForeignOfAll?, Option.isNone_or, isNone_firstForeign? t,
        isNone_firstForeignOfAll? ts, areNative]

end

end RoxLang.Tree
