/-
# `RoxLang.Proofs.Tree.Plain` — printing along a chain is plain recursion

The printer takes a chain apart and puts the text so far into the next step, from the inside out,
and it counts levels.  The text that it comes to is the one that a recursion on the nodes gives,
which has never heard of chains or levels: every operator stands before the texts of its own
operands.  Only a foreign node has no text, and the first one stops the one as it stops the other.
-/
import RoxLang.Proofs.Tree.Spine

namespace RoxLang.Tree

mutual

/-- The text of a tree, node by node. -/
def plainText : Tree → Except RunFault String
  | .literal value => .ok (literalText value)
  | .unary op e => do return bracketed op.lexeme [← e.plainText]
  | .binary l op r => do return bracketed op.lexeme [← l.plainText, ← r.plainText]
  | .grouping e => do return bracketed "group" [← e.plainText]
  | .reference name => .ok name.lexeme
  | .assign name e => do return bracketed ("= " ++ name.lexeme) [← e.plainText]
  | .discard e => do return bracketed ";" [← e.plainText]
  | .print e => do return bracketed "print" [← e.plainText]
  | .declare name => .ok (bracketed ("var " ++ name.lexeme) [])
  | .define name e => do return bracketed ("var " ++ name.lexeme) [← e.plainText]
  | .block ts => do return bracketed "block" (← plainTexts ts)
  | .foreign className => .error (.foreignNode className)

/-- The texts of several trees. -/
def plainTexts : List Tree → Except RunFault (List String)
  | [] => .ok []
  | t :: ts => do return (← t.plainText) :: (← plainTexts ts)

end

/-- The fault of a result that is none. -/
def faultOf? {α : Type} : Except RunFault α → Option RunFault
  | .ok _ => none
  | .error f => some f

mutual

/-- The first foreign node is the fault, and nothing else stops a tree from having a text. -/
theorem faultOf?_plainText : ∀ t : Tree, faultOf? t.plainText = t.firstForeign?.map .foreignNode
  | .literal _ | .reference _ | .declare _ | .foreign _ => rfl
  | .unary _ e | .grouping e | .assign _ e | .discard e | .print e | .define _ e => by
      rw [plainText, firstForeign?, ← faultOf?_plainText e]
      cases e.plainText <;> rfl
  | .binary l _ r => by
      rw [plainText, firstForeign?, Option.map_or, ← faultOf?_plainText l, ← faultOf?_plainText r]
      cases l.plainText <;> cases r.plainText <;> rfl
  | .block ts => by
      rw [plainText, firstForeign?, ← faultOf?_plainTexts ts]
      cases plainTexts ts <;> rfl

theorem faultOf?_plainTexts : ∀ ts : List Tree,
    faultOf? (plainTexts ts) = (firstForeignOfAll? ts).map .foreignNode
  | [] => rfl
  | t :: ts => by
      rw [plainTexts, firstForeignOfAll?, Option.map_or, ← faultOf?_plainText t,
        ← faultOf?_plainTexts ts]
      cases t.plainText <;> cases plainTexts ts <;> rfl

end

/-- A tree has a plain text, or the first foreign node in it is the fault. -/
theorem plainText_cases (t : Tree) :
    (t.firstForeign? = none ∧ ∃ text, t.plainText = .ok text) ∨
      ∃ className, t.firstForeign? = some className ∧
        t.plainText = .error (.foreignNode className) := by
  have hfault := faultOf?_plainText t
  cases hforeign : t.firstForeign? with
  | none =>
      cases htext : t.plainText with
      | ok text => exact .inl ⟨rfl, text, rfl⟩
      | error f =>
          rw [hforeign, htext] at hfault
          cases hfault
  | some className =>
      cases htext : t.plainText with
      | ok text =>
          rw [hforeign, htext] at hfault
          cases hfault
      | error f =>
          rw [hforeign, htext] at hfault
          cases hfault
          exact .inr ⟨className, rfl, rfl⟩

/-! ## Printing -/

/-- The step of a chain that is printed. -/
def renderStep (n : Nat) (text : String) (op : Token) (e : Tree) : Except RunFault String := do
  return bracketed op.lexeme [text, ← renderWithin n e]

theorem renderWithin_binary (n : Nat) (l : Tree) (op : Token) (r : Tree) :
    renderWithin (n + 1) (.binary l op r)
      = alongSpine (renderWithin n) (renderStep n) (.binary l op r) := rfl

/-- A tree prints as its plain text, as a node of its own and as a chain. -/
def PrintsPlainly (t : Tree) : Prop := ∀ n : Nat,
  (t.levels false ≤ n → renderWithin n t = t.plainText) ∧
    (t.levels true ≤ n → alongSpine (renderWithin n) (renderStep n) t = t.plainText)

theorem PrintsPlainly.of_not_binary {t : Tree} (h : t.isBinary = false)
    (ht : ∀ n, t.levels false ≤ n + 1 → renderWithin (n + 1) t = t.plainText) :
    PrintsPlainly t := by
  have hnode (n : Nat) (hn : t.levels false ≤ n) : renderWithin n t = t.plainText := by
    obtain ⟨k, rfl⟩ := exists_levels hn
    exact ht k hn
  intro n
  refine ⟨hnode n, fun hn => ?_⟩
  rw [alongSpine_of_not_binary _ _ h]
  exact hnode n (levels_of_not_binary h ▸ hn)

theorem PrintsPlainly.binary {l r : Tree} (hl : PrintsPlainly l) (hr : PrintsPlainly r)
    (op : Token) : PrintsPlainly (.binary l op r) := by
  have hchain (n : Nat) (hn : (Tree.binary l op r).levels true ≤ n) :
      alongSpine (renderWithin n) (renderStep n) (.binary l op r)
        = (Tree.binary l op r).plainText := by
    simp only [levels, if_true, Nat.add_zero, Nat.max_le] at hn
    rw [alongSpine_binary, (hl n).2 hn.1]
    simp only [renderStep, (hr n).1 hn.2]
    rfl
  intro n
  refine ⟨fun hn => ?_, hchain n⟩
  obtain ⟨k, rfl⟩ := exists_levels hn
  rw [levels_binary] at hn
  rw [renderWithin_binary]
  exact hchain k (Nat.le_of_succ_le_succ hn)

mutual

theorem printsPlainly : ∀ t : Tree, PrintsPlainly t
  | .literal _ | .reference _ | .declare _ | .foreign _ => .of_not_binary rfl fun _ _ => rfl
  | .unary _ e | .grouping e | .assign _ e | .discard e | .print e | .define _ e =>
      .of_not_binary rfl fun n hn => by
        have he := (printsPlainly e n).1 (Nat.le_of_succ_le_succ hn)
        simp only [renderWithin, plainText, he]
  | .binary l op r => (printsPlainly l).binary (printsPlainly r) op
  | .block ts => .of_not_binary rfl fun n hn => by
      have hts := mapM_eq_plainTexts ts (Nat.le_of_succ_le_succ hn)
      simp only [renderWithin, plainText, hts]

theorem mapM_eq_plainTexts : ∀ (ts : List Tree) {n : Nat}, levelsOfAll ts ≤ n →
    ts.mapM (renderWithin n) = plainTexts ts
  | [], _, _ => rfl
  | t :: ts, n, hn => by
      simp only [levelsOfAll, Nat.max_le] at hn
      rw [List.mapM_cons, (printsPlainly t n).1 hn.1, mapM_eq_plainTexts ts hn.2]
      rfl

end

/-- The text of a tree is its plain text. -/
theorem render_eq_plainText (t : Tree) : t.render = t.plainText :=
  (printsPlainly t t.nesting).1 (Nat.le_refl _)

/-- A tree without foreign nodes has a text. -/
theorem exists_render {t : Tree} (h : t.isNative = true) : ∃ text, t.render = .ok text := by
  rw [← isNone_firstForeign?] at h
  rw [render_eq_plainText]
  rcases plainText_cases t with ⟨-, htext⟩ | ⟨className, hforeign, -⟩
  · exact htext
  · rw [hforeign] at h
    cases h

/-- Trees without foreign nodes have texts. -/
theorem exists_renderAll : ∀ {ts : List Tree}, (∀ t ∈ ts, t.isNative = true) →
    ∃ texts, renderAll ts = .ok texts
  | [], _ => ⟨[], rfl⟩
  | t :: ts, h => by
      obtain ⟨ht, hts⟩ := List.forall_mem_cons.mp h
      obtain ⟨text, htext⟩ := exists_render ht
      obtain ⟨texts, htexts⟩ := exists_renderAll hts
      refine ⟨text :: texts, ?_⟩
      rw [renderAll] at htexts ⊢
      rw [List.mapM_cons, htext, htexts]
      rfl

theorem bracketed_pair (head left right : String) :
    bracketed head [left, right] = "(" ++ head ++ " " ++ left ++ " " ++ right ++ ")" := by
  simp only [bracketed, String.intercalate_cons_cons, String.intercalate_singleton,
    String.append_assoc]

/-- A binary operator is printed in front of the texts of its operands, wherever it stands. -/
theorem render_binary (l : Tree) (op : Token) (r : Tree) : (Tree.binary l op r).render = do
    let left ← l.render
    let right ← r.render
    return "(" ++ op.lexeme ++ " " ++ left ++ " " ++ right ++ ")" := by
  simp only [render_eq_plainText, plainText, bracketed_pair]

/-- Taking a tree apart into a chain is the inverse of folding chains, which start with no binary
operator.  So printing along the chain is plain recursion: a binary operator is printed in front of
the texts of its operands, the text of every tree is its plain text, and where there is a foreign
node both fail with the class name of the first. -/
theorem spine_inverts_folding_and_prints_plainly (t : Tree) :
    (∀ s : Spine, t.spine = s ↔ s.first.isBinary = false ∧ s.toTree = t) ∧
      (∀ l op r, (Tree.binary l op r).render = do
        let left ← l.render
        let right ← r.render
        return "(" ++ op.lexeme ++ " " ++ left ++ " " ++ right ++ ")") ∧
      ((t.isNative = true ∧ ∃ text, t.render = .ok text ∧ t.plainText = .ok text) ∨
        (t.isNative = false ∧ ∃ className, t.firstForeign? = some className ∧
          t.render = .error (.foreignNode className) ∧
          t.plainText = .error (.foreignNode className))) := by
  refine ⟨fun s => spine_eq_iff, render_binary, ?_⟩
  rw [render_eq_plainText, ← isNone_firstForeign?]
  rcases plainText_cases t with ⟨hforeign, text, htext⟩ | ⟨className, hforeign, htext⟩
  · exact .inl ⟨by rw [hforeign]; rfl, text, htext, htext⟩
  · exact .inr ⟨by rw [hforeign]; rfl, className, hforeign, htext, htext⟩

end RoxLang.Tree
