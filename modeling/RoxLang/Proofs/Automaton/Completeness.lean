/-
# `RoxLang.Proofs.Automaton.Completeness` — the machine takes every derived program

Tokens that a rule derives take the machine from before an operand to behind one.  What it then
holds depends on the rule: behind a unary expression the tree itself, settled on the stack; behind a
chain pieces that reduce to the tree of the chain; behind an assignment pieces that close to it.
Each of the three is what the next looser rule needs, so one induction over the derivation proves
them together (`drives_of_derives`).
-/
import RoxLang.Proofs.Automaton.Stack
import RoxLang.Proofs.Grammar.Derivation

namespace RoxLang.Automaton.Config

open Grammar
open Descent (Rule)

/-! ## Single tokens -/

theorem step?_atom {t : Token} {e : Tree} (h : Atom t e) (c : Config) (head : Head)
    (stack : List Frame) : (c.inPhase (.operand head stack)).step? t
      = some (c.inPhase (.operator head (settle stack e).1 (settle stack e).2)) := by
  simp only [step?, inPhase, operandStep?, atom_iff.mp h, Option.map_some]

theorem step?_leftParen {t : Token} (h : t.kind = .mark .leftParen) (c : Config) (head : Head)
    (stack : List Frame) : (c.inPhase (.operand head stack)).step? t
      = some (c.inPhase (.operand head (.group :: stack))) := by
  simp only [step?, inPhase, operandStep?, Tree.atom?, h, if_true, Option.map_some]

theorem step?_sign {t : Token} (h : Sign t.kind) (c : Config) (head : Head)
    (stack : List Frame) : (c.inPhase (.operand head stack)).step? t
      = some (c.inPhase (.operand head (.sign t :: stack))) := by
  have hunary := sign_iff.mp h
  have hatom : Tree.atom? t = none := by
    unfold Tree.atom?
    generalize t.kind = k at h
    cases h <;> rfl
  have hparen : t.kind ≠ .mark .leftParen := by
    generalize t.kind = k at h
    cases h <;> simp
  simp only [step?, inPhase, operandStep?, hatom, hparen, if_false, hunary, if_true,
    Option.map_some]

theorem step?_operator {t : Token} {tier : Tier} (h : Operator tier t.kind) (c : Config)
    (head : Head) (stack : List Frame) (e : Tree) : (c.inPhase (.operator head stack e)).step? t
      = some (c.inPhase (.operand head
          (.left tier (reduceTo tier stack e).2 t :: (reduceTo tier stack e).1))) := by
  simp only [step?, inPhase, operatorStep?]
  generalize t.kind = k at h
  cases h <;> rfl

theorem step?_equal {t name : Token} (h : t.kind = .mark .equal) (c : Config) (head : Head)
    {stack : List Frame} (hs : startsExpression stack = true) :
    (c.inPhase (.operator head stack (.reference name))).step? t
      = some (c.inPhase (.operand head (.target name :: stack))) := by
  simp only [step?, inPhase, operatorStep?, h, assignStep?, hs, if_true, Option.map_some]

theorem step?_rightParen {t : Token} (h : t.kind = .mark .rightParen) (c : Config) (head : Head)
    {stack stack' : List Frame} {e e' : Tree} (hclose : close stack' e' = (.group :: stack, e)) :
    (c.inPhase (.operator head stack' e')).step? t
      = some (c.inPhase (.operator head (settle stack (.grouping e)).1
          (settle stack (.grouping e)).2)) := by
  simp only [step?, inPhase, operatorStep?, h, groupStep?, hclose, Option.map_some]

theorem step?_semicolon {t : Token} (h : t.kind = .mark .semicolon) (c : Config) (head : Head)
    {stack : List Frame} {e e' : Tree} (hclose : close stack e' = ([], e)) :
    (c.inPhase (.operator head stack e')).step? t = some (c.add (complete head e)) := by
  simp only [step?, inPhase, operatorStep?, h, statement?, hclose, Option.map_some]
  rfl

/-! ## Derived expressions -/

/-- What the tokens of a derivation do to the machine. -/
def Drives (rule : Rule) (us : List Token) (e : Tree) : Prop :=
  match rule with
  | .assignment => ∀ (c : Config) head stack, startsExpression stack = true → ∃ stack' e',
      (c.inPhase (.operand head stack)).steps? us = some (c.inPhase (.operator head stack' e')) ∧
        close stack' e' = close stack e
  | .chain tier => ∀ (c : Config) head stack, Awaits tier.rank stack → ∃ stack' e',
      (c.inPhase (.operand head stack)).steps? us = some (c.inPhase (.operator head stack' e')) ∧
        reduceTo tier stack' e' = (stack, e)
  | .unary | .primary => ∀ (c : Config) head stack, (c.inPhase (.operand head stack)).steps? us
      = some (c.inPhase (.operator head (settle stack e).1 (settle stack e).2))

/-- An operand of a tier, on a stack that does not take it: it reduces to itself. -/
theorem Drives.operandOf {tier : Tier} {us : List Token} {e : Tree}
    (h : Drives (.operandOf tier) us e) (c : Config) (head : Head) {stack : List Frame}
    (hs : Awaits (tier.rank + 1) stack) : ∃ stack' e',
      (c.inPhase (.operand head stack)).steps? us = some (c.inPhase (.operator head stack' e')) ∧
        ∀ {looser : Tier}, looser.rank ≤ tier.rank →
          reduceTo looser stack' e' = reduceTo looser stack e := by
  have chain (tighter : Tier) (ht : tighter.rank = tier.rank + 1)
      (h : Drives (.chain tighter) us e) : ∃ stack' e',
        (c.inPhase (.operand head stack)).steps? us
          = some (c.inPhase (.operator head stack' e')) ∧
          ∀ {looser : Tier}, looser.rank ≤ tier.rank →
            reduceTo looser stack' e' = reduceTo looser stack e := by
    obtain ⟨stack', e', hrun, hred⟩ := h c head stack (ht ▸ hs)
    refine ⟨stack', e', hrun, fun {looser} hl => ?_⟩
    rw [← @reduceTo_reduceTo _ tighter (by omega) stack' e', hred]
  cases tier with
  | equality => exact chain .comparison rfl h
  | comparison => exact chain .term rfl h
  | term => exact chain .factor rfl h
  | factor =>
      refine ⟨stack, e, ?_, fun _ => rfl⟩
      have := h c head stack
      rwa [settle_of_awaits e hs] at this

theorem Drives.operand {tier : Tier} {us : List Token} {e : Tree}
    (h : Drives (.operandOf tier) us e) : Drives (.chain tier) us e := by
  intro c head stack hs
  obtain ⟨stack', e', hrun, hred⟩ := h.operandOf c head (hs.mono (Nat.le_succ _))
  exact ⟨stack', e', hrun, by rw [hred (Nat.le_refl _), reduceTo_of_awaits e hs]⟩

/-- A chain with an operator behind it is a left operand. -/
theorem Drives.left {tier : Tier} {op : Token} {us : List Token} {l : Tree}
    (hl : Drives (.chain tier) us l) (hop : Operator tier op.kind) (c : Config) (head : Head)
    {stack : List Frame} (hs : Awaits tier.rank stack) :
    (c.inPhase (.operand head stack)).steps? (us ++ [op])
      = some (c.inPhase (.operand head (.left tier l op :: stack))) := by
  obtain ⟨stack', e', hrun, hred⟩ := hl c head stack hs
  rw [steps?_trans hrun, steps?_singleton, step?_operator hop, hred]

theorem Drives.step {tier : Tier} {op : Token} {us vs : List Token} {l r : Tree}
    (hl : Drives (.chain tier) us l) (hop : Operator tier op.kind)
    (hr : Drives (.operandOf tier) vs r) :
    Drives (.chain tier) (us ++ op :: vs) (.binary l op r) := by
  intro c head stack hs
  obtain ⟨stack₂, e₂, hrun₂, hred₂⟩ :=
    @Drives.operandOf _ _ _ hr c head (.left tier l op :: stack) (Nat.lt_succ_self _)
  refine ⟨stack₂, e₂, ?_, ?_⟩
  · rw [List.append_cons, steps?_trans (hl.left hop c head hs)]
    exact hrun₂
  · rw [hred₂ (Nat.le_refl _), reduceTo_left (Nat.le_refl _), reduceTo_of_awaits _ hs]

theorem Drives.equality {us : List Token} {e : Tree} (h : Drives (.chain .equality) us e) :
    Drives .assignment us e := by
  intro c head stack hs
  obtain ⟨stack', e', hrun, hred⟩ := h c head stack (awaits_of_startsExpression hs)
  exact ⟨stack', e', hrun, by rw [← close_reduceTo .equality stack' e', hred]⟩

/-- A name with an `=` behind it is a target. -/
theorem steps?_target {name equal : Token} (hname : name.kind = .identifier)
    (hequal : equal.kind = .mark .equal) (c : Config) (head : Head) {stack : List Frame}
    (hs : startsExpression stack = true) :
    (c.inPhase (.operand head stack)).steps? [name, equal]
      = some (c.inPhase (.operand head (.target name :: stack))) := by
  rw [steps?_cons, step?_atom (.name hname),
    settle_of_awaits _ (@awaits_of_startsExpression 0 _ hs), Option.bind_some, steps?_singleton,
    step?_equal hequal c head hs]

theorem Drives.assign {name equal : Token} {us : List Token} {e : Tree}
    (hname : name.kind = .identifier) (hequal : equal.kind = .mark .equal)
    (h : Drives .assignment us e) :
    Drives .assignment (name :: equal :: us) (.assign name e) := by
  intro c head stack hs
  obtain ⟨stack', e', hrun, hclose⟩ := h c head (.target name :: stack) rfl
  exact ⟨stack', e', (steps?_trans (steps?_target hname hequal c head hs) us).trans hrun, hclose⟩

theorem Drives.sign {op : Token} {us : List Token} {e : Tree} (hop : Sign op.kind)
    (h : Drives .unary us e) : Drives .unary (op :: us) (.unary op e) := by
  intro c head stack
  rw [steps?_cons, step?_sign hop]
  exact h c head (.sign op :: stack)

theorem Drives.group {l r : Token} {us : List Token} {e : Tree} (hl : l.kind = .mark .leftParen)
    (hr : r.kind = .mark .rightParen) (h : Drives .assignment us e) :
    Drives .primary (l :: (us ++ [r])) (.grouping e) := by
  intro c head stack
  obtain ⟨stack', e', hrun, hclose⟩ := h c head (.group :: stack) rfl
  rw [steps?_cons, step?_leftParen hl, Option.bind_some, steps?_trans hrun, steps?_singleton,
    step?_rightParen hr c head hclose]

theorem drives_of_derives {rule : Rule} {us : List Token} {e : Tree} (h : Derives rule us e) :
    Drives rule us e := by
  induction h with
  | assign hname hequal _ ih => exact Drives.assign hname hequal ih
  | equality _ ih => exact Drives.equality ih
  | operand _ ih => exact Drives.operand ih
  | step _ hop _ ihl ihr => exact Drives.step ihl hop ihr
  | sign hop _ ih => exact Drives.sign hop ih
  | primary _ ih => exact ih
  | atom h =>
      intro c head stack
      rw [steps?_singleton, step?_atom h]
  | group hl hr _ ih => exact Drives.group hl hr ih

/-- An expression and the semicolon behind it make the statement that was begun. -/
theorem steps?_statement {us : List Token} {e : Tree} {semicolon : Token}
    (h : Derives .assignment us e) (hs : semicolon.kind = .mark .semicolon) (c : Config)
    (head : Head) : (c.inPhase (.operand head [])).steps? (us ++ [semicolon])
      = some (c.add (complete head e)) := by
  obtain ⟨stack, e', hrun, hclose⟩ := drives_of_derives h c head [] rfl
  rw [steps?_trans hrun, steps?_singleton, step?_semicolon hs c head hclose]

/-! ## Derived programs -/

/-- Where a declaration may start, a token that starts an expression starts a statement. -/
theorem step?_between {t : Token} (h : StartsOperand t) (c : Config) :
    (c.inPhase .between).step? t = (c.inPhase (.operand .discard [])).step? t := by
  obtain ⟨hvar, hprint, hleft, hright⟩ := h.kind_ne
  simp only [step?, inPhase, startStep?]
  rfl

mutual

theorem steps?_of_declaration : ∀ {us : List Token} {t : Tree}, Declaration us t →
    ∀ (outer : List (List Tree)) (done : List Tree),
      (⟨outer, done, .between⟩ : Config).steps? us = some ⟨outer, t :: done, .between⟩
  | _, _, @Declaration.declare var name semicolon hvar hname hs, outer, done => by
      simp only [steps?_cons, steps?_nil, step?, startStep?, inPhase, hvar, Option.bind_some, hname,
        if_true, hs]
      rfl
  | _, _, @Declaration.define _ name _ _ _ _ hvar hname hequal h hs, outer, done => by
      have := steps?_statement h hs ⟨outer, done, .between⟩ (.define name)
      simp only [steps?_cons, step?, startStep?, inPhase, hvar, Option.bind_some, hname, if_true,
        hequal]
      exact this
  | _, _, @Declaration.print print semicolon us e hprint h hs, outer, done => by
      have := steps?_statement h hs ⟨outer, done, .between⟩ .print
      simp only [steps?_cons, step?, startStep?, inPhase, hprint, Option.bind_some]
      exact this
  | _, _, @Declaration.block l r us body hl h hr, outer, done => by
      have := steps?_of_program h (done :: outer) []
      simp only [steps?_cons, step?, startStep?, hl, Option.bind_some]
      rw [steps?_trans this, steps?_singleton, List.append_nil]
      simp only [step?, startStep?, hr, List.reverse_reverse]
  | _, _, @Declaration.discard semicolon us e h hs, outer, done => by
      have hrun := steps?_statement h hs ⟨outer, done, .between⟩ .discard
      obtain ⟨t, us, rfl, ht⟩ := h.start
      rw [List.cons_append, steps?_cons] at hrun ⊢
      rw [← step?_between ht] at hrun
      exact hrun

theorem steps?_of_program : ∀ {us : List Token} {trees : List Tree}, Program us trees →
    ∀ (outer : List (List Tree)) (done : List Tree),
      (⟨outer, done, .between⟩ : Config).steps? us
        = some ⟨outer, trees.reverse ++ done, .between⟩
  | _, _, .nil, outer, done => rfl
  | _, _, @Program.cons ts us t trees hd hp, outer, done => by
      rw [steps?_trans (steps?_of_declaration hd outer done),
        steps?_of_program hp outer (t :: done), List.reverse_cons, List.append_assoc]
      rfl

end

/-- A derived program is taken from the start to where the machine may end. -/
theorem finish?_of_program {us : List Token} {trees : List Tree} (h : Program us trees) :
    (start.steps? us).bind finish? = some trees := by
  rw [start, steps?_of_program h [] []]
  simp [finish?]

end RoxLang.Automaton.Config
