/-
# `RoxLang.Proofs.Automaton.Soundness` — what the machine has taken is derived

The invariant: the tokens taken so far are what the state of the machine spells.  A state spells,
one behind the other, the statements before each open block with the brace that opens it, the
finished statements of the innermost block, and the beginning of the declaration under way.  Inside
an expression that beginning is spelled by the frames on the stack, each of which carries the
derivation of what it has built, and by the operand if there is one.

Every step keeps the invariant (`Spelled.step`).  Where the machine may end, nothing is open and
nothing under way, so the tokens derive the program (`program_of_finish?`).
-/
import RoxLang.Proofs.Automaton.Stack
import RoxLang.Proofs.Grammar.Derivation

namespace RoxLang.Automaton.Config

open Grammar
open Descent (Rule)

/-! ## What a stack spells -/

/-- The frames of an expression, and the tokens that made them. -/
inductive Pending : List Frame → List Token → Prop
  | nil : Pending [] []
  | group {stack : List Frame} {ts : List Token} {l : Token} : Pending stack ts →
      l.kind = .mark .leftParen → Pending (.group :: stack) (ts ++ [l])
  | sign {stack : List Frame} {ts : List Token} {op : Token} : Pending stack ts →
      Sign op.kind → Pending (.sign op :: stack) (ts ++ [op])
  | left {stack : List Frame} {ts us : List Token} {tier : Tier} {l : Tree} {op : Token} :
      Pending stack ts → Awaits tier.rank stack → Derives (.chain tier) us l →
      Operator tier op.kind → Pending (.left tier l op :: stack) (ts ++ (us ++ [op]))
  | target {stack : List Frame} {ts : List Token} {name equal : Token} : Pending stack ts →
      startsExpression stack = true → name.kind = .identifier → equal.kind = .mark .equal →
      Pending (.target name :: stack) (ts ++ [name, equal])

/-- A stack and the operand behind it spell the tokens, the operand by the given rule. -/
def Holds (rule : Rule) (stack : List Frame) (e : Tree) (ts : List Token) : Prop :=
  ∃ before us, ts = before ++ us ∧ Pending stack before ∧ Derives rule us e

theorem Holds.loosen {rule looser : Rule} {stack : List Frame} {e : Tree} {ts : List Token}
    (h : Holds rule stack e ts) (hle : looser.rank ≤ rule.rank) : Holds looser stack e ts := by
  obtain ⟨before, us, hts, hp, hd⟩ := h
  exact ⟨before, us, hts, hp, hd.loosen hle⟩

/-! ## Finishing parts of an expression spells the same tokens -/

theorem Holds.settle {ts : List Token} : ∀ {stack : List Frame} {e : Tree},
    Holds .unary stack e ts → Holds .unary (settle stack e).1 (settle stack e).2 ts ∧
      Awaits 4 (Config.settle stack e).1
  | .sign op :: stack, e, h => by
      obtain ⟨before, us, rfl, hp, hd⟩ := h
      cases hp with
      | @sign _ before _ hstack hop =>
          exact @Holds.settle _ stack (.unary op e)
            ⟨before, op :: us, by simp, hstack, .sign hop hd⟩
  | [], _, h | .group :: _, _, h | .target _ :: _, _, h => ⟨h, trivial⟩
  | .left tier _ _ :: _, _, h => ⟨h, tier.rank_lt⟩

theorem Holds.reduceTo {tier : Tier} {ts : List Token} {stack : List Frame} :
    ∀ {rule : Rule} {e : Tree}, Holds rule stack e ts → Awaits (rule.rank - 1) stack →
      (Rule.chain tier).rank ≤ rule.rank →
      Holds (.chain tier) (reduceTo tier stack e).1 (reduceTo tier stack e).2 ts ∧
        Awaits tier.rank (Config.reduceTo tier stack e).1 := by
  induction stack with
  | nil =>
      intro rule e h _ hle
      exact ⟨h.loosen hle, trivial⟩
  | cons frame stack ih =>
      intro rule e h ha hle
      cases frame with
      | group => exact ⟨h.loosen hle, trivial⟩
      | target name => exact ⟨h.loosen hle, trivial⟩
      | sign op => exact ha.elim
      | left t l op =>
          by_cases ht : tier.rank ≤ t.rank
          · obtain ⟨before, us, rfl, hp, hd⟩ := h
            cases hp with
            | @left _ before vs _ _ _ hstack hawaits hl hop =>
                have hr : Derives (.operandOf t) us e := by
                  refine hd.loosen ?_
                  have : t.rank < rule.rank - 1 := ha
                  rw [Rule.rank_operandOf]
                  show t.rank + 1 + 1 ≤ rule.rank
                  omega
                rw [reduceTo_left ht]
                exact @ih (.chain t) _ ⟨before, vs ++ op :: us, by simp, hstack,
                  .step hl hop hr⟩ hawaits (Nat.succ_le_succ ht)
          · simp only [Config.reduceTo, ht, if_false]
            exact ⟨h.loosen hle, Nat.lt_of_not_le ht⟩

theorem startsExpression_of_awaits : ∀ {stack : List Frame}, Awaits 0 stack →
    startsExpression stack = true
  | [], _ | .group :: _, _ | .target _ :: _, _ => rfl
  | .left _ _ _ :: _, h => absurd h (Nat.not_lt_zero _)

theorem Holds.closeTargets {ts : List Token} {stack : List Frame} : ∀ {e : Tree},
    Holds .assignment stack e ts → startsExpression stack = true →
      Holds .assignment (close stack e).1 (close stack e).2 ts := by
  induction stack with
  | nil => exact fun h _ => h
  | cons frame stack ih =>
      intro e h hs
      cases frame with
      | group => exact h
      | sign op => cases hs
      | left tier l op => cases hs
      | target name =>
          obtain ⟨before, us, rfl, hp, hd⟩ := h
          cases hp with
          | @target _ before _ equal hstack hs hname hequal =>
              exact ih (e := .assign name e)
                ⟨before, name :: equal :: us, by simp, hstack, .assign hname hequal hd⟩ hs

/-- A complete expression: its tree is derived by the loosest rule. -/
theorem Holds.close {stack : List Frame} {e : Tree} {ts : List Token}
    (h : Holds .unary stack e ts) (ha : Awaits 4 stack) :
    Holds .assignment (close stack e).1 (close stack e).2 ts := by
  obtain ⟨hchain, hawaits⟩ := @Holds.reduceTo .equality _ _ _ _ h ha (by decide)
  rw [← close_reduceTo .equality]
  exact (hchain.loosen (Nat.zero_le _)).closeTargets (startsExpression_of_awaits hawaits)

/-! ## What a state spells -/

/-- The tokens before the expression of a statement. -/
def HeadSpelled : Head → List Token → Prop
  | .print, ts => ∃ print, ts = [print] ∧ print.kind = .word .print
  | .define name, ts => ∃ var equal, ts = [var, name, equal] ∧ var.kind = .word .var ∧
      name.kind = .identifier ∧ equal.kind = .mark .equal
  | .discard, ts => ts = []

/-- The tokens of a declaration under way. -/
def PhaseSpelled : Phase → List Token → Prop
  | .between, ts => ts = []
  | .naming, ts => ∃ var, ts = [var] ∧ var.kind = .word .var
  | .named name, ts => ∃ var, ts = [var, name] ∧ var.kind = .word .var ∧ name.kind = .identifier
  | .operand head stack, ts => ∃ hs ss, ts = hs ++ ss ∧ HeadSpelled head hs ∧ Pending stack ss
  | .operator head stack e, ts => ∃ hs ss, ts = hs ++ ss ∧ HeadSpelled head hs ∧
      Holds .unary stack e ss ∧ Awaits 4 stack

/-- The tokens before the innermost block: the statements before each open block, and the brace. -/
inductive OuterSpelled : List (List Tree) → List Token → Prop
  | nil : OuterSpelled [] []
  | cons {outer : List (List Tree)} {before : List Tree} {ts us : List Token} {l : Token} :
      OuterSpelled outer ts → Program us before.reverse → l.kind = .mark .leftBrace →
      OuterSpelled (before :: outer) (ts ++ (us ++ [l]))

/-- The invariant: the tokens taken so far are those that the state spells. -/
def Spelled (c : Config) (ts : List Token) : Prop :=
  ∃ os ds ps, ts = os ++ (ds ++ ps) ∧ OuterSpelled c.outer os ∧ Program ds c.done.reverse ∧
    PhaseSpelled c.phase ps

theorem spelled_start : Spelled start [] := ⟨[], [], [], rfl, .nil, .nil, rfl⟩

/-- A statement that its head, its expression and a semicolon spell. -/
theorem declaration_complete {head : Head} {hs us : List Token} {e : Tree} {semicolon : Token}
    (hh : HeadSpelled head hs) (h : Derives .assignment us e)
    (hs' : semicolon.kind = .mark .semicolon) :
    Declaration (hs ++ (us ++ [semicolon])) (complete head e) := by
  cases head with
  | print =>
      obtain ⟨print, rfl, hprint⟩ := hh
      exact .print hprint h hs'
  | define name =>
      obtain ⟨var, equal, rfl, hvar, hname, hequal⟩ := hh
      exact .define hvar hname hequal h hs'
  | discard =>
      cases hh
      exact .discard h hs'

/-- A finished statement is one more statement of the innermost block. -/
theorem Spelled.add {c : Config} {os ds us : List Token} {t : Tree} (ho : OuterSpelled c.outer os)
    (hd : Program ds c.done.reverse) (h : Declaration us t) :
    Spelled (c.add t) (os ++ (ds ++ us)) := by
  refine ⟨os, ds ++ us, [], by simp, ho, ?_, rfl⟩
  show Program (ds ++ us) (t :: c.done).reverse
  rw [List.reverse_cons]
  exact h.program.append hd

/-- Only the phase has changed, and it spells one token more. -/
theorem Spelled.inPhase {c : Config} {os ds ps : List Token} {phase : Phase} {t : Token}
    (ho : OuterSpelled c.outer os) (hd : Program ds c.done.reverse)
    (h : PhaseSpelled phase (ps ++ [t])) :
    Spelled (c.inPhase phase) (os ++ (ds ++ ps) ++ [t]) :=
  ⟨os, ds, ps ++ [t], by simp, ho, hd, h⟩

/-! ## Steps keep the invariant -/

theorem operandStep?_spelled {head : Head} {stack : List Frame} {phase : Phase} {t : Token}
    {hs ss : List Token} (hh : HeadSpelled head hs) (hp : Pending stack ss)
    (h : operandStep? head stack t = some phase) : PhaseSpelled phase (hs ++ ss ++ [t]) := by
  unfold operandStep? at h
  split at h
  · next atom ha =>
      cases h
      have hholds : Holds .unary stack atom (ss ++ [t]) :=
        ⟨ss, [t], rfl, hp, .primary (.atom (atom_iff.mpr ha))⟩
      exact ⟨hs, ss ++ [t], by simp, hh, hholds.settle⟩
  · by_cases hl : t.kind = .mark .leftParen
    · simp only [hl, if_true] at h
      cases h
      exact ⟨hs, ss ++ [t], by simp, hh, .group hp hl⟩
    · by_cases hu : t.kind.isUnary = true
      · simp only [hl, if_false, hu, if_true] at h
        cases h
        exact ⟨hs, ss ++ [t], by simp, hh, .sign hp (sign_iff.mpr hu)⟩
      · simp only [hl, if_false, hu] at h
        cases h

theorem startStep?_spelled {c c' : Config} {t : Token} {os ds : List Token}
    (ho : OuterSpelled c.outer os) (hd : Program ds c.done.reverse)
    (h : c.startStep? t = some c') : Spelled c' (os ++ (ds ++ []) ++ [t]) := by
  unfold startStep? at h
  split at h
  · next hk =>
      cases h
      exact Spelled.inPhase ho hd ⟨t, rfl, hk⟩
  · next hk =>
      cases h
      exact Spelled.inPhase ho hd ⟨[t], [], rfl, ⟨t, rfl, hk⟩, .nil⟩
  · next hk =>
      cases h
      exact ⟨os ++ (ds ++ [t]), [], [], by simp, .cons ho hd hk, .nil, rfl⟩
  · next hk =>
      split at h
      · next before outer houter =>
          cases h
          rw [houter] at ho
          cases ho with
          | @cons _ _ ts us l ho hbefore hl =>
              have := Spelled.add (c := ⟨outer, before, .between⟩) ho hbefore (.block hl hd hk)
              show Spelled (Config.add ⟨outer, before, .between⟩ _) _
              simpa only [List.append_nil, List.append_assoc, List.cons_append, List.nil_append]
                using this
      · cases h
  · obtain ⟨phase, hphase, rfl⟩ := Option.map_eq_some_iff.mp h
    exact Spelled.inPhase ho hd (@operandStep?_spelled .discard [] _ _ [] [] rfl .nil hphase)

section

variable {head : Head} {stack : List Frame} {e : Tree} {t : Token} {hs ss : List Token}

theorem assignStep?_spelled {phase : Phase} (hh : HeadSpelled head hs)
    (hholds : Holds .unary stack e ss) (ht : t.kind = .mark .equal)
    (h : assignStep? head stack e = some phase) : PhaseSpelled phase (hs ++ ss ++ [t]) := by
  cases e with
  | reference name =>
      simp only [assignStep?] at h
      split at h
      · next hstarts =>
          cases h
          obtain ⟨before, us, rfl, hp, hname⟩ := hholds
          obtain ⟨rfl, hkind⟩ := hname.eq_of_reference
          exact ⟨hs, before ++ [name, t], by simp, hh, .target hp hstarts hkind ht⟩
      · cases h
  | _ => cases h

theorem groupStep?_spelled {phase : Phase} (hh : HeadSpelled head hs)
    (hholds : Holds .unary stack e ss) (ha : Awaits 4 stack) (ht : t.kind = .mark .rightParen)
    (h : groupStep? head stack e = some phase) : PhaseSpelled phase (hs ++ ss ++ [t]) := by
  unfold groupStep? at h
  split at h
  · next stack' e' hclose =>
      cases h
      have hclosed := hholds.close ha
      rw [hclose] at hclosed
      obtain ⟨before, us, rfl, hp, hd⟩ := hclosed
      cases hp with
      | @group _ before l hp hl =>
          have hgroup : Holds .unary stack' (.grouping e') (before ++ [l] ++ us ++ [t]) :=
            ⟨before, l :: (us ++ [t]), by simp, hp, .primary (.group hl ht hd)⟩
          exact ⟨hs, before ++ [l] ++ us ++ [t], by simp, hh, hgroup.settle⟩
  · cases h

theorem statement?_spelled {statement : Tree} (hh : HeadSpelled head hs)
    (hholds : Holds .unary stack e ss) (ha : Awaits 4 stack) (ht : t.kind = .mark .semicolon)
    (h : statement? head stack e = some statement) :
    Declaration (hs ++ ss ++ [t]) statement := by
  unfold statement? at h
  split at h
  · next e' hclose =>
      cases h
      have hclosed := hholds.close ha
      rw [hclose] at hclosed
      obtain ⟨before, us, rfl, hp, hd⟩ := hclosed
      cases hp
      have := declaration_complete hh hd ht
      simpa using this
  · cases h

theorem infixStep_spelled {tier : Tier} (hh : HeadSpelled head hs)
    (hholds : Holds .unary stack e ss) (ha : Awaits 4 stack) (ht : t.kind.tier? = some tier) :
    PhaseSpelled (infixStep head stack e tier t) (hs ++ ss ++ [t]) := by
  obtain ⟨⟨before, us, rfl, hp, hl⟩, hawaits⟩ :=
    @Holds.reduceTo tier _ _ _ _ hholds ha (by cases tier <;> decide)
  exact ⟨hs, before ++ (us ++ [t]), by simp, hh, .left hp hawaits hl (operator_iff.mpr ht)⟩

theorem operatorStep?_spelled {c c' : Config} {os ds : List Token} (ho : OuterSpelled c.outer os)
    (hd : Program ds c.done.reverse) (hh : HeadSpelled head hs) (hholds : Holds .unary stack e ss)
    (ha : Awaits 4 stack) (h : c.operatorStep? head stack e t = some c') :
    Spelled c' (os ++ (ds ++ (hs ++ ss)) ++ [t]) := by
  unfold operatorStep? at h
  split at h
  · next hk =>
      obtain ⟨phase, hphase, rfl⟩ := Option.map_eq_some_iff.mp h
      exact Spelled.inPhase ho hd (assignStep?_spelled hh hholds hk hphase)
  · next hk =>
      obtain ⟨phase, hphase, rfl⟩ := Option.map_eq_some_iff.mp h
      exact Spelled.inPhase ho hd (groupStep?_spelled hh hholds ha hk hphase)
  · next hk =>
      obtain ⟨statement, hstatement, rfl⟩ := Option.map_eq_some_iff.mp h
      have := Spelled.add ho hd (statement?_spelled hh hholds ha hk hstatement)
      simpa using this
  · obtain ⟨tier, htier, rfl⟩ := Option.map_eq_some_iff.mp h
    exact Spelled.inPhase ho hd (infixStep_spelled hh hholds ha htier)

end

theorem Spelled.step {c c' : Config} {ts : List Token} {t : Token} (h : Spelled c ts)
    (hstep : c.step? t = some c') : Spelled c' (ts ++ [t]) := by
  obtain ⟨os, ds, ps, rfl, ho, hd, hphase⟩ := h
  unfold step? at hstep
  cases hc : c.phase with
  | between =>
      rw [hc] at hphase hstep
      cases hphase
      exact startStep?_spelled ho hd hstep
  | naming =>
      rw [hc] at hphase hstep
      obtain ⟨var, rfl, hvar⟩ := hphase
      simp only at hstep
      split at hstep
      · next hname =>
          cases hstep
          exact Spelled.inPhase ho hd ⟨var, rfl, hvar, hname⟩
      · cases hstep
  | named name =>
      rw [hc] at hphase hstep
      obtain ⟨var, rfl, hvar, hname⟩ := hphase
      simp only at hstep
      split at hstep
      · next hk =>
          cases hstep
          exact Spelled.inPhase ho hd
            ⟨[var, name, t], [], rfl, ⟨var, t, rfl, hvar, hname, hk⟩, .nil⟩
      · next hk =>
          cases hstep
          have := Spelled.add ho hd (.declare hvar hname hk)
          simpa using this
      · cases hstep
  | operand head stack =>
      rw [hc] at hphase hstep
      obtain ⟨hs, ss, rfl, hh, hp⟩ := hphase
      obtain ⟨phase, hphase, rfl⟩ := Option.map_eq_some_iff.mp hstep
      exact Spelled.inPhase ho hd (operandStep?_spelled hh hp hphase)
  | operator head stack e =>
      rw [hc] at hphase hstep
      obtain ⟨hs, ss, rfl, hh, hholds, ha⟩ := hphase
      exact operatorStep?_spelled ho hd hh hholds ha hstep

/-! ## Runs keep it -/

theorem Spelled.steps {c c' : Config} : ∀ {us ts : List Token}, Spelled c ts →
    c.steps? us = some c' → Spelled c' (ts ++ us) := by
  intro us
  induction us generalizing c with
  | nil =>
      intro ts h hrun
      cases hrun
      rwa [List.append_nil]
  | cons t us ih =>
      intro ts h hrun
      rw [steps?_cons] at hrun
      obtain ⟨next, hstep, hrun⟩ := Option.bind_eq_some_iff.mp hrun
      have := ih (h.step hstep) hrun
      rwa [List.append_assoc] at this

/-- Tokens that the machine takes to where it may end derive the program that it gives. -/
theorem program_of_finish? {us : List Token} {trees : List Tree}
    (h : (start.steps? us).bind finish? = some trees) : Program us trees := by
  obtain ⟨c, hrun, hfinish⟩ := Option.bind_eq_some_iff.mp h
  obtain ⟨os, ds, ps, hus, ho, hd, hphase⟩ := spelled_start.steps hrun
  unfold finish? at hfinish
  split at hfinish
  · next hc houter =>
      cases hfinish
      rw [hc] at hphase
      rw [houter] at ho
      cases hphase
      cases ho
      simp only [List.nil_append, List.append_nil] at hus
      rwa [hus]
  · cases hfinish

end RoxLang.Automaton.Config
