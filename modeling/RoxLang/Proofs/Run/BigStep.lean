/-
# `RoxLang.Proofs.Run.BigStep` — the structural semantics of trees

`Evaluates t c out c' r`: on the scopes `c` the tree `t` prints the lines `out`, leaves the scopes
`c'` and ends with `r`, a value or a fault.  There is a rule for each way in which a node can end,
and each speaks of the node's own parts: a binary operator has a left operand and a right one,
however long the chain is that it stands in.  Nothing counts levels, notes events or loops.

An outcome is a value or the first fault, so the rules come in families: one for the case that all
parts have values, and one for each part that may fail first.
-/
import RoxLang.Proofs.Scope.Owner
import RoxLang.Run.Operator
import RoxLang.Tree.Basic

namespace RoxLang

open Chain (Unbound)

mutual

/-- Evaluation of a tree. -/
inductive Evaluates : Tree → Chain → List String → Chain → Except RunFault Value → Prop
  | literal {v : Value} {c : Chain} : Evaluates (.literal v) c [] c (.ok v)
  | unary {op : Token} {e : Tree} {c c' : Chain} {out : List String} {v : Value} :
      Evaluates e c out c' (.ok v) → Evaluates (.unary op e) c out c' (applyUnary op v)
  | unaryFault {op : Token} {e : Tree} {c c' : Chain} {out : List String} {f : RunFault} :
      Evaluates e c out c' (.error f) → Evaluates (.unary op e) c out c' (.error f)
  | binary {op : Token} {l r : Tree} {c c₁ c₂ : Chain} {out₁ out₂ : List String} {v w : Value} :
      Evaluates l c out₁ c₁ (.ok v) → Evaluates r c₁ out₂ c₂ (.ok w) →
      Evaluates (.binary l op r) c (out₁ ++ out₂) c₂ (applyBinary op v w)
  | leftFault {op : Token} {l r : Tree} {c c' : Chain} {out : List String} {f : RunFault} :
      Evaluates l c out c' (.error f) → Evaluates (.binary l op r) c out c' (.error f)
  | rightFault {op : Token} {l r : Tree} {c c₁ c₂ : Chain} {out₁ out₂ : List String} {v : Value}
      {f : RunFault} :
      Evaluates l c out₁ c₁ (.ok v) → Evaluates r c₁ out₂ c₂ (.error f) →
      Evaluates (.binary l op r) c (out₁ ++ out₂) c₂ (.error f)
  | grouping {e : Tree} {c c' : Chain} {out : List String} {r : Except RunFault Value} :
      Evaluates e c out c' r → Evaluates (.grouping e) c out c' r
  | reference {name : Token} {inner outer : Chain} {owner : Scope} {v : Value} :
      Unbound name.lexeme inner → owner.get? name.lexeme = some v →
      Evaluates (.reference name) (inner ++ owner :: outer) [] (inner ++ owner :: outer) (.ok v)
  | unknown {name : Token} {c : Chain} : Unbound name.lexeme c →
      Evaluates (.reference name) c [] c (.error (.undefinedVariable name.lexeme))
  | assign {name : Token} {e : Tree} {c inner outer : Chain} {owner : Scope}
      {out : List String} {before v : Value} :
      Evaluates e c out (inner ++ owner :: outer) (.ok v) → Unbound name.lexeme inner →
      owner.get? name.lexeme = some before →
      Evaluates (.assign name e) c out (inner ++ owner.define name.lexeme v :: outer) (.ok v)
  | unowned {name : Token} {e : Tree} {c c' : Chain} {out : List String} {v : Value} :
      Evaluates e c out c' (.ok v) → Unbound name.lexeme c' →
      Evaluates (.assign name e) c out c' (.error (.undefinedVariable name.lexeme))
  | assignFault {name : Token} {e : Tree} {c c' : Chain} {out : List String} {f : RunFault} :
      Evaluates e c out c' (.error f) → Evaluates (.assign name e) c out c' (.error f)
  | discard {e : Tree} {c c' : Chain} {out : List String} {v : Value} :
      Evaluates e c out c' (.ok v) → Evaluates (.discard e) c out c' (.ok .nil)
  | discardFault {e : Tree} {c c' : Chain} {out : List String} {f : RunFault} :
      Evaluates e c out c' (.error f) → Evaluates (.discard e) c out c' (.error f)
  | print {e : Tree} {c c' : Chain} {out : List String} {v : Value} :
      Evaluates e c out c' (.ok v) →
      Evaluates (.print e) c (out ++ [v.text ++ "\n"]) c' (.ok .nil)
  | printFault {e : Tree} {c c' : Chain} {out : List String} {f : RunFault} :
      Evaluates e c out c' (.error f) → Evaluates (.print e) c out c' (.error f)
  | declare {name : Token} {current : Scope} {outer : Chain} :
      Evaluates (.declare name) (current :: outer) []
        (current.define name.lexeme .nil :: outer) (.ok .nil)
  | define {name : Token} {e : Tree} {c outer : Chain} {current : Scope} {out : List String}
      {v : Value} :
      Evaluates e c out (current :: outer) (.ok v) →
      Evaluates (.define name e) c out (current.define name.lexeme v :: outer) (.ok .nil)
  | defineFault {name : Token} {e : Tree} {c c' : Chain} {out : List String} {f : RunFault} :
      Evaluates e c out c' (.error f) → Evaluates (.define name e) c out c' (.error f)
  | block {ts : List Tree} {c c' : Chain} {fresh : Scope} {out : List String} :
      Executes ts (Scope.empty :: c) out (fresh :: c') (.ok ()) →
      Evaluates (.block ts) c out c' (.ok .nil)
  | blockFault {ts : List Tree} {c c' : Chain} {fresh : Scope} {out : List String} {f : RunFault} :
      Executes ts (Scope.empty :: c) out (fresh :: c') (.error f) →
      Evaluates (.block ts) c out c' (.error f)
  | foreign {className : String} {c : Chain} :
      Evaluates (.foreign className) c [] c (.error (.foreignNode className))

/-- Execution of statements one after the other, up to the first fault. -/
inductive Executes : List Tree → Chain → List String → Chain → Except RunFault Unit → Prop
  | nil {c : Chain} : Executes [] c [] c (.ok ())
  | cons {t : Tree} {ts : List Tree} {c c₁ c₂ : Chain} {out₁ out₂ : List String} {v : Value}
      {r : Except RunFault Unit} :
      Evaluates t c out₁ c₁ (.ok v) → Executes ts c₁ out₂ c₂ r →
      Executes (t :: ts) c (out₁ ++ out₂) c₂ r
  | stop {t : Tree} {ts : List Tree} {c c' : Chain} {out : List String} {f : RunFault} :
      Evaluates t c out c' (.error f) → Executes (t :: ts) c out c' (.error f)

end

/-! ## Every tree has an outcome

On a chain that holds at least the current scope there is always a rule, and no rule changes how
many scopes there are. -/

theorem exists_current {c : Chain} (h : 0 < c.length) : ∃ current outer, c = current :: outer := by
  cases c with
  | nil => exact absurd h (Nat.lt_irrefl 0)
  | cons current outer => exact ⟨current, outer, rfl⟩

/-- A tree has an outcome on a chain, with as many scopes afterwards as before. -/
def HasOutcome (t : Tree) (c : Chain) : Prop :=
  ∃ out c' r, Evaluates t c out c' r ∧ c'.length = c.length

theorem hasOutcome_reference (name : Token) (c : Chain) : HasOutcome (.reference name) c := by
  rcases Chain.owned_or_unbound name.lexeme c with ⟨inner, owner, outer, v, rfl, hi, ho⟩ | h
  · exact ⟨_, _, _, .reference hi ho, rfl⟩
  · exact ⟨_, _, _, .unknown h, rfl⟩

/-- A node ends if its one operand does, and neither a value nor a fault of that leaves it stuck. -/
theorem HasOutcome.node {t e : Tree} {c : Chain} (h : HasOutcome e c)
    (hvalue : ∀ {out : List String} {c' : Chain} {v : Value}, Evaluates e c out c' (.ok v) →
      ∃ out' r, Evaluates t c out' c' r)
    (hfault : ∀ {out : List String} {c' : Chain} {f : RunFault}, Evaluates e c out c' (.error f) →
      Evaluates t c out c' (.error f)) : HasOutcome t c := by
  obtain ⟨out, c', r, h, hc⟩ := h
  cases r with
  | ok v =>
      obtain ⟨out', r', ht⟩ := hvalue h
      exact ⟨out', c', r', ht, hc⟩
  | error f => exact ⟨out, c', _, hfault h, hc⟩

theorem HasOutcome.assign {e : Tree} {c : Chain} (h : HasOutcome e c) (name : Token) :
    HasOutcome (.assign name e) c := by
  obtain ⟨out, c', r, h, hc⟩ := h
  cases r with
  | error f => exact ⟨_, _, _, .assignFault h, hc⟩
  | ok v =>
      rcases Chain.owned_or_unbound name.lexeme c' with ⟨inner, owner, outer, _, rfl, hi, ho⟩ | hu
      · refine ⟨_, _, _, .assign h hi ho, ?_⟩
        rw [← hc, List.length_append, List.length_append]
        rfl
      · exact ⟨_, _, _, .unowned h hu, hc⟩

theorem HasOutcome.define {e : Tree} {c : Chain} (h : HasOutcome e c) (hpos : 0 < c.length)
    (name : Token) : HasOutcome (.define name e) c := by
  obtain ⟨out, c', r, h, hc⟩ := h
  cases r with
  | error f => exact ⟨_, _, _, .defineFault h, hc⟩
  | ok v =>
      obtain ⟨current, outer, rfl⟩ := exists_current (hc ▸ hpos)
      exact ⟨_, _, _, .define h, hc⟩

mutual

theorem exists_evaluates : ∀ (t : Tree) {c : Chain}, 0 < c.length → HasOutcome t c
  | .literal _, _, _ => ⟨_, _, _, .literal, rfl⟩
  | .unary op e, _, hpos =>
      (exists_evaluates e hpos).node (fun h => ⟨_, _, .unary h⟩) fun h => .unaryFault h
  | .binary l op r, c, hpos => by
      obtain ⟨out₁, c₁, r₁, h₁, hc₁⟩ := exists_evaluates l hpos
      cases r₁ with
      | error f => exact ⟨_, _, _, .leftFault h₁, hc₁⟩
      | ok v =>
          obtain ⟨out₂, c₂, r₂, h₂, hc₂⟩ := exists_evaluates r (hc₁ ▸ hpos)
          cases r₂ with
          | error f => exact ⟨_, _, _, .rightFault h₁ h₂, hc₂.trans hc₁⟩
          | ok w => exact ⟨_, _, _, .binary h₁ h₂, hc₂.trans hc₁⟩
  | .grouping e, _, hpos =>
      (exists_evaluates e hpos).node (fun h => ⟨_, _, .grouping h⟩) fun h => .grouping h
  | .reference name, c, _ => hasOutcome_reference name c
  | .assign name e, _, hpos => (exists_evaluates e hpos).assign name
  | .discard e, _, hpos =>
      (exists_evaluates e hpos).node (fun h => ⟨_, _, .discard h⟩) fun h => .discardFault h
  | .print e, _, hpos =>
      (exists_evaluates e hpos).node (fun h => ⟨_, _, .print h⟩) fun h => .printFault h
  | .declare name, c, hpos => by
      obtain ⟨current, outer, rfl⟩ := exists_current hpos
      exact ⟨_, _, _, .declare, rfl⟩
  | .define name e, _, hpos => (exists_evaluates e hpos).define hpos name
  | .block ts, c, hpos => by
      have hopen : 0 < (Scope.empty :: c).length := Nat.succ_pos c.length
      obtain ⟨out, opened, r, h, hopened⟩ := exists_executes ts hopen
      obtain ⟨fresh, c', rfl⟩ := exists_current (hopened ▸ hopen)
      have hc : c'.length = c.length := Nat.succ.inj hopened
      cases r with
      | ok _ => exact ⟨_, _, _, .block h, hc⟩
      | error f => exact ⟨_, _, _, .blockFault h, hc⟩
  | .foreign _, _, _ => ⟨_, _, _, .foreign, rfl⟩

theorem exists_executes : ∀ (ts : List Tree) {c : Chain}, 0 < c.length →
    ∃ out c' r, Executes ts c out c' r ∧ c'.length = c.length
  | [], _, _ => ⟨_, _, _, .nil, rfl⟩
  | t :: ts, c, hpos => by
      obtain ⟨out₁, c₁, r₁, h₁, hc₁⟩ := exists_evaluates t hpos
      cases r₁ with
      | error f => exact ⟨_, _, _, .stop h₁, hc₁⟩
      | ok v =>
          obtain ⟨out₂, c₂, r₂, h₂, hc₂⟩ := exists_executes ts (hc₁ ▸ hpos)
          exact ⟨_, _, _, .cons h₁ h₂, hc₂.trans hc₁⟩

end

end RoxLang
