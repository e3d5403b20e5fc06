/-
# `RoxLang.Proofs.Evaluations` — which expressions the third level notes

The third level notes the value of every expression that is evaluated as a node.  The operators
along a chain are not: the chain is folded from its first operand, and the value of an operator that
is the left operand of another goes straight into that one.  So in `a + b + c` the values of `a`,
`b`, `c` and of the whole are noted, and that of `a + b` is not.

`Tree.expressionsAt` lists the expressions of a tree in the order of their evaluation and says of
each whether it is such an operator.  Where a run does not stop, its narration uses exactly these
expressions in this order, and the trace has the values of those that are not folded.
-/
import RoxLang.Proofs.Grammar.Sorts
import RoxLang.Proofs.Tracing

namespace RoxLang

open Grammar (Expression Program Statement)

/-! ## The expressions of a tree -/

namespace Tree

mutual

/-- The expressions of a tree, operands before their operator and left before right, each with
whether its value is folded into the operator that it is the left operand of. -/
def expressionsAt (folded : Bool) : Tree → List (Tree × Bool)
  | .literal v => [(.literal v, folded)]
  | .unary op e => e.expressionsAt false ++ [(.unary op e, folded)]
  | .binary l op r =>
      l.expressionsAt l.isBinary ++ r.expressionsAt false ++ [(.binary l op r, folded)]
  | .grouping e => e.expressionsAt false ++ [(.grouping e, folded)]
  | .reference name => [(.reference name, folded)]
  | .assign name e => e.expressionsAt false ++ [(.assign name e, folded)]
  | .discard e | .print e | .define _ e => e.expressionsAt false
  | .block ts => expressionsOfAll ts
  | .declare _ | .foreign _ => []

/-- The expressions of several statements. -/
def expressionsOfAll : List Tree → List (Tree × Bool)
  | [] => []
  | t :: ts => t.expressionsAt false ++ expressionsOfAll ts

end

end Tree

/-! ## The expressions of a narration -/

/-- An expression with its value, and whether the value is folded. -/
structure Use where
  expression : Tree
  value : Value
  folded : Bool

namespace Moment

def use? : Moment → Option Use
  | .used e v folded => some ⟨e, v, folded⟩
  | _ => none

/-- The expressions that are used, in order. -/
def uses (ms : List Moment) : List Use := ms.filterMap use?

theorem uses_append (ms ms' : List Moment) : uses (ms ++ ms') = uses ms ++ uses ms' :=
  List.filterMap_append

theorem uses_heading (announced : Bool) (t : Tree) : uses (heading announced t) = [] := by
  cases announced <;> rfl

end Moment

/-- What is used, without the values. -/
def Use.place (u : Use) : Tree × Bool := (u.expression, u.folded)

open Moment (uses uses_append uses_heading)

/-- A node with one operand that ends with a value has used its operand, and nothing else that it
does is a use. -/
theorem Narrates.exists_use {t e : Tree} {c c' : Chain} {ms : List Moment}
    {r : Except RunFault Value} (h : Narrates t c ms c' r) {v : Value} (hr : r = .ok v)
    (ht : t.firstOperand? = some (e, false)) (hbinary : t.isBinary = false) :
    ∃ ms₀ c₁ w, NarratesUse e false c ms₀ c₁ (.ok w) ∧ uses ms = uses ms₀ := by
  cases h with
  | tooDeep | stopped => cases hr
  | literal | reference | unknown | declare | block => cases ht
  | binary | rightStopped => cases hbinary
  | unary h | grouping h | unowned h | discard h | print h =>
      cases ht
      exact ⟨_, _, _, h, rfl⟩
  | assign h | define h =>
      cases ht
      refine ⟨_, _, _, h, ?_⟩
      rw [uses_append]
      exact List.append_nil _

/-- And an operator has used both. -/
theorem Narrates.exists_uses {l r : Tree} {op : Token} {c c' : Chain} {ms : List Moment}
    {o : Except RunFault Value} (h : Narrates (.binary l op r) c ms c' o) {v : Value}
    (ho : o = .ok v) : ∃ ms₁ ms₂ c₁ w₁ w₂, NarratesUse l l.isBinary c ms₁ c₁ (.ok w₁) ∧
      NarratesUse r false c₁ ms₂ c' (.ok w₂) ∧ uses ms = uses ms₁ ++ uses ms₂ := by
  cases h with
  | tooDeep | stopped | rightStopped => cases ho
  | binary hl hr => exact ⟨_, _, _, _, _, hl, hr, uses_append _ _⟩

variable {P : Token → Prop}

/-- An expression that is used has used all of its expressions in order, and itself last. -/
theorem uses_expression {e : Tree} (he : Expression P e) : ∀ {folded : Bool} {c c' : Chain}
    {ms : List Moment} {v : Value}, NarratesUse e folded c ms c' (.ok v) →
    (uses ms).map Use.place = e.expressionsAt folded := by
  induction he with
  | atom _ h =>
      intro folded c c' ms v h'
      cases h' with
      | value h' =>
          cases h with
          | name _ => cases h'; rfl
          | _ => cases h'; rfl
  | unary _ _ _ ih | grouping _ ih | assign _ _ _ ih =>
      intro folded c c' ms v h
      cases h with
      | value h =>
          obtain ⟨ms₀, c₁, w, hoperand, huses⟩ := h.exists_use rfl rfl rfl
          rw [uses_append, List.map_append, huses, ih hoperand]
          rfl
  | binary _ _ _ _ ihl ihr =>
      intro folded c c' ms v h
      cases h with
      | value h =>
          obtain ⟨ms₁, ms₂, c₁, w₁, w₂, hl, hr, huses⟩ := h.exists_uses rfl
          rw [uses_append, List.map_append, huses, List.map_append, ihl hl, ihr hr]
          rfl

theorem uses_all {announced : Bool} {ts : List Tree}
    (hts : ∀ t ∈ ts, ∀ {c c' : Chain} {ms : List Moment} {v : Value},
      Narrates t c ms c' (.ok v) → (uses ms).map Use.place = t.expressionsAt false)
    {c c' : Chain} {ms : List Moment} (h : NarratesAll announced ts c ms c' (.ok ())) :
    (uses ms).map Use.place = Tree.expressionsOfAll ts := by
  induction ts generalizing c ms with
  | nil =>
      cases h
      rfl
  | cons t ts ih =>
      obtain ⟨ht, hts⟩ := List.forall_mem_cons.mp hts
      cases h with
      | cons h hrest =>
          rw [uses_append, uses_append, uses_heading, List.nil_append, List.map_append, ht h,
            ih hts hrest]
          rfl

/-- A statement that runs to its end has used all of its expressions in order. -/
theorem uses_statement {t : Tree} (ht : Statement P t) : ∀ {c c' : Chain} {ms : List Moment}
    {v : Value}, Narrates t c ms c' (.ok v) →
    (uses ms).map Use.place = t.expressionsAt false := by
  induction ht with
  | discard he | print he | define _ _ he =>
      intro c c' ms v h
      obtain ⟨ms₀, c₁, w, hoperand, huses⟩ := h.exists_use rfl rfl rfl
      rw [huses, uses_expression he hoperand]
      rfl
  | declare _ _ =>
      intro c c' ms v h
      cases h
      rfl
  | @block ts _ ih =>
      intro c c' ms v h
      generalize ho : Except.ok v = o at h
      cases h with
      | tooDeep | stopped => cases ho
      | @block _ _ opened inner r h =>
          cases r with
          | error f => cases ho
          | ok _ =>
              rw [← List.singleton_append, uses_append, uses_append, List.map_append,
                List.map_append, uses_all ih h]
              exact List.append_nil _

/-! ## What is noted -/

mutual

/-- Every expression of a tree without foreign nodes has a text. -/
theorem isNative_of_expressionsAt : ∀ (t : Tree) {folded : Bool}, t.isNative = true →
    ∀ p ∈ t.expressionsAt folded, p.1.isNative = true
  | .literal _, _, h | .reference _, _, h => List.forall_mem_singleton.mpr h
  | .unary _ e, _, h | .grouping e, _, h | .assign _ e, _, h =>
      List.forall_mem_append.mpr
        ⟨isNative_of_expressionsAt e h, List.forall_mem_singleton.mpr h⟩
  | .binary l _ r, _, h => by
      obtain ⟨hl, hr⟩ := Bool.and_eq_true_iff.mp h
      exact List.forall_mem_append.mpr ⟨List.forall_mem_append.mpr
        ⟨isNative_of_expressionsAt l hl, isNative_of_expressionsAt r hr⟩,
        List.forall_mem_singleton.mpr h⟩
  | .discard e, _, h | .print e, _, h | .define _ e, _, h => isNative_of_expressionsAt e h
  | .block ts, _, h => isNative_of_expressionsOfAll ts h
  | .declare _, _, _ | .foreign _, _, _ => List.forall_mem_nil _

theorem isNative_of_expressionsOfAll : ∀ (ts : List Tree), Tree.areNative ts = true →
    ∀ p ∈ Tree.expressionsOfAll ts, p.1.isNative = true
  | [], _ => List.forall_mem_nil _
  | t :: ts, h => by
      obtain ⟨ht, hts⟩ := Bool.and_eq_true_iff.mp h
      exact List.forall_mem_append.mpr
        ⟨isNative_of_expressionsAt t ht, isNative_of_expressionsOfAll ts hts⟩

end

/-- Whether an event is the value of an expression. -/
def Event.isEvaluated : Event → Bool
  | .evaluated .. => true
  | _ => false

theorem Event.not_isEvaluated_of_level {e : Event} (h : e.level ≠ 3) : e.isEvaluated = false := by
  cases e <;> first | rfl | exact absurd rfl h

/-- The third level notes everything. -/
theorem Event.upTo_eq_self {k : Int} (hk : 3 ≤ k) (es : List Event) : upTo k es = es := by
  refine List.filter_eq_self.mpr fun e _ => decide_eq_true ?_
  have hlevel : e.level ≤ 3 := by cases e <;> exact Nat.le_of_ble_eq_true rfl
  omega

/-- What is noted of a value. -/
def Use.event (u : Use) : Event := .evaluated u.expression.text u.value

/-- The values that are noted are those that are used and not folded. -/
theorem Moment.evaluated_events (ms : List Moment) :
    (events ms).filter Event.isEvaluated = ((uses ms).filter (!·.folded)).map Use.event := by
  induction ms with
  | nil => rfl
  | cons m ms ih =>
      rw [← List.singleton_append, events_append, uses_append, List.filter_append,
        List.filter_append, List.map_append, ih]
      cases m with
      | used e v folded => cases folded <;> rfl
      | _ => rfl

/-- Where a source runs to its end, its narration uses every expression of its statements once, in
the order of evaluation.  From the third level on the trace has, in this order, the text and the
value of every expression but of the operators that are left operands of others. -/
theorem evaluations_noted {frontEnd : FrontEnd} {source : String} {trees : List Tree} (c : Chain)
    {k : Int} (hk : 3 ≤ k) (hrun : ((Machine.start c k).feed frontEnd source).1 = .ok trees) :
    let fed := (Machine.start c k).feed frontEnd source
    ∃ ms : List Moment, NarratesProgram trees c ms fed.2.scopes (.ok ()) ∧
      (uses ms).map Use.place = Tree.expressionsOfAll trees ∧
      (∀ u ∈ uses ms, u.expression.render = .ok u.expression.text) ∧
      fed.2.trace.toList.filter Event.isEvaluated
        = ((uses ms).filter (!·.folded)).map Use.event := by
  intro fed
  cases hread : (frontEnd.read source).2 with
  | error f =>
      rw [feed_of_error hread] at hrun
      cases hrun
  | ok found =>
      obtain ⟨ms, r, story, hn, hstory, hevents, houtcome⟩ :=
        exists_narration_feed frontEnd source c
      have hfed : fed = (story.outcome, (Machine.start c k).after story) := hstory _ rfl
      have hended : ranProgram found r = .ok trees := by
        rw [← houtcome found hread]
        exact (congrArg Prod.fst hfed).symm.trans hrun
      rw [FrontEnd.statements, hread] at hn
      cases r with
      | error f => cases hended
      | ok _ =>
          cases hended
          obtain ⟨ts, hprogram, -⟩ := exists_program_of_read hread
          have hstatements := hprogram.statements (P := fun _ => True) fun _ _ => trivial
          have huses := uses_all (fun t ht => uses_statement (hstatements t ht)) hn
          refine ⟨ms, ?_, huses, ?_, ?_⟩
          · rw [hfed]
            exact hn
          · intro u hu
            have hplace := List.mem_map_of_mem (f := Use.place) hu
            rw [huses] at hplace
            exact Tree.render_eq_text
              (isNative_of_expressionsOfAll _ (areNative_of_read hread) _ hplace)
          · have htrace : fed.2.trace.toList
                = Event.upTo k ((frontEnd.read source).1 ++ Moment.events ms) := by
              rw [hfed, ← hevents]
              rfl
            have hreading : (frontEnd.read source).1.filter Event.isEvaluated = [] := by
              refine List.filter_eq_nil_iff.mpr fun e he => ?_
              rw [Event.not_isEvaluated_of_level]
              · exact Bool.false_ne_true
              · rw [level_of_read frontEnd source e he]
                decide
            rw [htrace, Event.upTo_eq_self hk, List.filter_append, hreading,
              Moment.evaluated_events]
            rfl

/-- `var a = "x"; print (a = "y") + a + "z";` notes seven values.  The operator in front of `"z"`
comes to `"yy"`, which is not noted. -/
theorem evaluations_noted_assignment_in_chain :
    let source : String := "var a = \"x\"; print (a = \"y\") + a + \"z\";"
    let fed := (Machine.start [Scope.empty] 3).feed .automaton source
    ∃ trees : List Tree, (3 : Int) ≤ 3 ∧ fed.1 = .ok trees ∧
      (∃ ms : List Moment, NarratesProgram trees [Scope.empty] ms fed.2.scopes (.ok ()) ∧
        fed.2.trace.toList.filter Event.isEvaluated
          = ((uses ms).filter (!·.folded)).map Use.event) ∧
      fed.2.trace.toList.filter Event.isEvaluated = [
        .evaluated "\"x\"" (.string "x"), .evaluated "\"y\"" (.string "y"),
        .evaluated "(= a \"y\")" (.string "y"), .evaluated "(group (= a \"y\"))" (.string "y"),
        .evaluated "a" (.string "y"), .evaluated "\"z\"" (.string "z"),
        .evaluated "(+ (+ (group (= a \"y\")) a) \"z\")" (.string "yyz")] := by
  intro source fed
  let a (line : Int) : Token := ⟨.identifier, "a", line⟩
  let plus : Token := ⟨.mark .plus, "+", 0⟩
  let chain : Tree := .binary (.binary
    (.grouping (.assign (a 0) (.literal (.string "y")))) plus (.reference (a 0))) plus
    (.literal (.string "z"))
  have hrun : fed.1 = .ok [.define (a 0) (.literal (.string "x")), .print chain] := by
    decide +kernel
  obtain ⟨ms, hn, -, -, hnoted⟩ := evaluations_noted [Scope.empty] (Int.le_refl 3) hrun
  exact ⟨_, Int.le_refl 3, hrun, ⟨ms, hn, hnoted⟩, by decide +kernel⟩

/-- Not every expression is noted: `"a" + "b" + "c";` has five, and the trace has the values of four
of them.  What is missing is `"a" + "b"`. -/
theorem inner_operator_unnoted :
    let fed := (Machine.start [Scope.empty] 3).feed .descent "\"a\" + \"b\" + \"c\";"
    ∃ trees : List Tree, fed.1 = .ok trees ∧ (Tree.expressionsOfAll trees).length = 5 ∧
      (fed.2.trace.toList.filter Event.isEvaluated).length = 4 ∧
      .evaluated "(+ \"a\" \"b\")" (.string "ab") ∉ fed.2.trace.toList := by
  intro fed
  let plus : Token := ⟨.mark .plus, "+", 0⟩
  refine ⟨[.discard (.binary (.binary (.literal (.string "a")) plus (.literal (.string "b"))) plus
    (.literal (.string "c")))], by decide +kernel, rfl, by decide +kernel, by decide +kernel⟩

end RoxLang
