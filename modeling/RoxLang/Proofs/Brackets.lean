/-
# `RoxLang.Proofs.Brackets` — scope events come in pairs

A block opens a scope and closes it again however it ends: by running to its end, or by a fault
anywhere in it, which unwinds all the blocks around.  The depths in the events are not counted
along; each is how many scopes there are at that moment.  So what holds the two together is that
what lies between an opening and its closing leaves as many scopes as there were, whatever it does
to them.

`Bracketed d ms` says that the scopes that are opened in the moments `ms` are closed there again, in
pairs, when the innermost scope before and behind them lies `d` deep, and that every declaration
between them is made in the innermost scope there is.  A narration is bracketed, by induction on it.
Read off the trace, the depths go up and down by one and come back to where they started.
-/
import RoxLang.Proofs.Tracing

namespace RoxLang

/-! ## Moments in brackets -/

/-- A moment that opens and closes no scope; if it is a declaration, then in a scope so deep. -/
def Moment.StaysAt (d : Nat) : Moment → Prop
  | .declared _ _ depth => depth = d
  | .opened _ | .closed _ => False
  | .executing _ | .used .. | .assigned .. => True

/-- Moments in which scopes are opened and closed in pairs, around a scope so deep. -/
inductive Bracketed : Nat → List Moment → Prop
  | nil {d : Nat} : Bracketed d []
  | cons {d : Nat} {m : Moment} {ms : List Moment} : m.StaysAt d → Bracketed d ms →
      Bracketed d (m :: ms)
  | pair {d : Nat} {inner ms : List Moment} : Bracketed (d + 1) inner → Bracketed d ms →
      Bracketed d (.opened (d + 1) :: (inner ++ .closed d :: ms))

theorem Bracketed.append {d : Nat} {ms ms' : List Moment} (h : Bracketed d ms)
    (h' : Bracketed d ms') : Bracketed d (ms ++ ms') := by
  induction h with
  | nil => exact h'
  | cons hm _ ih => exact .cons hm (ih h')
  | pair hinner _ _ ih =>
      rw [List.cons_append, List.append_assoc, List.cons_append]
      exact .pair hinner (ih h')

/-! ## Narrations are bracketed -/

namespace Chain

theorem length_assign? {name : String} {v : Value} {c c' : Chain}
    (h : c.assign? name v = some c') : c'.length = c.length := by
  rcases owned_or_unbound name c with ⟨inner, owner, outer, before, rfl, hi, ho⟩ | hu
  · rw [assign?_of_owner v outer ho hi] at h
    cases h
    simp only [List.length_append, List.length_cons]
  · rw [assign?_of_unbound v hu] at h
    cases h

theorem length_define (name : String) (v : Value) (c : Chain) :
    (c.define name v).length = c.length := by
  cases c <;> rfl

theorem depth_of_length {c c' : Chain} (h : c'.length = c.length) : c'.depth = c.depth :=
  congrArg (· - 1) h

end Chain

/-- What happens between two chains leaves as many scopes as there were, and is bracketed. -/
structure Returns (c : Chain) (ms : List Moment) (c' : Chain) : Prop where
  length : c'.length = c.length
  bracketed : Bracketed c.depth ms

namespace Returns

variable {c c₁ c₂ : Chain} {ms ms' : List Moment}

theorem refl (c : Chain) : Returns c [] c := ⟨rfl, .nil⟩

theorem trans (h : Returns c ms c₁) (h' : Returns c₁ ms' c₂) : Returns c (ms ++ ms') c₂ :=
  ⟨h'.length.trans h.length, h.bracketed.append (Chain.depth_of_length h.length ▸ h'.bracketed)⟩

/-- One moment more, which may write to the scopes. -/
theorem concat (h : Returns c ms c₁) {m : Moment} (hm : m.StaysAt c₁.depth)
    (hlength : c₂.length = c₁.length) : Returns c (ms ++ [m]) c₂ :=
  h.trans ⟨hlength, .cons hm .nil⟩

theorem heading (announced : Bool) (t : Tree) (c : Chain) :
    Returns c (Moment.heading announced t) c := by
  cases announced with
  | false => exact .refl c
  | true => exact ⟨rfl, .cons trivial .nil⟩

/-- A scope is opened, and closed behind what happens in it. -/
theorem block (hpos : 0 < c.length) (h : Returns (Scope.empty :: c) ms c₁) :
    Returns c (.opened (Chain.depth (Scope.empty :: c)) ::
      (ms ++ [.closed (Chain.depth c₁.tail)])) c₁.tail := by
  have htail : c₁.tail.length = c.length := by
    rw [List.length_tail, h.length]
    rfl
  have hopened : Chain.depth (Scope.empty :: c) = c.depth + 1 := (Nat.sub_add_cancel hpos).symm
  have hinner := h.bracketed
  rw [hopened] at hinner ⊢
  rw [Chain.depth_of_length htail]
  exact ⟨htail, .pair hinner .nil⟩

end Returns

mutual

theorem Narrates.returns : ∀ {t : Tree} {c c' : Chain} {ms : List Moment}
    {r : Except RunFault Value}, Narrates t c ms c' r → 0 < c.length → Returns c ms c'
  | _, _, _, _, _, .tooDeep, _ | _, _, _, _, _, .literal, _ | _, _, _, _, _, .reference _, _
  | _, _, _, _, _, .unknown _, _ => .refl _
  | _, _, _, _, _, .stopped _ h, hpos | _, _, _, _, _, .unary h, hpos
  | _, _, _, _, _, .grouping h, hpos | _, _, _, _, _, .unowned h _, hpos
  | _, _, _, _, _, .discard h, hpos | _, _, _, _, _, .print h, hpos => h.returns hpos
  | _, _, _, _, _, .binary hl hr, hpos | _, _, _, _, _, .rightStopped hl hr, hpos =>
      (hl.returns hpos).trans (hr.returns ((hl.returns hpos).length ▸ hpos))
  | _, _, _, _, _, .assign h ha, hpos => (h.returns hpos).concat trivial (Chain.length_assign? ha)
  | _, _, _, _, _, .declare, _ => (Returns.refl _).concat rfl (Chain.length_define ..)
  | _, _, _, _, _, .define h, hpos => (h.returns hpos).concat rfl (Chain.length_define ..)
  | _, _, _, _, _, .block h, hpos => .block hpos (h.returns (Nat.succ_pos _))

theorem NarratesUse.returns : ∀ {e : Tree} {folded : Bool} {c c' : Chain} {ms : List Moment}
    {r : Except RunFault Value}, NarratesUse e folded c ms c' r → 0 < c.length → Returns c ms c'
  | _, _, _, _, _, _, .value h, hpos => (h.returns hpos).concat trivial rfl
  | _, _, _, _, _, _, .fault h, hpos => h.returns hpos

theorem NarratesAll.returns : ∀ {announced : Bool} {ts : List Tree} {c c' : Chain}
    {ms : List Moment} {r : Except RunFault Unit}, NarratesAll announced ts c ms c' r →
    0 < c.length → Returns c ms c'
  | _, _, _, _, _, _, .nil, _ => .refl _
  | _, _, _, _, _, _, .cons ht hts, hpos =>
      ((Returns.heading _ _ _).trans (ht.returns hpos)).trans
        (hts.returns ((ht.returns hpos).length ▸ hpos))
  | _, _, _, _, _, _, .stop ht, hpos => (Returns.heading _ _ _).trans (ht.returns hpos)

end

/-! ## Depths along a trace -/

namespace Event

/-- Read a trace from a current depth: a scope that is opened lies one deeper than the current one,
and one that is closed leaves the one before it, which does not lie above the base. -/
def depthAfter? (base : Nat) : Nat → List Event → Option Nat
  | current, [] => some current
  | current, .pushed depth :: es =>
      if depth = current + 1 then depthAfter? base depth es else none
  | current, .popped depth :: es =>
      if base ≤ depth ∧ depth + 1 = current then depthAfter? base depth es else none
  | current, _ :: es => depthAfter? base current es

/-- Neither an opening nor a closing. -/
def isFlat : Event → Bool
  | .pushed _ | .popped _ => false
  | _ => true

theorem isFlat_of_level {e : Event} (h : e.level ≠ 2) : e.isFlat = true := by
  cases e <;> first | rfl | exact absurd rfl h

variable {base : Nat}

theorem depthAfter?_flat {e : Event} (h : e.isFlat = true) (current : Nat) (es : List Event) :
    depthAfter? base current (e :: es) = depthAfter? base current es := by
  cases e <;> first | rfl | cases h

theorem depthAfter?_append_of_flat {es : List Event} (h : ∀ e ∈ es, e.isFlat = true)
    (current : Nat) (es' : List Event) :
    depthAfter? base current (es ++ es') = depthAfter? base current es' := by
  induction es with
  | nil => rfl
  | cons e es ih =>
      obtain ⟨he, hes⟩ := List.forall_mem_cons.mp h
      rw [List.cons_append, depthAfter?_flat he, ih hes]

/-- What is not noted from the second level on is flat. -/
theorem depthAfter?_upTo {k : Int} (hk : 2 ≤ k) (current : Nat) (es : List Event) :
    depthAfter? base current (upTo k es) = depthAfter? base current es := by
  induction es generalizing current with
  | nil => rfl
  | cons e es ih =>
      by_cases he : (e.level : Int) ≤ k
      · have hupTo : upTo k (e :: es) = e :: upTo k es :=
          List.filter_cons_of_pos (decide_eq_true he)
        rw [hupTo]
        cases e with
        | pushed depth => simp only [depthAfter?, ih]
        | popped depth => simp only [depthAfter?, ih]
        | _ => exact ih current
      · have hupTo : upTo k (e :: es) = upTo k es :=
          List.filter_cons_of_neg (by simpa using he)
        have hlevel : e.level ≠ 2 := by
          intro hlevel
          rw [hlevel] at he
          exact he hk
        rw [hupTo, ih, depthAfter?_flat (isFlat_of_level hlevel)]

/-- Along bracketed moments the depth comes back to where it was. -/
theorem depthAfter?_events {d : Nat} {ms : List Moment} (h : Bracketed d ms) : base ≤ d →
    ∀ es : List Event,
      depthAfter? base d (Moment.events ms ++ es) = depthAfter? base d es := by
  induction h with
  | nil => exact fun _ _ => rfl
  | @cons d m ms hm _ ih =>
      intro hbase es
      rw [← ih hbase es, ← List.singleton_append, Moment.events_append, List.append_assoc]
      refine depthAfter?_append_of_flat ?_ d _
      cases m with
      | opened _ | closed _ => cases hm
      | used e v folded => cases folded <;> simp [Moment.events, Moment.event?, isFlat]
      | _ => simp [Moment.events, Moment.event?, isFlat]
  | @pair d inner ms _ _ ihinner ih =>
      intro hbase es
      have hevents : Moment.events (.opened (d + 1) :: (inner ++ .closed d :: ms)) ++ es
          = .pushed (d + 1) ::
            (Moment.events inner ++ (.popped d :: (Moment.events ms ++ es))) := by
        simp [Moment.events, Moment.event?]
      rw [hevents, depthAfter?, if_pos rfl, ihinner (Nat.le_succ_of_le hbase), depthAfter?,
        if_pos ⟨hbase, rfl⟩, ih hbase]

end Event

/-- Scope events are well bracketed however a source ends.  From the second level on, the trace of a
source that is fed to a machine whose innermost scope lies `d` deep, read from the depth `d`, goes
up by one at each opening and down by one at each closing, does not go below `d` and ends at `d`.
It has the events of moments that are bracketed: between an opening and its closing, and outside of
other such pairs in between, declarations are made in a scope that lies as deep as the opening
says. -/
theorem scope_events_bracketed (frontEnd : FrontEnd) (source : String) (s : Scope) (outer : Chain)
    {k : Int} (hk : 2 ≤ k) :
    let d := Chain.depth (s :: outer)
    let fed := (Machine.start (s :: outer) k).feed frontEnd source
    Event.depthAfter? d d fed.2.trace.toList = some d ∧
      ∃ (ms : List Moment) (r : Except RunFault Unit),
        NarratesProgram (frontEnd.statements source) (s :: outer) ms fed.2.scopes r ∧
        (∀ trees, (frontEnd.read source).2 = .ok trees → fed.1 = ranProgram trees r) ∧
        fed.2.trace.toList
          = Event.upTo k ((frontEnd.read source).1 ++ Moment.events ms) ∧
        Bracketed d ms := by
  intro d fed
  obtain ⟨ms, r, story, hn, hstory, hevents, houtcome⟩ :=
    exists_narration_feed frontEnd source (s :: outer)
  have hfed : fed = (story.outcome, (Machine.start (s :: outer) k).after story) := hstory _ rfl
  have htrace : fed.2.trace.toList
      = Event.upTo k ((frontEnd.read source).1 ++ Moment.events ms) := by
    rw [hfed, ← hevents]
    rfl
  have hreturns := hn.returns (Nat.succ_pos _)
  refine ⟨?_, ms, r, ?_, ?_, htrace, hreturns.bracketed⟩
  · have hround := Event.depthAfter?_events hreturns.bracketed (Nat.le_refl d) []
    rw [List.append_nil] at hround
    have hreading : ∀ e ∈ (frontEnd.read source).1, e.isFlat = true := by
      intro e he
      refine Event.isFlat_of_level ?_
      rw [level_of_read frontEnd source e he]
      decide
    rw [htrace, Event.depthAfter?_upTo hk,
      Event.depthAfter?_append_of_flat hreading, hround]
    rfl
  · rw [hfed]
    exact hn
  · rw [hfed]
    exact houtcome

/-- `{ var a = "x"; { var b = a; c; } }` stops in the inner of two blocks, and both are closed. -/
theorem scope_events_bracketed_stopped :
    let source : String := "\x7b var a = \"x\"; \x7b var b = a; c; \x7d \x7d"
    let fed := (Machine.start [Scope.empty] 2).feed .automaton source
    (2 : Int) ≤ 2 ∧ fed.1 = .error (.run (.undefinedVariable "c")) ∧
      fed.2.trace.toList = [
        .executing "(block (var a \"x\") (block (var b a) (; c)))", .pushed 1,
        .declared "a" (.string "x"), .pushed 2, .declared "b" (.string "x"), .popped 1,
        .popped 0] ∧
      Event.depthAfter? 0 0 fed.2.trace.toList = some 0 := by
  intro source fed
  have hle : (2 : Int) ≤ 2 := Int.le_refl 2
  exact ⟨hle, by decide +kernel, by decide +kernel,
    (scope_events_bracketed .automaton source Scope.empty [] hle).1⟩

end RoxLang
