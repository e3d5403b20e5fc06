/-
# `RoxLang.Proofs.Run.Narration` — what happens in a run, node by node

The story of a run has its events, which are texts and numbers.  A narration says where they come
from: it goes through a tree node by node, and tells of each statement that is started, of each
expression whose value is used and of each change to the scopes, together with how deep the scope is
that is opened, closed or declared in.

`Narrates t c ms c' r` says that running `t` on the scopes `c` goes through the moments `ms`, leaves
the scopes `c'` and ends with `r`; `NarratesUse` says the same of running an expression and using
its value, and `NarratesAll` of statements one after the other.  The rules speak of a node's own
parts, as those of `Evaluates` do.  They do not count levels: any node may be one too many, where a
run just stops.

The chain of an operator is folded along the way, so the value of its left operand, if that is an
operator too, goes into the next step and is never noted.  It is used all the same, and the moment
says that it is folded.

Every run of a tree without foreign nodes has a narration, and the events of its moments are the
events of its story.
-/
import RoxLang.Proofs.Run.Story

namespace RoxLang

open RoxLang.Tree (areNative)

/-- The text of a tree, if it has one. -/
def Tree.text (t : Tree) : String := t.render.toOption.getD ""

theorem Tree.render_eq_text {t : Tree} (h : t.isNative = true) : t.render = .ok t.text := by
  obtain ⟨text, htext⟩ := Tree.exists_render h
  rw [Tree.text, htext]
  rfl

/-! ## Moments -/

/-- Something that happens in a run. -/
inductive Moment where
  /-- A statement of the program is started. -/
  | executing (statement : Tree)
  /-- The value of an expression is used.  It is folded if it goes on along the chain. -/
  | used (expression : Tree) (value : Value) (folded : Bool)
  /-- A name is declared in a scope, which lies so deep. -/
  | declared (name : String) (value : Value) (depth : Nat)
  /-- A name is assigned. -/
  | assigned (name : String) (value : Value)
  /-- A scope is opened, which lies so deep. -/
  | opened (depth : Nat)
  /-- A scope is closed, and the one that is left lies so deep. -/
  | closed (depth : Nat)

namespace Moment

/-- The event of a moment.  There is none for a value that is folded. -/
def event? : Moment → Option Event
  | .executing t => some (.executing t.text)
  | .used e v folded => if folded then none else some (.evaluated e.text v)
  | .declared name v _ => some (.declared name v)
  | .assigned name v => some (.assigned name v)
  | .opened depth => some (.pushed depth)
  | .closed depth => some (.popped depth)

/-- The events of moments. -/
def events (ms : List Moment) : List Event := ms.filterMap event?

theorem events_append (ms ms' : List Moment) : events (ms ++ ms') = events ms ++ events ms' :=
  List.filterMap_append

/-- What is told before a statement: a statement of the program is announced, one in a block is
not. -/
def heading (announced : Bool) (t : Tree) : List Moment := if announced then [.executing t] else []

end Moment

/-- The operand that a node runs first, and whether its value is folded. -/
def Tree.firstOperand? : Tree → Option (Tree × Bool)
  | .unary _ e | .grouping e | .assign _ e | .discard e | .print e | .define _ e => some (e, false)
  | .binary l _ _ => some (l, l.isBinary)
  | .literal _ | .reference _ | .declare _ | .block _ | .foreign _ => none

/-! ## Narrations -/

mutual

/-- What happens when a tree is run. -/
inductive Narrates : Tree → Chain → List Moment → Chain → Except RunFault Value → Prop
  | tooDeep {t : Tree} {c : Chain} : Narrates t c [] c (.error .nestingTooDeep)
  | stopped {t e : Tree} {folded : Bool} {c c' : Chain} {ms : List Moment} {f : RunFault} :
      t.firstOperand? = some (e, folded) → NarratesUse e folded c ms c' (.error f) →
      Narrates t c ms c' (.error f)
  | literal {v : Value} {c : Chain} : Narrates (.literal v) c [] c (.ok v)
  | unary {op : Token} {e : Tree} {c c' : Chain} {ms : List Moment} {v : Value} :
      NarratesUse e false c ms c' (.ok v) → Narrates (.unary op e) c ms c' (applyUnary op v)
  | binary {op : Token} {l r : Tree} {c c₁ c₂ : Chain} {ms₁ ms₂ : List Moment} {v w : Value} :
      NarratesUse l l.isBinary c ms₁ c₁ (.ok v) → NarratesUse r false c₁ ms₂ c₂ (.ok w) →
      Narrates (.binary l op r) c (ms₁ ++ ms₂) c₂ (applyBinary op v w)
  | rightStopped {op : Token} {l r : Tree} {c c₁ c₂ : Chain} {ms₁ ms₂ : List Moment} {v : Value}
      {f : RunFault} :
      NarratesUse l l.isBinary c ms₁ c₁ (.ok v) → NarratesUse r false c₁ ms₂ c₂ (.error f) →
      Narrates (.binary l op r) c (ms₁ ++ ms₂) c₂ (.error f)
  | grouping {e : Tree} {c c' : Chain} {ms : List Moment} {v : Value} :
      NarratesUse e false c ms c' (.ok v) → Narrates (.grouping e) c ms c' (.ok v)
  | reference {name : Token} {c : Chain} {v : Value} : c.get? name.lexeme = some v →
      Narrates (.reference name) c [] c (.ok v)
  | unknown {name : Token} {c : Chain} : c.get? name.lexeme = none →
      Narrates (.reference name) c [] c (.error (.undefinedVariable name.lexeme))
  | assign {name : Token} {e : Tree} {c c₁ c₂ : Chain} {ms : List Moment} {v : Value} :
      NarratesUse e false c ms c₁ (.ok v) → c₁.assign? name.lexeme v = some c₂ →
      Narrates (.assign name e) c (ms ++ [.assigned name.lexeme v]) c₂ (.ok v)
  | unowned {name : Token} {e : Tree} {c c' : Chain} {ms : List Moment} {v : Value} :
      NarratesUse e false c ms c' (.ok v) → c'.assign? name.lexeme v = none →
      Narrates (.assign name e) c ms c' (.error (.undefinedVariable name.lexeme))
  | discard {e : Tree} {c c' : Chain} {ms : List Moment} {v : Value} :
      NarratesUse e false c ms c' (.ok v) → Narrates (.discard e) c ms c' (.ok .nil)
  | print {e : Tree} {c c' : Chain} {ms : List Moment} {v : Value} :
      NarratesUse e false c ms c' (.ok v) → Narrates (.print e) c ms c' (.ok .nil)
  | declare {name : Token} {c : Chain} :
      Narrates (.declare name) c [.declared name.lexeme .nil c.depth] (c.define name.lexeme .nil)
        (.ok .nil)
  | define {name : Token} {e : Tree} {c c' : Chain} {ms : List Moment} {v : Value} :
      NarratesUse e false c ms c' (.ok v) →
      Narrates (.define name e) c (ms ++ [.declared name.lexeme v c'.depth])
        (c'.define name.lexeme v) (.ok .nil)
  | block {ts : List Tree} {c c' : Chain} {ms : List Moment} {r : Except RunFault Unit} :
      NarratesAll false ts (Scope.empty :: c) ms c' r →
      Narrates (.block ts) c (.opened (Chain.depth (Scope.empty :: c)) ::
        (ms ++ [.closed (Chain.depth c'.tail)])) c'.tail (r.map fun _ => .nil)

/-- What happens when an expression is run and its value used. -/
inductive NarratesUse : Tree → Bool → Chain → List Moment → Chain → Except RunFault Value → Prop
  | value {e : Tree} {folded : Bool} {c c' : Chain} {ms : List Moment} {v : Value} :
      Narrates e c ms c' (.ok v) → NarratesUse e folded c (ms ++ [.used e v folded]) c' (.ok v)
  | fault {e : Tree} {folded : Bool} {c c' : Chain} {ms : List Moment} {f : RunFault} :
      Narrates e c ms c' (.error f) → NarratesUse e folded c ms c' (.error f)

/-- What happens when statements are run one after the other, up to the first fault. -/
inductive NarratesAll :
    Bool → List Tree → Chain → List Moment → Chain → Except RunFault Unit → Prop
  | nil {announced : Bool} {c : Chain} : NarratesAll announced [] c [] c (.ok ())
  | cons {announced : Bool} {t : Tree} {ts : List Tree} {c c₁ c₂ : Chain}
      {ms₁ ms₂ : List Moment} {v : Value} {r : Except RunFault Unit} :
      Narrates t c ms₁ c₁ (.ok v) → NarratesAll announced ts c₁ ms₂ c₂ r →
      NarratesAll announced (t :: ts) c (Moment.heading announced t ++ ms₁ ++ ms₂) c₂ r
  | stop {announced : Bool} {t : Tree} {ts : List Tree} {c c' : Chain} {ms : List Moment}
      {f : RunFault} : Narrates t c ms c' (.error f) →
      NarratesAll announced (t :: ts) c (Moment.heading announced t ++ ms) c' (.error f)

end

/-- What happens when a program is run: its statements are announced. -/
abbrev NarratesProgram : List Tree → Chain → List Moment → Chain → Except RunFault Unit → Prop :=
  NarratesAll true

/-- What happens when one statement is run: its value is dropped. -/
def NarratesStatement (announced : Bool) (t : Tree) (c : Chain) (ms : List Moment) (c' : Chain)
    (r : Except RunFault Unit) : Prop :=
  ∃ ms₀ r₀, Narrates t c ms₀ c' r₀ ∧ ms = Moment.heading announced t ++ ms₀ ∧
    r = r₀.map fun _ => ()

namespace Run

/-! ## Runs with a narration -/

/-- On given scopes a run has a story, the events are those of some moments, and with the scopes
left and the outcome these moments make a narration. -/
def Recounts {α : Type} (run : Run α) (c : Chain)
    (narration : List Moment → Chain → Except RunFault α → Prop) : Prop :=
  ∃ ms s, Tells run.on c s ∧ s.events = Moment.events ms ∧ narration ms s.scopes s.outcome

section

variable {α β : Type} {run : Run α} {c c' : Chain}
  {narration narration₁ : List Moment → Chain → Except RunFault α → Prop}
  {narration₂ : List Moment → Chain → Except RunFault β → Prop}

theorem Recounts.imp (h : Recounts run c narration)
    (himp : ∀ {ms c' r}, narration ms c' r → narration₁ ms c' r) : Recounts run c narration₁ := by
  obtain ⟨ms, s, hs, hevents, hn⟩ := h
  exact ⟨ms, s, hs, hevents, himp hn⟩

/-- A run without events. -/
theorem recounts_silent {s : Story (Except RunFault α)} (h : Tells run.on c s)
    (hsilent : s.events = []) (hn : narration [] s.scopes s.outcome) :
    Recounts run c narration := ⟨[], s, h, hsilent, hn⟩

theorem Recounts.bind {k : α → Run β} (h : Recounts run c narration)
    (hvalue : ∀ {ms c' a}, narration ms c' (.ok a) →
      Recounts (k a) c' fun ms' c'' r => narration₂ (ms ++ ms') c'' r)
    (hfault : ∀ {ms c' f}, narration ms c' (.error f) → narration₂ ms c' (.error f)) :
    Recounts (run >>= k) c narration₂ := by
  obtain ⟨ms, s, hs, hevents, hn⟩ := h
  cases houtcome : s.outcome with
  | error f =>
      rw [houtcome] at hn
      exact ⟨ms, _, tells_bind_error hs houtcome k, hevents, hfault hn⟩
  | ok a =>
      rw [houtcome] at hn
      obtain ⟨ms', s', hs', hevents', hn'⟩ := hvalue hn
      refine ⟨ms ++ ms', _, tells_bind_ok hs houtcome hs', ?_, hn'⟩
      rw [Moment.events_append, ← hevents, ← hevents']
      rfl

/-- A run that goes on to one moment and an end. -/
theorem recounts_moment {moment : Moment} {event : Event} (hevent : moment.event? = some event)
    {step : Run Unit} (h : Tells step.on c (.event event c')) {a : α}
    (hn : narration [moment] c' (.ok a)) : Recounts (step >>= fun _ => pure a) c narration := by
  refine ⟨[moment], _, tells_bind_ok h rfl (tells_pure a c'), ?_, hn⟩
  rw [Moment.events, List.filterMap_cons, hevent]
  rfl

end

theorem tells_observed {t : Tree} (ht : t.isNative = true) (v : Value) (c : Chain) :
    Tells (observed t v).on c ((Story.event (.evaluated t.text v) c).andThen (.still (.ok v) c)) :=
  tells_noting (Tree.render_eq_text ht) (.evaluated · v) rfl (tells_pure v c)

/-- An expression that is run is used next. -/
theorem recounts_value {n : Nat} {t : Tree} {c : Chain} (ht : t.isNative = true)
    (h : Recounts (treeWithin n t) c (Narrates t c)) :
    Recounts (valueWithin n t) c (NarratesUse t false c) := by
  refine Recounts.bind h (fun {ms c' v} hn => ?_) .fault
  exact ⟨[.used t v false], _, tells_observed ht v c', rfl, .value hn⟩

/-- Using a value that is folded is no event. -/
theorem Recounts.folded {run : Run Value} {t : Tree} {c : Chain}
    (h : Recounts run c (Narrates t c)) : Recounts run c (NarratesUse t true c) := by
  obtain ⟨ms, s, hs, hevents, hn⟩ := h
  cases houtcome : s.outcome with
  | error f =>
      rw [houtcome] at hn
      exact ⟨ms, s, hs, hevents, houtcome ▸ .fault hn⟩
  | ok v =>
      rw [houtcome] at hn
      refine ⟨ms ++ [.used t v true], s, hs, ?_, houtcome ▸ .value hn⟩
      rw [Moment.events_append, ← hevents]
      exact (List.append_nil _).symm

section

variable {n : Nat} (hvalue : ∀ {t : Tree}, t.isNative = true → ∀ c : Chain,
  Recounts (valueWithin n t) c (NarratesUse t false c))

include hvalue

/-- A step along a chain: the left operand has its value, then the right one is run. -/
theorem recounts_step {l r : Tree} {op : Token} {c : Chain}
    (hl : Recounts (chainWithin n l) c (NarratesUse l l.isBinary c)) (hr : r.isNative = true) :
    Recounts (chainWithin n (.binary l op r)) c (Narrates (.binary l op r) c) := by
  rw [chainWithin_binary]
  refine hl.bind (fun {ms₁ c₁ v} hn₁ => ?_) (.stopped rfl)
  refine (hvalue hr c₁).bind (fun {ms₂ c₂ w} hn₂ => ?_) (.rightStopped hn₁)
  exact recounts_silent (tells_ofResult _ c₂) rfl ((List.append_nil ms₂).symm ▸ .binary hn₁ hn₂)

/-- Along a chain the value of the left operand goes into the step without being noted. -/
theorem recounts_chain : ∀ t : Tree, t.isNative = true → ∀ c : Chain,
    Recounts (chainWithin n t) c (NarratesUse t t.isBinary c)
  | .binary l op r, h, c => by
      obtain ⟨hl, hr⟩ := Bool.and_eq_true_iff.mp h
      exact (recounts_step hvalue (recounts_chain l hl c) hr).folded
  | .literal _, h, c | .unary .., h, c | .grouping _, h, c | .reference _, h, c | .assign .., h, c
  | .discard _, h, c | .print _, h, c | .declare _, h, c | .define .., h, c | .block _, h, c
  | .foreign _, h, c => by
      rw [chainWithin_of_not_binary n rfl]
      exact hvalue h c

/-- A node that goes on with the value of its one operand. -/
theorem recounts_node {t e : Tree} {k : Value → Run Value} (hcont : Continues t e k)
    (hoperand : t.firstOperand? = some (e, false)) (ht : t.isNative = true) (c : Chain)
    (hk : ∀ {ms c' v}, NarratesUse e false c ms c' (.ok v) →
      Recounts (k v) c' fun ms' c'' r => Narrates t c (ms ++ ms') c'' r) :
    Recounts (treeWithin (n + 1) t) c (Narrates t c) := by
  rw [hcont.run]
  exact (hvalue (hcont.native ▸ ht) c).bind hk (.stopped hoperand)

end

/-- Running a statement drops its value. -/
theorem Recounts.forget {n : Nat} {t : Tree} {c : Chain}
    (h : Recounts (treeWithin n t) c (Narrates t c)) :
    Recounts (do let _ ← treeWithin n t) c (NarratesStatement false t c) := by
  refine h.bind (fun {ms c' v} hn => ?_) fun {ms c' f} hn => ⟨ms, .error f, hn, rfl, rfl⟩
  exact recounts_silent (tells_pure () c') rfl ⟨ms, .ok v, hn, List.append_nil ms, rfl⟩

/-- Statements run one after the other, if each of them does what is to be told of it. -/
theorem recounts_forM {body : Tree → Run Unit} {announced : Bool}
    (hbody : ∀ {t : Tree}, t.isNative = true → ∀ c : Chain,
      Recounts (body t) c (NarratesStatement announced t c)) :
    ∀ (ts : List Tree), areNative ts = true → ∀ c : Chain,
      Recounts (ts.forM body) c (NarratesAll announced ts c)
  | [], _, c => recounts_silent (tells_pure () c) rfl .nil
  | t :: ts, h, c => by
      obtain ⟨ht, hts⟩ := Bool.and_eq_true_iff.mp h
      have hcons : (t :: ts).forM body = body t >>= fun _ => ts.forM body := rfl
      rw [hcons]
      refine (hbody ht c).bind (fun {ms c' _} hn => ?_) fun {ms c' f} hn => ?_
      · obtain ⟨ms₀, r₀, hn, rfl, hr⟩ := hn
        cases r₀ with
        | error f => cases hr
        | ok v => exact (recounts_forM hbody ts hts c').imp (.cons hn)
      · obtain ⟨ms₀, r₀, hn, rfl, hr⟩ := hn
        cases r₀ with
        | ok v => cases hr
        | error f₀ =>
            cases hr
            exact .stop hn

/-- A scope is opened before and closed behind what happens in it. -/
theorem recounts_block {body : Run Unit} {ts : List Tree} {c : Chain}
    (h : Recounts body (Scope.empty :: c) (NarratesAll false ts (Scope.empty :: c))) :
    Recounts (inScope body >>= fun _ => pure .nil) c (Narrates (.block ts) c) := by
  have hscope : Recounts (inScope body) c
      fun ms c' r => Narrates (.block ts) c ms c' (r.map fun _ => .nil) := by
    obtain ⟨ms, s, hs, hevents, hn⟩ := h
    refine ⟨_, _, tells_inScope hs, ?_, .block hn⟩
    rw [hevents, Moment.events, Moment.events, List.filterMap_cons, List.filterMap_append]
    rfl
  refine hscope.bind (fun {ms c' _} hn => ?_) fun hn => hn
  exact recounts_silent (tells_pure _ c') rfl ((List.append_nil ms).symm ▸ hn)

/-! ## Every run has a narration -/

/-- Running a tree without foreign nodes has a narration. -/
theorem recounts_treeWithin (n : Nat) : ∀ {t : Tree}, t.isNative = true → ∀ c : Chain,
    Recounts (treeWithin n t) c (Narrates t c) := by
  induction n with
  | zero => exact fun _ c => recounts_silent (tells_throw _ c) rfl .tooDeep
  | succ n ih =>
      intro t ht c
      have hvalue {e : Tree} (he : e.isNative = true) (c : Chain) :
          Recounts (valueWithin n e) c (NarratesUse e false c) := recounts_value he (ih he c)
      have hend {ms : List Moment} {c₁ : Chain} {k : Run Value}
          {s : Story (Except RunFault Value)} (hk : Tells k.on c₁ s) (hsilent : s.events = [])
          (hn : Narrates t c ms s.scopes s.outcome) :
          Recounts k c₁ fun ms' c'' r => Narrates t c (ms ++ ms') c'' r :=
        recounts_silent hk hsilent ((List.append_nil ms).symm ▸ hn)
      cases t with
      | literal v => exact recounts_silent (tells_pure v c) rfl .literal
      | reference name =>
          cases hget : c.get? name.lexeme with
          | some v => exact recounts_silent (tells_read hget) rfl (.reference hget)
          | none => exact recounts_silent (tells_read_none hget) rfl (.unknown hget)
      | unary op e =>
          refine recounts_node hvalue (continues_unary op e) rfl ht c fun {ms c' v} hn => ?_
          exact hend (tells_ofResult _ c') rfl (.unary hn)
      | binary l op r =>
          obtain ⟨hl, hr⟩ := Bool.and_eq_true_iff.mp ht
          exact recounts_step hvalue (recounts_chain hvalue l hl c) hr
      | grouping e =>
          refine recounts_node hvalue (continues_grouping e) rfl ht c fun {ms c' v} hn => ?_
          exact hend (tells_pure v c') rfl (.grouping hn)
      | assign name e =>
          refine recounts_node hvalue (continues_assign name e) rfl ht c fun {ms c' v} hn => ?_
          cases hassign : c'.assign? name.lexeme v with
          | none =>
              exact hend (tells_bind_error (tells_assign_none hassign) rfl _) rfl
                (.unowned hn hassign)
          | some c'' => exact recounts_moment rfl (tells_assign hassign) (.assign hn hassign)
      | discard e =>
          refine recounts_node hvalue (continues_discard e) rfl ht c fun {ms c' v} hn => ?_
          exact hend (tells_pure _ c') rfl (.discard hn)
      | print e =>
          refine recounts_node hvalue (continues_print e) rfl ht c fun {ms c' v} hn => ?_
          exact hend (tells_bind_ok (tells_printLine _ c') rfl (tells_pure _ c')) rfl (.print hn)
      | declare name => exact recounts_moment rfl (tells_declare name.lexeme .nil c) .declare
      | define name e =>
          refine recounts_node hvalue (continues_define name e) rfl ht c fun {ms c' v} hn => ?_
          exact recounts_moment rfl (tells_declare name.lexeme v c') (.define hn)
      | block ts =>
          rw [treeWithin_block]
          exact recounts_block (recounts_forM (fun ht c => (ih ht c).forget) ts ht _)
      | foreign => cases ht

theorem recounts_statement {t : Tree} (ht : t.isNative = true) (c : Chain) :
    Recounts (statement t) c (NarratesStatement true t c) := by
  obtain ⟨ms, s, hs, hevents, ms₀, r₀, hn, hms, hr⟩ :=
    (recounts_treeWithin levelLimit ht c).forget
  obtain rfl : ms = ms₀ := hms
  refine ⟨.executing t :: ms, _,
    tells_noting (Tree.render_eq_text ht) .executing rfl hs, ?_,
    ms, r₀, hn, rfl, hr⟩
  exact congrArg (Event.executing t.text :: ·) hevents

/-- Running a program without foreign nodes has a narration. -/
theorem recounts_program {ts : List Tree} (h : areNative ts = true) (c : Chain) :
    Recounts (program ts) c (NarratesProgram ts c) :=
  recounts_forM recounts_statement ts h c

end Run

end RoxLang
