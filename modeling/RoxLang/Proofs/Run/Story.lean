/-
# `RoxLang.Proofs.Run.Story` — what a run does, whatever is noted of it

A run looks at two things of its machine: at the scopes, and at the verbosity to see whether it has
to note something.  So on given scopes it comes to the same end, leaves the same scopes, prints the
same lines and meets the same events in the same order, on whatever machine.  That is its story.
The verbosity picks the events of the story that are noted, and decides nothing else.

`Tells act c s` says that `s` is the story of `act` on the scopes `c`.  There is one law for each
way of building a run, and each makes the story of the whole from the stories of the parts.  A
foreign node has no text: there a run that has to note the node stops where a run that has not goes
on, and the two have no story in common.  So the law for noting a tree asks for its text.
-/
import RoxLang.Proofs.Run.Refinement

namespace RoxLang

/-- The events whose level is noted at some verbosity. -/
def Event.upTo (verbosity : Int) (events : List Event) : List Event :=
  events.filter fun e => (e.level : Int) ≤ verbosity

theorem Event.upTo_append (verbosity : Int) (es es' : List Event) :
    upTo verbosity (es ++ es') = upTo verbosity es ++ upTo verbosity es' := List.filter_append ..

/-- What is noted at a verbosity is noted at every higher one. -/
theorem Event.upTo_upTo {j k : Int} (h : j ≤ k) (events : List Event) :
    upTo j (upTo k events) = upTo j events := by
  rw [upTo, upTo, List.filter_filter]
  refine List.filter_congr fun e _ => ?_
  simp only [Bool.and_eq_left_iff_imp, decide_eq_true_eq]
  exact fun he => Int.le_trans he h

theorem Event.one_le_level (e : Event) : 1 ≤ e.level := by
  cases e <;> exact Nat.succ_pos _

/-- Below the first level nothing is noted. -/
theorem Event.upTo_eq_nil {j : Int} (h : j ≤ 0) (events : List Event) : upTo j events = [] := by
  refine List.filter_eq_nil_iff.mpr fun e _ => ?_
  have := e.one_le_level
  simp only [decide_eq_true_eq]
  omega

/-- What is done on given scopes: the outcome, the scopes left, the lines printed, and all events,
noted or not. -/
structure Story (ρ : Type) where
  outcome : ρ
  scopes : Chain
  lines : List String
  events : List Event

namespace Story

variable {ρ σ : Type}

/-- Nothing happens. -/
def still (outcome : ρ) (c : Chain) : Story ρ := ⟨outcome, c, [], []⟩

/-- One event, and nothing else. -/
def event (e : Event) (c : Chain) : Story (Except RunFault Unit) := ⟨.ok (), c, [], [e]⟩

/-- One story after another, with the outcome of the second. -/
def andThen (s : Story ρ) (s' : Story σ) : Story σ :=
  ⟨s'.outcome, s'.scopes, s.lines ++ s'.lines, s.events ++ s'.events⟩

/-- The same story with another outcome. -/
def ending (s : Story ρ) (outcome : σ) : Story σ := ⟨outcome, s.scopes, s.lines, s.events⟩

end Story

/-! ## Machines after a story -/

namespace Machine

variable {ρ σ : Type}

/-- The machine after a story, of whose events it has noted those up to its verbosity. -/
def after (m : Machine) (s : Story ρ) : Machine where
  scopes := s.scopes
  printed := (m.printed.toList ++ s.lines).toArray
  trace := (m.trace.toList ++ Event.upTo m.verbosity s.events).toArray
  verbosity := m.verbosity

theorem after_still (m : Machine) (outcome : ρ) : m.after (.still outcome m.scopes) = m := by
  simp only [after, Story.still, Event.upTo, List.filter_nil, List.append_nil]

theorem after_after (m : Machine) (s : Story ρ) (s' : Story σ) :
    (m.after s).after s' = m.after (s.andThen s') := by
  simp only [after, Story.andThen, Event.upTo_append, List.append_assoc]

theorem note_eq_after (m : Machine) (e : Event) : m.note e = m.after (.event e m.scopes) := by
  have hprinted : m.printed = (m.printed.toList ++ []).toArray := by rw [List.append_nil]
  unfold note
  split
  · next h =>
      have htrace : Event.upTo m.verbosity [e] = [e] := List.filter_cons_of_pos h
      rw [after, Story.event, htrace, ← hprinted, ← List.push_toArray]
  · next h =>
      have htrace : Event.upTo m.verbosity [e] = [] := List.filter_cons_of_neg h
      rw [after, Story.event, htrace, ← hprinted, List.append_nil]

end Machine

/-- What is done on the scopes `c`, on any machine that has them, is the story `s`. -/
def Tells {ρ : Type} (act : Machine → ρ × Machine) (c : Chain) (s : Story ρ) : Prop :=
  ∀ m : Machine, m.scopes = c → act m = (s.outcome, m.after s)

namespace Run

section

variable {α β : Type}

theorem tells_pure (a : α) (c : Chain) : Tells (pure a : Run α).on c (.still (.ok a) c) := by
  rintro m rfl
  rw [m.after_still]
  exact on_pure a m

theorem tells_throw (f : RunFault) (c : Chain) :
    Tells (throw f : Run α).on c (.still (.error f) c) := by
  rintro m rfl
  rw [m.after_still]
  exact on_throw f m

theorem tells_bind_ok {run : Run α} {k : α → Run β} {c : Chain} {s : Story (Except RunFault α)}
    {s' : Story (Except RunFault β)} {a : α} (h : Tells run.on c s) (ha : s.outcome = .ok a)
    (hk : Tells (k a).on s.scopes s') : Tells (run >>= k).on c (s.andThen s') := by
  intro m hm
  rw [on_bind, h m hm, ha, ← m.after_after]
  exact hk (m.after s) rfl

theorem tells_bind_error {run : Run α} {c : Chain} {s : Story (Except RunFault α)} {f : RunFault}
    (h : Tells run.on c s) (hf : s.outcome = .error f) (k : α → Run β) :
    Tells (run >>= k).on c (s.ending (.error f)) := by
  intro m hm
  rw [on_bind, h m hm, hf]
  rfl

theorem tells_ofResult (r : Except RunFault α) (c : Chain) :
    Tells (ofResult r).on c (.still r c) := by
  cases r with
  | ok a => exact tells_pure a c
  | error f => exact tells_throw f c

/-! ## Single steps -/

theorem tells_setScopes (f : Chain → Chain) (c : Chain) :
    Tells (modify fun m => { m with scopes := f m.scopes } : Run Unit).on c
      (.still (.ok ()) (f c)) := by
  rintro m rfl
  rw [on_modify]
  simp only [Machine.after, Story.still, Event.upTo, List.filter_nil, List.append_nil]

theorem tells_note (e : Event) (c : Chain) : Tells (note e).on c (.event e c) := by
  rintro m rfl
  rw [← m.note_eq_after]
  exact on_modify _ m

/-- The scopes are changed and the change is noted. -/
theorem tells_change (f : Chain → Chain) (e : Event) (c : Chain) : Tells (do
      modify fun m => { m with scopes := f m.scopes }
      note e : Run Unit).on c (.event e (f c)) := by
  have hboth := tells_bind_ok (k := fun _ => note e) (tells_setScopes f c) rfl (tells_note e (f c))
  exact hboth

theorem tells_printLine (text : String) (c : Chain) :
    Tells (printLine text).on c ⟨.ok (), c, [text ++ "\n"], []⟩ := by
  rintro m rfl
  rw [printLine, on_modify]
  simp only [Machine.after, Event.upTo, List.filter_nil, List.append_nil, ← List.push_toArray]

section

variable {name : String} {v : Value} {c c' : Chain}

theorem tells_read (h : c.get? name = some v) :
    Tells (read name).on c (.still (.ok v) c) := by
  rintro m rfl
  rw [read, on_bind, on_get]
  simp only [h]
  exact tells_pure v _ m rfl

theorem tells_read_none (h : c.get? name = none) :
    Tells (read name).on c (.still (.error (.undefinedVariable name)) c) := by
  rintro m rfl
  rw [read, on_bind, on_get]
  simp only [h]
  exact tells_throw _ _ m rfl

theorem tells_assign (h : c.assign? name v = some c') :
    Tells (assign name v).on c (.event (.assigned name v) c') := by
  rintro m rfl
  rw [assign, on_bind, on_get]
  simp only [h]
  exact tells_change (fun _ => c') (.assigned name v) m.scopes m rfl

theorem tells_assign_none (h : c.assign? name v = none) :
    Tells (assign name v).on c (.still (.error (.undefinedVariable name)) c) := by
  rintro m rfl
  rw [assign, on_bind, on_get]
  simp only [h]
  exact tells_throw _ _ m rfl

end

theorem tells_declare (name : String) (v : Value) (c : Chain) :
    Tells (declare name v).on c (.event (.declared name v) (c.define name v)) :=
  tells_change (Chain.define name v) (.declared name v) c

/-- The body's story lies between the opening of its scope and the closing, however it ends. -/
theorem tells_inScope {body : Run Unit} {c : Chain} {s : Story (Except RunFault Unit)}
    (h : Tells body.on (Scope.empty :: c) s) :
    Tells (inScope body).on c ⟨s.outcome, s.scopes.tail, s.lines,
      .pushed (Chain.depth (Scope.empty :: c)) ::
        (s.events ++ [.popped (Chain.depth s.scopes.tail)])⟩ := by
  let opened : Chain := Scope.empty :: c
  let push : Story Unit := ⟨(), opened, [], [.pushed opened.depth]⟩
  let pop : Story Unit := ⟨(), s.scopes.tail, [], [.popped (Chain.depth s.scopes.tail)]⟩
  rintro m rfl
  have henter : m.enter = m.after push := by
    rw [Machine.enter, Machine.note_eq_after]
    rfl
  have hleave : (m.enter.after s).leave = (m.enter.after s).after pop := by
    rw [Machine.leave, Machine.note_eq_after]
    rfl
  have hlines : s.lines = push.lines ++ s.lines ++ pop.lines := (List.append_nil _).symm
  rw [on_inScope, h m.enter (note_scopes _ _), hleave, henter, Machine.after_after,
    Machine.after_after, hlines]
  rfl

/-! ## Noting trees -/

/-- Noting a tree that has a text is one event, since an event is noted when its level is. -/
theorem tells_noting {t : Tree} {text : String} (htext : t.render = .ok text)
    (event : String → Event) {level : Nat} (hlevel : (event text).level = level) {k : Run β}
    {c : Chain} {s : Story (Except RunFault β)} (hk : Tells k.on c s) : Tells (Run.on do
      if (← get).notes level then
        note (event (← textOf t))
      k) c ((Story.event (event text) c).andThen s) := by
  intro m hm
  -- The text is made only where it is noted, and to make it changes nothing: the run is the one
  -- that notes the event in any case.
  have hnoted := tells_bind_ok (k := fun _ => k) (tells_note (event text) c) rfl hk m hm
  rw [← hnoted, on_bind, on_get, on_bind]
  have hnote : (note (event text)).on m = (.ok (), m.note (event text)) := on_modify _ m
  have htextOf : (textOf t).on m = (.ok text, m) := by
    rw [textOf, htext]
    exact on_pure text m
  rw [hnote]
  dsimp only
  split
  · next hnotes =>
      rw [on_bind, htextOf]
      dsimp only
      rw [on_bind, hnote]
  · next hnotes =>
      rw [Machine.note, hlevel, if_neg hnotes]

end

end Run

end RoxLang
