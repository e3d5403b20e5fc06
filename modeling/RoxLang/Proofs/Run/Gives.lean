/-
# `RoxLang.Proofs.Run.Gives` — what a run prints, leaves and ends with

A run is seen from outside by the lines that it prints, the scopes that it leaves and its outcome.
`Gives` says these three of a run from a machine and says nothing about the trace, so that the laws
for building runs become laws about what is seen: one run after another prints the lines of both, a
scope of its own is gone afterwards, and noting does not show.

Noting can fail, because a foreign node has no text.  It cannot where nothing is noted, nor where
all that may be noted has a text.
-/
import RoxLang.Proofs.Tree.Plain
import RoxLang.Run.Evaluation

namespace RoxLang.Run

/-- From a machine, a run prints these lines, leaves these scopes and ends with this outcome.  What
it notes is left open. -/
def Gives {α : Type} (run : Run α) (m : Machine) (out : List String) (c : Chain)
    (r : Except RunFault α) : Prop :=
  ∃ m', run.on m = (r, m') ∧ m'.scopes = c ∧ m'.printed.toList = m.printed.toList ++ out ∧
    m'.verbosity = m.verbosity

theorem gives_pure {α : Type} (a : α) (m : Machine) : Gives (pure a) m [] m.scopes (.ok a) :=
  ⟨m, on_pure a m, rfl, (List.append_nil _).symm, rfl⟩

theorem gives_throw {α : Type} (f : RunFault) (m : Machine) :
    Gives (throw f : Run α) m [] m.scopes (.error f) :=
  ⟨m, on_throw f m, rfl, (List.append_nil _).symm, rfl⟩

theorem Gives.bind {α β : Type} {run : Run α} {k : α → Run β} {m : Machine}
    {out₁ out₂ : List String} {c₁ c₂ : Chain} {a : α} {r : Except RunFault β}
    (h : Gives run m out₁ c₁ (.ok a))
    (hk : ∀ m₁ : Machine, m₁.scopes = c₁ → m₁.verbosity = m.verbosity →
      Gives (k a) m₁ out₂ c₂ r) : Gives (run >>= k) m (out₁ ++ out₂) c₂ r := by
  obtain ⟨m₁, hrun, hc, hout, hv⟩ := h
  obtain ⟨m₂, hrun₂, hc₂, hout₂, hv₂⟩ := hk m₁ hc hv
  refine ⟨m₂, ?_, hc₂, ?_, hv₂.trans hv⟩
  · rw [on_bind, hrun]
    exact hrun₂
  · rw [hout₂, hout, List.append_assoc]

/-- A run goes on with something that prints nothing. -/
theorem Gives.bind_silent {α β : Type} {run : Run α} {k : α → Run β} {m : Machine}
    {out : List String} {c₁ c₂ : Chain} {a : α} {r : Except RunFault β}
    (h : Gives run m out c₁ (.ok a))
    (hk : ∀ m₁ : Machine, m₁.scopes = c₁ → m₁.verbosity = m.verbosity →
      Gives (k a) m₁ [] c₂ r) : Gives (run >>= k) m out c₂ r := by
  rw [← List.append_nil out]
  exact h.bind hk

theorem Gives.bind_error {α β : Type} {run : Run α} {m : Machine} {out : List String} {c : Chain}
    {f : RunFault} (h : Gives run m out c (.error f)) (k : α → Run β) :
    Gives (run >>= k) m out c (.error f) := by
  obtain ⟨m', hrun, hc, hout, hv⟩ := h
  refine ⟨m', ?_, hc, hout, hv⟩
  rw [on_bind, hrun]

theorem Gives.bind_pure {α β : Type} {run : Run α} {m : Machine} {out : List String} {c : Chain}
    {a : α} (h : Gives run m out c (.ok a)) (b : β) :
    Gives (run >>= fun _ => pure b) m out c (.ok b) := by
  refine h.bind_silent fun m₁ hm₁ _ => ?_
  rw [← hm₁]
  exact gives_pure b m₁

theorem gives_ofResult {α : Type} (r : Except RunFault α) (m : Machine) :
    Gives (ofResult r) m [] m.scopes r := by
  cases r with
  | ok a => exact gives_pure a m
  | error f => exact gives_throw f m

theorem note_scopes (m : Machine) (e : Event) : (m.note e).scopes = m.scopes := by
  unfold Machine.note
  split <;> rfl

theorem note_printed (m : Machine) (e : Event) : (m.note e).printed = m.printed := by
  unfold Machine.note
  split <;> rfl

theorem note_verbosity (m : Machine) (e : Event) : (m.note e).verbosity = m.verbosity := by
  unfold Machine.note
  split <;> rfl

theorem gives_note (e : Event) (m : Machine) : Gives (note e) m [] m.scopes (.ok ()) :=
  ⟨m.note e, on_modify _ m, note_scopes m e, by rw [note_printed, List.append_nil],
    note_verbosity m e⟩

/-! ## Single steps -/

theorem gives_printLine (v : Value) (m : Machine) :
    Gives (printLine v.text) m [v.text ++ "\n"] m.scopes (.ok ()) :=
  ⟨_, on_modify _ m, rfl, Array.toList_push, rfl⟩

theorem gives_get {β : Type} {k : Machine → Run β} {m : Machine} {out : List String} {c : Chain}
    {r : Except RunFault β} (h : Gives (k m) m out c r) : Gives (get >>= k) m out c r := by
  obtain ⟨m', hrun, hrest⟩ := h
  exact ⟨m', by rw [on_bind, on_get]; exact hrun, hrest⟩

theorem gives_setScopes (f : Chain → Chain) (m : Machine) :
    Gives (modify fun m => { m with scopes := f m.scopes }) m [] (f m.scopes) (.ok ()) :=
  ⟨_, on_modify _ m, rfl, (List.append_nil _).symm, rfl⟩

theorem gives_read {name : String} {v : Value} {m : Machine} (h : m.scopes.get? name = some v) :
    Gives (read name) m [] m.scopes (.ok v) := by
  refine gives_get ?_
  rw [h]
  exact gives_pure v m

theorem gives_read_none {name : String} {m : Machine} (h : m.scopes.get? name = none) :
    Gives (read name) m [] m.scopes (.error (.undefinedVariable name)) := by
  refine gives_get ?_
  rw [h]
  exact gives_throw _ m

theorem gives_assign {name : String} {v : Value} {m : Machine} {c : Chain}
    (h : m.scopes.assign? name v = some c) : Gives (assign name v) m [] c (.ok ()) := by
  refine gives_get ?_
  rw [h]
  refine (gives_setScopes (fun _ => c) m).bind_silent fun m₁ hc _ => ?_
  rw [← hc]
  exact gives_note _ m₁

theorem gives_assign_none {name : String} {v : Value} {m : Machine}
    (h : m.scopes.assign? name v = none) :
    Gives (assign name v) m [] m.scopes (.error (.undefinedVariable name)) := by
  refine gives_get ?_
  rw [h]
  exact gives_throw _ m

theorem gives_declare (name : String) (v : Value) (m : Machine) :
    Gives (declare name v) m [] (m.scopes.define name v) (.ok ()) := by
  refine (gives_setScopes (Chain.define name v) m).bind_silent fun m₁ hc _ => ?_
  rw [← hc]
  exact gives_note _ m₁

/-- A scope of its own is gone again, whatever the body's outcome. -/
theorem gives_inScope {body : Run Unit} {m : Machine} {out : List String} (fresh : Scope)
    {c : Chain} {r : Except RunFault Unit}
    (h : ∀ m₁ : Machine, m₁.scopes = Scope.empty :: m.scopes → m₁.verbosity = m.verbosity →
      Gives body m₁ out (fresh :: c) r) : Gives (inScope body) m out c r := by
  obtain ⟨m', hrun, hc, hout, hv⟩ := h m.enter (note_scopes _ _) (note_verbosity _ _)
  refine ⟨m'.leave, ?_, ?_, ?_, ?_⟩
  · rw [on_inScope, hrun]
  · rw [Machine.leave, note_scopes, hc]
    rfl
  · rw [Machine.leave, note_printed, hout, Machine.enter, note_printed]
  · rw [Machine.leave, note_verbosity, hv]
    exact note_verbosity _ _

/-! ## Noting values and statements -/

/-- At this verbosity nothing is noted, or else everything there is has a text. -/
def Tellable (verbosity : Int) (native : Bool) : Prop := verbosity ≤ 0 ∨ native = true

theorem Tellable.native {m : Machine} {native : Bool} (h : Tellable m.verbosity native)
    {level : Nat} (hlevel : 0 < level) (hnotes : m.notes level = true) : native = true := by
  rcases h with h | h
  · simp only [Machine.notes, decide_eq_true_eq] at hnotes
    omega
  · exact h

theorem gives_textOf {t : Tree} (h : t.isNative = true) (m : Machine) :
    ∃ text, Gives (textOf t) m [] m.scopes (.ok text) := by
  obtain ⟨text, htext⟩ := Tree.exists_render h
  refine ⟨text, ?_⟩
  rw [textOf, htext]
  exact gives_pure text m

/-- Noting a tree, if its level is noted, does not show in what comes after it. -/
theorem gives_noting {t : Tree} {m : Machine} (h : Tellable m.verbosity t.isNative) {level : Nat}
    (hlevel : 0 < level) (event : String → Event) {β : Type} {k : Run β} {out : List String}
    {c : Chain} {r : Except RunFault β}
    (hk : ∀ m₁ : Machine, m₁.scopes = m.scopes → m₁.verbosity = m.verbosity → Gives k m₁ out c r) :
    Gives (do
      if (← get).notes level then
        note (event (← textOf t))
      k) m out c r := by
  refine gives_get ?_
  split
  · next hnotes =>
      obtain ⟨text, htext⟩ := gives_textOf (h.native hlevel hnotes) m
      refine htext.bind fun m₁ hc₁ hv₁ => ?_
      refine (gives_note (event text) m₁).bind fun m₂ hc₂ hv₂ => ?_
      exact hk m₂ (hc₂.trans hc₁) (hv₂.trans hv₁)
  · exact hk m rfl rfl

end RoxLang.Run
