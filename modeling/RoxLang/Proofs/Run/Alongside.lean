/-
# `RoxLang.Proofs.Run.Alongside` — two runs side by side

Two runs go alongside each other when, started on machines that are related, they end in the same
way on machines that are related again: both with values, themselves related, or both with the very
same fault.  What the relation on machines says is left open.  One law for each way of building
runs then carries it from the steps of a run to the whole.

Noting a tree is the one step that may fail in one run and not in the other, because a foreign node
has no text.  Both runs stop there, and with one fault, where the two trees have the same foreign
node first.
-/
import RoxLang.Proofs.Run.Gives
import RoxLang.Proofs.Tree.Alike

namespace RoxLang.Run

/-- Two outcomes are values that are related, or the same fault. -/
inductive SameEnd {α β : Type} (R : α → β → Prop) : Except RunFault α → Except RunFault β → Prop
  | ok {a : α} {b : β} : R a b → SameEnd R (.ok a) (.ok b)
  | error (f : RunFault) : SameEnd R (.error f) (.error f)

theorem SameEnd.of_eq {α : Type} {r r' : Except RunFault α} (h : r = r') : SameEnd Eq r r' := by
  subst h
  cases r with
  | ok a => exact .ok rfl
  | error f => exact .error f

theorem SameEnd.eq {α : Type} {r r' : Except RunFault α} (h : SameEnd Eq r r') : r = r' := by
  cases h with
  | ok h => rw [h]
  | error f => rfl

/-- From related machines, two runs end in the same way and leave related machines. -/
def Alongside {α β : Type} (S : Machine → Machine → Prop) (R : α → β → Prop) (run : Run α)
    (run' : Run β) : Prop :=
  ∀ m m' : Machine, S m m' →
    SameEnd R (run.on m).1 (run'.on m').1 ∧ S (run.on m).2 (run'.on m').2

section

variable {α β γ δ : Type} {S : Machine → Machine → Prop} {R : α → β → Prop} {Q : γ → δ → Prop}

theorem alongside_pure {a : α} {b : β} (h : R a b) : Alongside S R (pure a) (pure b) :=
  fun _ _ hm => ⟨.ok h, hm⟩

theorem alongside_throw (f : RunFault) : Alongside S R (throw f) (throw f) :=
  fun _ _ hm => ⟨.error f, hm⟩

theorem alongside_ofResult {r : Except RunFault α} {r' : Except RunFault β} (h : SameEnd R r r') :
    Alongside S R (ofResult r) (ofResult r') := by
  cases h with
  | ok h => exact alongside_pure h
  | error f => exact alongside_throw f

theorem alongside_modify {f f' : Machine → Machine} (h : ∀ m m', S m m' → S (f m) (f' m')) :
    Alongside S Eq (modify f : Run Unit) (modify f') :=
  fun m m' hm => ⟨.ok rfl, h m m' hm⟩

theorem Alongside.bind {run : Run α} {run' : Run β} {k : α → Run γ} {k' : β → Run δ}
    (h : Alongside S R run run') (hk : ∀ a b, R a b → Alongside S Q (k a) (k' b)) :
    Alongside S Q (run >>= k) (run' >>= k') := by
  intro m m' hm
  rw [on_bind, on_bind]
  obtain ⟨hend, hleft⟩ := h m m' hm
  rcases hr : run.on m with ⟨r, m₁⟩
  rcases hr' : run'.on m' with ⟨r', m₁'⟩
  rw [hr, hr'] at hend hleft
  cases hend with
  | ok hab => exact hk _ _ hab m₁ m₁' hleft
  | error f => exact ⟨.error f, hleft⟩

/-- One run after another, where the second does not depend on what the first gave. -/
theorem Alongside.andThen {run run' : Run Unit} {k : Run γ} {k' : Run δ}
    (h : Alongside S Eq run run') (hk : Alongside S Q k k') :
    Alongside S Q (run >>= fun _ => k) (run' >>= fun _ => k') :=
  h.bind fun _ _ _ => hk

/-- What runs after the machine has been looked at may depend on what was seen. -/
theorem alongside_get {k k' : Machine → Run γ} {Q : γ → γ → Prop}
    (hk : ∀ m m', S m m' → Alongside S Q (k m) (k' m')) :
    Alongside S Q (get >>= k) (get >>= k') := by
  intro m m' hm
  rw [on_bind, on_bind, on_get, on_get]
  exact hk m m' hm m m' hm

theorem Alongside.forM {T : Tree → Tree → Prop} {body body' : Tree → Run Unit}
    (hbody : ∀ t t', T t t' → Alongside S Eq (body t) (body' t')) {ts ts' : List Tree}
    (h : List.Forall₂ T ts ts') : Alongside S Eq (ts.forM body) (ts'.forM body') := by
  induction h with
  | nil => exact alongside_pure rfl
  | cons ht _ ih => exact (hbody _ _ ht).andThen ih

/-- Runs in a scope of their own, whose bodies keep a relation of their own. -/
theorem alongside_inScope {I : Machine → Machine → Prop} {body body' : Run Unit}
    (henter : ∀ m m', S m m' → I m.enter m'.enter) (hbody : Alongside I Eq body body')
    (hleave : ∀ m m', I m m' → S m.leave m'.leave) :
    Alongside S Eq (inScope body) (inScope body') := by
  intro m m' hm
  rw [on_inScope, on_inScope]
  obtain ⟨hend, hleft⟩ := hbody _ _ (henter m m' hm)
  exact ⟨hend, hleave _ _ hleft⟩

end

/-! ## Relations that do not see the trace -/

/-- A relation that noting cannot disturb. -/
structure Untraced (S : Machine → Machine → Prop) : Prop where
  notes {m m' : Machine} (level : Nat) : S m m' → m.notes level = m'.notes level
  unseen {m m' : Machine} (e e' : Event) : S m m' → S (m.note e) (m'.note e')

theorem alongside_textOf {S : Machine → Machine → Prop} {t t' : Tree}
    (h : t.firstForeign? = t'.firstForeign?) :
    Alongside S (fun _ _ => True) (textOf t) (textOf t') := by
  refine alongside_ofResult ?_
  rw [Tree.render_eq_plainText, Tree.render_eq_plainText]
  rcases t.plainText_cases with ⟨hforeign, text, htext⟩ | ⟨className, hforeign, htext⟩
  · rcases t'.plainText_cases with ⟨-, text', htext'⟩ | ⟨_, hforeign', -⟩
    · rw [htext, htext']
      exact .ok trivial
    · rw [← h, hforeign] at hforeign'
      cases hforeign'
  · rcases t'.plainText_cases with ⟨hforeign', -⟩ | ⟨_, hforeign', htext'⟩
    · rw [← h, hforeign] at hforeign'
      cases hforeign'
    · rw [← h, hforeign] at hforeign'
      cases hforeign'
      rw [htext, htext']
      exact .error _

/-- Noting trees before going on, where the notes of the one run may differ from those of the
other. -/
theorem alongside_noting {S : Machine → Machine → Prop} (hS : Untraced S) {t t' : Tree}
    (ht : t.firstForeign? = t'.firstForeign?) (level : Nat) (event event' : String → Event)
    {α β : Type} {R : α → β → Prop} {k : Run α} {k' : Run β} (hk : Alongside S R k k') :
    Alongside S R
      (do
        if (← get).notes level then
          note (event (← textOf t))
        k)
      (do
        if (← get).notes level then
          note (event' (← textOf t'))
        k') := by
  intro m m' hm
  rw [on_bind, on_bind, on_get, on_get]
  simp only [hS.notes level hm]
  split
  · refine Alongside.bind (alongside_textOf ht) (fun text text' _ => ?_) m m' hm
    exact (alongside_modify fun m m' hm => hS.unseen _ _ hm).andThen hk
  · exact hk m m' hm

end RoxLang.Run
