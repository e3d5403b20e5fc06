/-
# `RoxLang.Proofs.Session` — what feeding a source comes to

Feeding a source to a machine is reading it, which can touch nothing but the trace, and running
what was read.  A source that is no program has no statements to run.
-/
import RoxLang.Proofs.Run.Gives
import RoxLang.Session

namespace RoxLang

namespace Machine

/-- A machine with events noted one after the other. -/
def noteAll (m : Machine) (events : List Event) : Machine := events.foldl (fun m e => m.note e) m

@[simp] theorem noteAll_scopes : ∀ (events : List Event) (m : Machine),
    (m.noteAll events).scopes = m.scopes
  | [], _ => rfl
  | e :: events, m => (noteAll_scopes events (m.note e)).trans (Run.note_scopes m e)

@[simp] theorem noteAll_printed : ∀ (events : List Event) (m : Machine),
    (m.noteAll events).printed = m.printed
  | [], _ => rfl
  | e :: events, m => (noteAll_printed events (m.note e)).trans (Run.note_printed m e)

@[simp] theorem noteAll_verbosity : ∀ (events : List Event) (m : Machine),
    (m.noteAll events).verbosity = m.verbosity
  | [], _ => rfl
  | e :: events, m => (noteAll_verbosity events (m.note e)).trans (Run.note_verbosity m e)

end Machine

/-- The statements of a source that will run.  A source that is no program has none. -/
def FrontEnd.statements (frontEnd : FrontEnd) (source : String) : List Tree :=
  (frontEnd.read source).2.toOption.getD []

/-- The outcome of a source that reads as a program. -/
def ranProgram (trees : List Tree) (r : Except RunFault Unit) : Except ProgramFault (List Tree) :=
  match r with
  | .ok () => .ok trees
  | .error f => .error (.run f)

section

variable {frontEnd : FrontEnd} {source : String}

theorem feed_of_error {f : ProgramFault} (h : (frontEnd.read source).2 = .error f) (m : Machine) :
    m.feed frontEnd source = (.error f, m.noteAll (frontEnd.read source).1) := by
  unfold Machine.feed
  rcases hread : frontEnd.read source with ⟨notes, reading⟩
  rw [hread] at h
  obtain rfl : reading = .error f := h
  rfl

theorem feed_of_ok {trees : List Tree} (h : (frontEnd.read source).2 = .ok trees) (m : Machine) :
    m.feed frontEnd source =
      let run := (m.noteAll (frontEnd.read source).1).runProgram trees
      (ranProgram trees run.1, run.2) := by
  unfold Machine.feed Machine.noteAll
  rcases hread : frontEnd.read source with ⟨notes, reading⟩
  rw [hread] at h
  obtain rfl : reading = .ok trees := h
  dsimp only
  rcases Machine.runProgram _ trees with ⟨_ | _, _⟩ <;> rfl

/-- A source leaves the scopes that its statements leave. -/
theorem feed_scopes (frontEnd : FrontEnd) (source : String) (m : Machine) :
    ∃ m₀ : Machine, m₀.scopes = m.scopes ∧ (m.feed frontEnd source).2.scopes
      = (m₀.runProgram (frontEnd.statements source)).2.scopes := by
  refine ⟨m.noteAll (frontEnd.read source).1, Machine.noteAll_scopes _ m, ?_⟩
  unfold FrontEnd.statements
  cases h : (frontEnd.read source).2 with
  | error f =>
      rw [feed_of_error h]
      rfl
  | ok trees =>
      rw [feed_of_ok h]
      rfl

end

end RoxLang
