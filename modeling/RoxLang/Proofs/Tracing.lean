/-
# `RoxLang.Proofs.Tracing` — tracing a source changes nothing but its trace

Feeding a source has a story: the events of the reading, and then, if there is a program, the story
of its run.  Two machines on the same scopes live through the same story, so they differ in their
traces alone; and each of these is the part of the story's events that its machine notes.  Since a
higher verbosity notes whatever a lower one does, the shorter trace is read off the longer.
-/
import RoxLang.Proofs.Reading
import RoxLang.Proofs.Run.Narration
import RoxLang.Tree.Equality

namespace RoxLang

/-- The story of a reading: its events. -/
def Story.noted (events : List Event) (c : Chain) : Story Unit := ⟨(), c, [], events⟩

theorem Machine.noteAll_eq_after (m : Machine) (events : List Event) :
    m.noteAll events = m.after (.noted events m.scopes) := by
  induction events generalizing m with
  | nil => exact (m.after_still ()).symm
  | cons e events ih =>
      have hone := ih (m.note e)
      rw [Run.note_scopes, m.note_eq_after, Machine.after_after] at hone
      have hall : m.noteAll (e :: events) = (m.note e).noteAll events := rfl
      rw [hall, m.note_eq_after, hone]
      rfl

/-- What is noted of a reading is of the first level. -/
theorem level_of_read (frontEnd : FrontEnd) (source : String) :
    ∀ e ∈ (frontEnd.read source).1, e.level = 1 := by
  cases frontEnd with
  | automaton => exact List.forall_mem_nil _
  | descent =>
      simp only [FrontEnd.read]
      split
      · exact List.forall_mem_nil _
      · split
        · exact List.forall_mem_singleton.mpr rfl
        · exact List.forall_mem_cons.mpr ⟨rfl, List.forall_mem_singleton.mpr rfl⟩

section

variable {frontEnd : FrontEnd} {source : String} {c : Chain}

/-- A source that is no program is read, and that is all. -/
theorem tells_feed_of_error {f : ProgramFault} (h : (frontEnd.read source).2 = .error f) :
    Tells (fun m => m.feed frontEnd source) c
      ((Story.noted (frontEnd.read source).1 c).ending (.error f)) := by
  rintro m rfl
  refine (feed_of_error h m).trans ?_
  rw [m.noteAll_eq_after]
  rfl

/-- A source that is a program is read, and then it is run. -/
theorem tells_feed_of_ok {trees : List Tree} (h : (frontEnd.read source).2 = .ok trees)
    {s : Story (Except RunFault Unit)} (hs : Tells (Run.program trees).on c s) :
    Tells (fun m => m.feed frontEnd source) c
      (((Story.noted (frontEnd.read source).1 c).andThen s).ending
        (ranProgram trees s.outcome)) := by
  rintro m rfl
  let reading : Story Unit := .noted (frontEnd.read source).1 m.scopes
  have hrun : (m.after reading).runProgram trees = (s.outcome, (m.after reading).after s) :=
    hs (m.after reading) rfl
  refine (feed_of_ok h m).trans ?_
  rw [m.noteAll_eq_after]
  dsimp only
  rw [hrun, Machine.after_after]
  rfl

end

/-- Feeding a source has a story, whose events are those of the reading and of what happens when the
statements of the source are run. -/
theorem exists_narration_feed (frontEnd : FrontEnd) (source : String) (c : Chain) :
    ∃ ms r s, NarratesProgram (frontEnd.statements source) c ms s.scopes r ∧
      Tells (fun m => m.feed frontEnd source) c s ∧
      s.events = (frontEnd.read source).1 ++ Moment.events ms ∧
      ∀ trees, (frontEnd.read source).2 = .ok trees → s.outcome = ranProgram trees r := by
  cases hread : (frontEnd.read source).2 with
  | error f =>
      refine ⟨[], .ok (), _, ?_, tells_feed_of_error hread, (List.append_nil _).symm, ?_⟩
      · rw [FrontEnd.statements, hread]
        exact .nil
      · intro trees htrees
        cases htrees
  | ok trees =>
      obtain ⟨ms, s, hs, hevents, hn⟩ := Run.recounts_program (areNative_of_read hread) c
      refine ⟨ms, s.outcome, _, ?_, tells_feed_of_ok hread hs, congrArg _ hevents, ?_⟩
      · rw [FrontEnd.statements, hread]
        exact hn
      · rintro _ ⟨⟩
        rfl

theorem exists_tells_feed (frontEnd : FrontEnd) (source : String) (c : Chain) :
    ∃ s, Tells (fun m => m.feed frontEnd source) c s := by
  obtain ⟨-, -, s, -, hs, -⟩ := exists_narration_feed frontEnd source c
  exact ⟨s, hs⟩

/-- Tracing only observes.  At two verbosities a source comes to the same end, prints the same and
leaves the same scopes, whether or not it is a program and whether or not that runs to its end.
The trace at the lower one is what the trace at the higher one has up to that level, and at zero or
below it is empty. -/
theorem feed_observed (frontEnd : FrontEnd) (source : String) (c : Chain) {j k : Int} (h : j ≤ k) :
    let quiet := (Machine.start c j).feed frontEnd source
    let loud := (Machine.start c k).feed frontEnd source
    quiet.1 = loud.1 ∧ quiet.2.printed = loud.2.printed ∧ quiet.2.scopes = loud.2.scopes ∧
      quiet.2.trace.toList = Event.upTo j loud.2.trace.toList ∧
      (j ≤ 0 → quiet.2.trace.toList = []) := by
  intro quiet loud
  obtain ⟨s, hs⟩ := exists_tells_feed frontEnd source c
  have hquiet : quiet = (s.outcome, (Machine.start c j).after s) := hs _ rfl
  have hloud : loud = (s.outcome, (Machine.start c k).after s) := hs _ rfl
  have htrace (v : Int) : ((Machine.start c v).after s).trace.toList = Event.upTo v s.events := rfl
  rw [hquiet, hloud]
  refine ⟨rfl, rfl, rfl, ?_, ?_⟩
  · rw [htrace, htrace, Event.upTo_upTo h]
  · intro hj
    rw [htrace, Event.upTo_eq_nil hj]

/-- `{ print nil; } b;` stops in its second statement; at the first level the trace has the
statements, at the third the values and the scope as well. -/
theorem feed_observed_stopped :
    let quiet := (Machine.start [Scope.empty] 1).feed .descent "\x7b print nil; \x7d b;"
    let loud := (Machine.start [Scope.empty] 3).feed .descent "\x7b print nil; \x7d b;"
    let block : Event := .executing "(block (print nil))"
    (1 : Int) ≤ 3 ∧ quiet.1 = loud.1 ∧
      quiet.2.trace.toList = Event.upTo 1 loud.2.trace.toList ∧
      loud.1 = .error (.run (.undefinedVariable "b")) ∧
      loud.2.trace.toList = [.scanned 8, .parsed 2, block, .pushed 1, .evaluated "nil" .nil,
        .popped 0, .executing "(; b)"] := by
  have hle : (1 : Int) ≤ 3 := by decide
  have hobserved := feed_observed .descent "\x7b print nil; \x7d b;" [Scope.empty] hle
  exact ⟨hle, hobserved.1, hobserved.2.2.2.1, by decide +kernel, by decide +kernel⟩

end RoxLang
