/-
# `RoxLang.Proofs.Prompt` — what a prompt session comes to

A prompt session is a sequence of turns, one for each line in front of the word that ends it.  A
turn is what its line does as a source of its own, on the one scope that the turns before it have
left; and since that does not depend on what has been printed or noted, nothing but that scope goes
from one turn to the next.  A line that is no program leaves the scope as it was and prints
nothing.  A line that stops half-way has done what the structural semantics says until it stopped.

That a session goes on after every failing line needs more than that the failures are reported: it
needs that there are no others, which is what the documented faults are.
-/
import RoxLang.Command.Report
import RoxLang.Proofs.Run.Documented
import RoxLang.Proofs.Tracing

namespace RoxLang

open RoxLang.Tree (namesOfAll)

/-! ## Lines -/

/-- A text and its lines: every `\n` ends one, and so does the end of the text where something is
left. -/
inductive Text.Lines : List Char → List (List Char) → Prop
  | nil : Lines [] []
  | last {l : List Char} : l ≠ [] → '\n' ∉ l → Lines l [l]
  | line {l cs : List Char} {ls : List (List Char)} : '\n' ∉ l → Lines cs ls →
      Lines (l ++ '\n' :: cs) (l :: ls)

theorem Text.lines_lines (cs : List Char) : Text.Lines cs (Text.lines cs) := by
  fun_induction Text.lines cs with
  | case1 => exact .nil
  | case2 cs ih => exact @Lines.line [] cs _ List.not_mem_nil ih
  | case3 c cs hc hnil ih =>
      rw [hnil] at ih
      cases ih
      exact .last (List.cons_ne_nil c []) (by simpa using fun e => hc e.symm)
  | case4 c cs hc l ls hls ih =>
      have hne : '\n' ≠ c := fun e => hc e.symm
      rw [hls] at ih
      cases ih with
      | last _ hl =>
          exact .last (List.cons_ne_nil c cs) (List.not_mem_cons_of_ne_of_not_mem hne hl)
      | line hl hrest =>
          exact @Lines.line (c :: l) _ ls (List.not_mem_cons_of_ne_of_not_mem hne hl) hrest

/-! ## Turns -/

/-- The lines that report how a source ended. -/
def reportsOfOutcome (outcome : Except ProgramFault (List Tree)) : List String :=
  match outcome with
  | .ok _ => []
  | .error f => f.reports

/-- A line of a prompt session, what it printed and what it reported, and the scope that it left. -/
structure Turn where
  line : String
  printed : List String
  reports : List String
  left : Scope

/-- What a line does where the lines before it have left the scope `g`. -/
structure Turn.Follows (frontEnd : FrontEnd) (g : Scope) (t : Turn) : Prop where
  /-- It does what it does as a source of its own, whatever has been printed and noted before. -/
  alone : ∀ m : Machine, m.scopes = [g] →
    (m.feed frontEnd t.line).2.printed.toList = m.printed.toList ++ t.printed ∧
      (m.feed frontEnd t.line).2.scopes = [t.left] ∧
      reportsOfOutcome (m.feed frontEnd t.line).1 = t.reports
  /-- A line that is no program is reported and does nothing. -/
  unread : ∀ f, (frontEnd.read t.line).2 = .error f →
    t.printed = [] ∧ t.left = g ∧ t.reports = f.reports ∧ f.reports ≠ []
  /-- A line that is one does what its statements do, up to the first fault. -/
  ran : ∀ trees, (frontEnd.read t.line).2 = .ok trees →
    Tree.nestingOfAll trees ≤ Run.levelLimit →
      ∃ r, Executes trees [g] t.printed [t.left] r ∧
        ((r = .ok () ∧ t.reports = []) ∨
          ∃ f, r = .error f ∧ f.Documented (namesOfAll trees) ∧ t.reports = [f.render])

/-- Turns one after the other, each on the scope that the one before left. -/
inductive Turns (frontEnd : FrontEnd) : Scope → List Turn → Prop
  | nil (g : Scope) : Turns frontEnd g []
  | cons {g : Scope} {t : Turn} {ts : List Turn} : t.Follows frontEnd g →
      Turns frontEnd t.left ts → Turns frontEnd g (t :: ts)

section

variable {frontEnd : FrontEnd} {source : String} {g : Scope}

/-- On one scope a source leaves one scope. -/
theorem exists_feed_scopes (frontEnd : FrontEnd) (source : String) {m : Machine}
    (hm : m.scopes = [g]) : ∃ left, (m.feed frontEnd source).2.scopes = [left] := by
  obtain ⟨m₀, hm₀, hfeed⟩ := feed_scopes frontEnd source m
  have hkept := runProgram_kept (frontEnd.statements source) m₀
  rw [hm₀, hm, ← hfeed] at hkept
  generalize (m.feed frontEnd source).2.scopes = c at hkept
  cases hkept with
  | cons _ houter =>
      cases houter
      exact ⟨_, rfl⟩

theorem faults_ne_nil_of_scan {faults : List LexFault} (h : scan source = .error faults) :
    faults ≠ [] := by
  simp only [scan] at h
  split at h
  · cases h
  · next hne =>
      cases h
      exact hne

/-- A source that is no program has faults to report. -/
theorem reports_ne_nil {f : ProgramFault} (h : (frontEnd.read source).2 = .error f) :
    f.reports ≠ [] := by
  cases frontEnd with
  | automaton =>
      simp only [FrontEnd.read] at h
      cases hparse : Automaton.parse source with
      | ok trees => rw [hparse] at h; cases h
      | error fault =>
          rw [hparse] at h
          cases h
          exact List.cons_ne_nil _ _
  | descent =>
      simp only [FrontEnd.read] at h
      cases hscan : scan source with
      | error faults =>
          rw [hscan] at h
          cases h
          simpa [ProgramFault.reports] using faults_ne_nil_of_scan hscan
      | ok tokens =>
          rw [hscan] at h
          cases hparse : Descent.parse tokens with
          | ok trees =>
              simp only [hparse] at h
              cases h
          | error r =>
              simp only [hparse] at h
              cases h
              obtain ⟨blames, hne, rfl⟩ := exists_blames_of_scan hscan hparse
              simpa [ProgramFault.ofRejection, ProgramFault.reports] using hne

/-- A source does the same on every machine that has the one scope. -/
theorem exists_alone (frontEnd : FrontEnd) (source : String) (g : Scope) :
    ∃ printed reports left, ∀ m : Machine, m.scopes = [g] →
      (m.feed frontEnd source).2.printed.toList = m.printed.toList ++ printed ∧
        (m.feed frontEnd source).2.scopes = [left] ∧
        reportsOfOutcome (m.feed frontEnd source).1 = reports := by
  obtain ⟨s, hs⟩ := exists_tells_feed frontEnd source [g]
  have hstart : (Machine.start [g] 0).scopes = [g] := rfl
  obtain ⟨left, hleft⟩ := exists_feed_scopes frontEnd source hstart
  have hscopes : s.scopes = [left] := (congrArg (·.2.scopes) (hs _ hstart)).symm.trans hleft
  refine ⟨s.lines, reportsOfOutcome s.outcome, left, fun m hm => ?_⟩
  have hfeed : m.feed frontEnd source = (s.outcome, m.after s) := hs m hm
  rw [hfeed]
  exact ⟨rfl, hscopes, rfl⟩

/-- The reports of a program are those of its run. -/
theorem reportsOfOutcome_ran (trees : List Tree) (r : Except RunFault Unit) :
    (r = .ok () ∧ reportsOfOutcome (ranProgram trees r) = []) ∨
      ∃ f, r = .error f ∧ reportsOfOutcome (ranProgram trees r) = [f.render] := by
  cases r with
  | ok _ => exact .inl ⟨rfl, rfl⟩
  | error f => exact .inr ⟨f, rfl, rfl⟩

/-- Every line makes a turn. -/
theorem exists_turn (frontEnd : FrontEnd) (line : String) (g : Scope) :
    ∃ t : Turn, t.line = line ∧ t.Follows frontEnd g := by
  obtain ⟨printed, reports, left, halone⟩ := exists_alone frontEnd line g
  refine ⟨⟨line, printed, reports, left⟩, rfl, halone, ?_, ?_⟩
  -- What the line does it does on any machine with the scope, so on one that has done nothing.
  · intro f hread
    obtain ⟨hprinted, hscopes, hreports⟩ := halone (Machine.start [g] 0) rfl
    rw [feed_of_error hread] at hprinted hscopes hreports
    rw [Machine.noteAll_printed] at hprinted
    rw [Machine.noteAll_scopes] at hscopes
    exact ⟨hprinted.symm, (List.singleton_inj.mp hscopes).symm, hreports.symm,
      reports_ne_nil hread⟩
  · intro trees hread hnesting
    obtain ⟨hprinted, hscopes, hreports⟩ := halone (Machine.start [g] 0) rfl
    rw [feed_of_ok hread] at hprinted hscopes hreports
    let m := (Machine.start [g] 0).noteAll (frontEnd.read line).1
    have hm : m.scopes = [g] := Machine.noteAll_scopes _ _
    have hnonempty : m.scopes ≠ [] := by
      rw [hm]
      exact List.cons_ne_nil g []
    have huntraced : m.verbosity ≤ 0 := by
      rw [Machine.noteAll_verbosity]
      exact Int.le_refl 0
    refine ⟨(m.runProgram trees).1, ?_, ?_⟩
    · rw [← hm]
      refine (Run.program_iff_executes trees m hnonempty hnesting (.inl huntraced) _ _ _).mpr ?_
      refine ⟨rfl, hscopes, hprinted.trans ?_⟩
      rw [Machine.noteAll_printed]
    · have hdocumented := endsAsDocumented_runProgram (proper_of_read hread) hnonempty hnesting
      rw [← hreports]
      rcases reportsOfOutcome_ran trees (m.runProgram trees).1 with h | ⟨f, hf, h⟩
      · exact .inl h
      · exact .inr ⟨f, hf, hdocumented f hf, h⟩

/-! ## Sessions -/

theorem session_cons (frontEnd : FrontEnd) (verbosity : Int) (c : Chain) (source : String)
    (sources : List String) : session frontEnd verbosity c (source :: sources)
      = let fed := (Machine.start c verbosity).feed frontEnd source
        ⟨fed.1, fed.2.output, fed.2.traceText, fed.2.scopes⟩ ::
          session frontEnd verbosity fed.2.scopes sources := rfl

/-- A session on one scope is a sequence of turns. -/
theorem exists_turns (frontEnd : FrontEnd) (verbosity : Int) :
    ∀ (lines : List String) (g : Scope), ∃ turns : List Turn, turns.map (·.line) = lines ∧
      Turns frontEnd g turns ∧
      (session frontEnd verbosity [g] lines).map (·.output)
        = turns.map (fun t => String.join t.printed) ∧
      (session frontEnd verbosity [g] lines).flatMap Command.reportsOf
        = turns.flatMap (·.reports)
  | [], g => ⟨[], rfl, .nil g, rfl, rfl⟩
  | line :: lines, g => by
      obtain ⟨t, rfl, ht⟩ := exists_turn frontEnd line g
      obtain ⟨turns, rfl, hturns, houtput, hreports⟩ :=
        exists_turns frontEnd verbosity lines t.left
      obtain ⟨hprinted, hscopes, hreported⟩ := ht.alone (Machine.start [g] verbosity) rfl
      rw [session_cons]
      dsimp only
      rw [hscopes]
      refine ⟨t :: turns, rfl, .cons ht hturns, ?_, ?_⟩
      · rw [List.map_cons, List.map_cons, houtput, Machine.output, hprinted]
        rfl
      · rw [List.flatMap_cons, List.flatMap_cons, hreports, ← hreported]
        rfl

end

namespace Command

/-- What a report says of a prompt session.  Its turns are the lines in front of the first exit
word, or all lines if there is none; it ends well; its output is the prompt and what a turn printed,
for each turn, and the prompt once more; and its diagnostics are those of its turns. -/
structure PromptSession (frontEnd : FrontEnd) (input : String) (r : Report) (turns : List Turn)
    (rest : List (List Char)) : Prop where
  lines : Text.Lines (Text.unifyNewlines input.toList) (turns.map (·.line.toList) ++ rest)
  running : ∀ t ∈ turns, String.ofList (Text.trimmed t.line.toList) ∉ exitWords
  ended : ∀ line ∈ rest.head?, String.ofList (Text.trimmed line) ∈ exitWords
  follows : Turns frontEnd Scope.empty turns
  exit : r.exit = .status 0
  out : r.out = String.join (turns.map fun t => promptText ++ String.join t.printed) ++ promptText
  err : r.err = asLines (turns.flatMap (·.reports))

theorem promptSession_runPrompt (o : Options) (input : String) :
    ∃ turns rest, PromptSession o.frontEnd input (runPrompt o input) turns rest := by
  let lines := Text.lines (Text.unifyNewlines input.toList)
  let before := lines.takeWhile fun line => !isExit line
  obtain ⟨turns, hlines, hturns, houtput, hreports⟩ :=
    exists_turns o.frontEnd o.verbosity (promptLines input) Scope.empty
  have hbefore : turns.map (·.line.toList) = before := by
    have h := congrArg (List.map String.toList) hlines
    simpa [promptLines, Function.comp_def] using h
  refine ⟨turns, lines.dropWhile fun line => !isExit line, ?_, ?_, ?_, hturns, rfl, ?_, ?_⟩
  · rw [hbefore, List.takeWhile_append_dropWhile]
    exact Text.lines_lines _
  · intro t ht hexit
    have hmem : t.line.toList ∈ before := hbefore ▸ List.mem_map_of_mem ht
    have hno := List.mem_takeWhile_imp hmem
    simp [isExit, hexit] at hno
  · intro line hline
    have hhead := List.head?_dropWhile_not (fun line => !isExit line) lines
    rw [hline] at hhead
    simpa [isExit] using hhead
  · have hshown := congrArg (List.map (promptText ++ ·)) houtput
    simp only [List.map_map, Function.comp_def] at hshown
    rw [← hshown]
    rfl
  · rw [← hreports]
    rfl

/-- The prompt never dies and errors never carry over.  Whatever is typed, a command without a
program, with whichever front end, reads the lines up to the first exit word, or all of them, and
ends well; and all that it writes is the prompts and what the lines print, and the diagnostics of
the lines that fail.  Each line does what it does as a source of its own on the scope that the
lines before it have left, where a line that is no program does nothing, and one that stops keeps
what it did until then. -/
theorem respond_prompt {arguments : List String} {o : Options}
    (hread : Options.read arguments = .ok o) (hprogram : o.programPath? = none)
    (htree : o.printTree = false) (w : Surroundings) :
    ∃ turns rest, PromptSession o.frontEnd w.input (respond arguments w) turns rest := by
  have hrespond : respond arguments w = runPrompt o w.input := by
    simp only [respond, hread, perform, hprogram, htree, Bool.false_eq_true, if_false]
  rw [hrespond]
  exact promptSession_runPrompt o w.input

/-- A session with the automaton: a line that is no program, one that stops half-way, and what the
first line has bound behind them. -/
theorem respond_prompt_recovers :
    let arguments := ["--grammar"]
    let o : Options := ⟨0, false, true, none⟩
    let w : Surroundings :=
      ⟨fun _ => none, "var a = true;\r\nprint;\nprint a; b; print 2;\nprint a;\n quit \nprint 3;"⟩
    Options.read arguments = .ok o ∧ o.programPath? = none ∧ o.printTree = false ∧
      (∃ turns rest, PromptSession o.frontEnd w.input (respond arguments w) turns rest) ∧
      (respond arguments w).out = "> > > true\n> true\n> " := by
  intro arguments o w
  have hread : Options.read arguments = .ok o := rfl
  have hprogram : o.programPath? = none := rfl
  have htree : o.printTree = false := rfl
  exact ⟨hread, hprogram, htree, respond_prompt hread hprogram htree w, by decide +kernel⟩

end Command

end RoxLang
