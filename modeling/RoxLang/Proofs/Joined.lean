/-
# `RoxLang.Proofs.Joined` — a text and the same text source by source

Sources that are programs each by itself are a program when they are put after each other on lines
of their own: the statements are those of the sources in order, on the lines where they now stand.
And since a run does not look at lines, running that text does what feeding the sources one after
the other does, up to the first that does not run to its end.

Only the trace tells the two apart.  So machines are compared by what they print and bind.
-/
import RoxLang.Proofs.Automaton.Joined
import RoxLang.Proofs.FrontEnds
import RoxLang.Proofs.Run.Correspondence
import RoxLang.Proofs.Session

namespace RoxLang

open Grammar (Program)
open RoxLang.Run (Correspondence Seen optionRel_of_eq)
open RoxLang.Tree (Like lowerAll levelsOfAll levelsOfProgram)

/-! ## Two sources -/

theorem read_descent_iff {source : String} {trees : List Tree} :
    (FrontEnd.descent.read source).2 = .ok trees ↔
      ∃ tokens, scan source = .ok tokens ∧ Descent.parse tokens = .ok trees := by
  cases hscan : scan source with
  | error faults =>
      simp only [FrontEnd.read, hscan]
      constructor
      · intro h
        cases h
      · rintro ⟨_, ⟨⟩, _⟩
  | ok tokens =>
      simp only [FrontEnd.read, hscan]
      cases hparse : Descent.parse tokens with
      | error r =>
          constructor
          · intro h
            cases h
          · rintro ⟨_, ⟨⟩, h⟩
            rw [hparse] at h
            cases h
      | ok found =>
          constructor
          · rintro ⟨⟩
            exact ⟨tokens, rfl, hparse⟩
          · rintro ⟨_, ⟨⟩, h⟩
            rw [hparse] at h
            cases h
            rfl

theorem read_automaton_iff {source : String} {trees : List Tree} :
    (FrontEnd.automaton.read source).2 = .ok trees ↔ Automaton.parse source = .ok trees := by
  simp only [FrontEnd.read]
  cases Automaton.parse source with
  | error f =>
      constructor
      · intro h
        cases h
      · intro h
        cases h
  | ok found =>
      constructor
      · rintro ⟨⟩
        rfl
      · rintro ⟨⟩
        rfl

/-- Two programs on lines of their own are one program. -/
theorem read_joined {frontEnd : FrontEnd} {a b : String} {as bs : List Tree}
    (ha : (frontEnd.read a).2 = .ok as) (hb : (frontEnd.read b).2 = .ok bs) :
    (frontEnd.read (a ++ "\n" ++ b)).2
      = .ok (as ++ lowerAll (Text.newlines a.toList + 1) bs) := by
  cases frontEnd with
  | descent =>
      rw [read_descent_iff, descent_iff] at ha hb
      rw [read_descent_iff, descent_iff, toList_joined]
      obtain ⟨hfa, hpa, hla⟩ := ha
      obtain ⟨hfb, hpb, hlb⟩ := hb
      have hclosed := Piece.closesStrings_of_lawful (Piece.forall_lawful_of_faultsFrom hfa)
      rw [faultsFrom_joined hclosed, tokensFrom_joined hclosed, hfa, hfb]
      refine ⟨rfl, (hpb.lower _).append hpa, ?_⟩
      rw [Tree.levelsOfProgram_append, Tree.levelsOfProgram_lowerAll]
      exact Nat.max_le.mpr ⟨hla, hlb⟩
  | automaton =>
      rw [read_automaton_iff, machine_iff] at ha hb
      rw [read_automaton_iff, machine_iff, toList_joined]
      obtain ⟨⟨c, hc, has⟩, hla⟩ := ha
      obtain ⟨⟨d, hd, hbs⟩, hlb⟩ := hb
      refine ⟨Automaton.run_joined hc has hd hbs, ?_⟩
      rw [Tree.nestingOfAll, Tree.levelsOfAll_append, Tree.levelsOfAll_lowerAll]
      exact Nat.max_le.mpr ⟨hla, hlb⟩

/-! ## Any number of sources -/

/-- The statements of sources on lines of their own: those of the first, and those of the others,
which stand further down by the lines of the first. -/
def joinedStatements : List (String × List Tree) → List Tree
  | [] => []
  | (source, trees) :: rest =>
      trees ++ lowerAll (Text.newlines source.toList + 1) (joinedStatements rest)

theorem read_intercalate {frontEnd : FrontEnd} : ∀ {pieces : List (String × List Tree)},
    (∀ p ∈ pieces, (frontEnd.read p.1).2 = .ok p.2) →
    (frontEnd.read ("\n".intercalate (pieces.map (·.1)))).2 = .ok (joinedStatements pieces)
  | [], _ => by cases frontEnd <;> rfl
  | [(source, trees)], h => by
      show (frontEnd.read ("\n".intercalate [source])).2 = .ok (trees ++ [])
      rw [String.intercalate_singleton, List.append_nil]
      exact h _ List.mem_cons_self
  | (source, trees) :: q :: rest, h => by
      rw [List.map_cons, List.map_cons, String.intercalate_cons_cons]
      exact read_joined (h _ List.mem_cons_self)
        (read_intercalate fun p hp => h p (List.mem_cons_of_mem _ hp))

/-! ## Running -/

/-- Every step of a run is the same on whatever lines the tokens stand. -/
theorem like_correspondence :
    Correspondence Eq (fun _ => Eq) Eq (fun _ => Like (Eq : Value → Value → Prop)) where
  node h := h.same
  nil := rfl
  unary op _ _ hv := .of_eq (congrArg (applyUnary op) hv)
  binary op _ _ _ _ hv hw := .of_eq (congrArg₂ (applyBinary op) hv hw)
  print := by
    rintro v _ out _ rfl rfl
    rfl
  read := by
    rintro k name name' c _ ht rfl
    cases ht.same with
    | reference hname => exact optionRel_of_eq (by rw [hname.lexeme])
  assign := by
    rintro k name name' e e' v _ c _ ht rfl rfl
    cases ht.same with
    | assign hname _ => exact optionRel_of_eq (by rw [hname.lexeme])
  declare := by
    rintro k name name' c _ ht rfl
    cases ht.same with
    | declare hname => rw [hname.lexeme]
  define := by
    rintro k name name' e e' v _ c _ ht rfl rfl
    cases ht.same with
    | define hname _ => rw [hname.lexeme]
  opened := congrArg _
  closed := congrArg _

namespace Machine

/-- Feed sources one after the other, up to the first that does not run to its end. -/
def feedInOrder (frontEnd : FrontEnd) : Machine → List String → Except ProgramFault Unit × Machine
  | m, [] => (.ok (), m)
  | m, source :: sources => match m.feed frontEnd source with
    | (.ok _, m) => feedInOrder frontEnd m sources
    | (.error f, m) => (.error f, m)

end Machine

/-- Machines that have printed and bound the same. -/
abbrev SeenAlike : Machine → Machine → Prop := Seen Eq Eq

theorem seenAlike_noteAll (m : Machine) (events : List Event) : SeenAlike m (m.noteAll events) :=
  ⟨(Machine.noteAll_scopes events m).symm, (Machine.noteAll_printed events m).symm,
    (Machine.noteAll_verbosity events m).symm⟩

theorem SeenAlike.refl (m : Machine) : SeenAlike m m := ⟨rfl, rfl, rfl⟩

theorem SeenAlike.trans {m₁ m₂ m₃ : Machine} (h : SeenAlike m₁ m₂) (h' : SeenAlike m₂ m₃) :
    SeenAlike m₁ m₃ :=
  ⟨h.scopes.trans h'.scopes, h.printed.trans h'.printed, h.verbosity.trans h'.verbosity⟩

/-- Trees of one form end in the same way on machines seen alike, and leave such machines. -/
theorem runProgram_like {ts ts' : List Tree} (hts : List.Forall₂ (Like Eq) ts ts') {m m' : Machine}
    (hm : SeenAlike m m') : (m.runProgram ts).1 = (m'.runProgram ts').1 ∧
      SeenAlike (m.runProgram ts).2 (m'.runProgram ts').2 := by
  obtain ⟨hend, hleft⟩ := like_correspondence.program hts m m' hm
  exact ⟨hend.eq, hleft⟩

theorem runProgram_append (m : Machine) (ts us : List Tree) :
    m.runProgram (ts ++ us) = match m.runProgram ts with
      | (.ok (), m) => m.runProgram us
      | (.error f, m) => (.error f, m) := by
  have happend : Run.program (ts ++ us) = Run.program ts >>= fun _ => Run.program us :=
    List.forM_append
  unfold Machine.runProgram
  rw [happend, Run.on_bind]
  rcases (Run.program ts).on m with ⟨_ | _, _⟩ <;> rfl

theorem feed_like {frontEnd : FrontEnd} {source : String} {trees : List Tree}
    (h : (frontEnd.read source).2 = .ok trees) {m m' : Machine} (hm : SeenAlike m m') :
    (m'.feed frontEnd source).1 = ranProgram trees (m.runProgram trees).1 ∧
      SeenAlike (m.runProgram trees).2 (m'.feed frontEnd source).2 := by
  rw [feed_of_ok h]
  have hlike := runProgram_like (Like.reflAll (fun _ => rfl) trees)
    (hm.trans (seenAlike_noteAll m' (frontEnd.read source).1))
  exact ⟨congrArg (ranProgram trees) hlike.1.symm, hlike.2⟩

/-- The statements of all sources run as the sources are fed one after the other. -/
theorem runProgram_joined {frontEnd : FrontEnd} : ∀ {pieces : List (String × List Tree)}
    {m m' : Machine}, (∀ p ∈ pieces, (frontEnd.read p.1).2 = .ok p.2) → SeenAlike m m' →
    let run := m.runProgram (joinedStatements pieces)
    let fed := m'.feedInOrder frontEnd (pieces.map (·.1))
    run.1.mapError .run = fed.1 ∧ SeenAlike run.2 fed.2
  | [], _, _, _, hm => ⟨rfl, hm⟩
  | (source, trees) :: rest, m, m', h, hm => by
      intro run fed
      obtain ⟨hend, hleft⟩ := feed_like (h _ List.mem_cons_self) hm
      have hrun : run = m.runProgram (joinedStatements ((source, trees) :: rest)) := rfl
      have hfed : fed = match m'.feed frontEnd source with
        | (.ok _, m) => m.feedInOrder frontEnd (rest.map (·.1))
        | (.error f, m) => (.error f, m) := rfl
      rw [joinedStatements, runProgram_append] at hrun
      rcases hfirst : m.runProgram trees with ⟨r, m₁⟩
      rcases hfeed : m'.feed frontEnd source with ⟨r', m₁'⟩
      rw [hfirst] at hrun
      rw [hfeed] at hfed
      rw [hfirst, hfeed] at hend hleft
      cases r with
      | error f =>
          obtain rfl : r' = .error (.run f) := hend
          rw [hrun, hfed]
          exact ⟨rfl, hleft⟩
      | ok _ =>
          obtain rfl : r' = .ok trees := hend
          rw [hrun, hfed]
          have hlowered := runProgram_like (Tree.like_lowerAll (Text.newlines source.toList + 1)
            (joinedStatements rest)) (.refl m₁)
          have hrest := runProgram_joined (fun p hp => h p (List.mem_cons_of_mem _ hp)) hleft
          exact ⟨(congrArg (Except.mapError _) hlowered.1).trans hrest.1,
            SeenAlike.trans hlowered.2 hrest.2⟩

/-- Sources that are programs, whichever way they are read, are one program on lines of their own:
its statements are theirs in order, further down by the lines before them.  Feeding that text to a
machine prints what feeding the sources in order prints, binds what it binds, and ends as it ends,
which is at the first fault of a run. -/
theorem feed_intercalate (frontEnd : FrontEnd) (pieces : List (String × List Tree))
    (h : ∀ p ∈ pieces, (frontEnd.read p.1).2 = .ok p.2) :
    let text := "\n".intercalate (pieces.map (·.1))
    (frontEnd.read text).2 = .ok (joinedStatements pieces) ∧
      ∀ m : Machine,
        let whole := m.feed frontEnd text
        let parts := m.feedInOrder frontEnd (pieces.map (·.1))
        whole.1.map (fun _ => ()) = parts.1 ∧ whole.2.printed = parts.2.printed ∧
          whole.2.scopes = parts.2.scopes := by
  intro text
  have hread := read_intercalate h
  refine ⟨hread, fun m => ?_⟩
  intro whole parts
  obtain ⟨hend, hleft⟩ := feed_like hread (.refl m)
  obtain ⟨hparts, hseen⟩ := runProgram_joined h (.refl m)
  refine ⟨?_, hleft.printed.symm.trans hseen.printed, hleft.scopes.symm.trans hseen.scopes⟩
  rw [← hparts]
  show (m.feed frontEnd text).1.map (fun _ => ()) = _
  rw [hend]
  cases (m.runProgram (joinedStatements pieces)).1 <;> rfl

/-- A string of two lines with a comment behind it, and a block that prints it. -/
theorem feed_intercalate_two_lines :
    let a : Token := ⟨.identifier, "a", 0⟩
    let text : String := "\n".intercalate ["var a = \"p\nq\"; // end", "{ print a; }"]
    (FrontEnd.automaton.read text).2 = .ok [.define a (.literal (.string "p\nq")),
        .block [.print (.reference { a with line := 2 })]] ∧
      ∀ m : Machine, (m.feed .automaton text).2.printed
        = (m.feedInOrder .automaton ["var a = \"p\nq\"; // end", "{ print a; }"]).2.printed := by
  intro a text
  have hfirst : (FrontEnd.automaton.read "var a = \"p\nq\"; // end").2
      = .ok [.define a (.literal (.string "p\nq"))] := rfl
  have hsecond : (FrontEnd.automaton.read "{ print a; }").2
      = .ok [.block [.print (.reference a)]] := rfl
  let pieces : List (String × List Tree) :=
    [("var a = \"p\nq\"; // end", [.define a (.literal (.string "p\nq"))]),
      ("{ print a; }", [.block [.print (.reference a)]])]
  have hjoined := feed_intercalate .automaton pieces
    (List.forall_mem_cons.mpr ⟨hfirst, List.forall_mem_singleton.mpr hsecond⟩)
  have hsources : pieces.map (·.1) = ["var a = \"p\nq\"; // end", "{ print a; }"] := rfl
  rw [hsources] at hjoined
  exact ⟨hjoined.1, fun m => (hjoined.2 m).2.1⟩

end RoxLang
