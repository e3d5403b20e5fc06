/-
# `RoxLang.Proofs.Unfinished` — a text that is not a program yet, and one that never will be

The reader of characters gives one fault.  If that is at the end of the text, the text is the
beginning of a program, and what is read off the machine's state ends it.  If it is anywhere else,
nothing that may follow on a new line mends it: the machine never comes to what follows.  Only an
opening quote is different, because what follows may hold the quote that closes it.
-/
import RoxLang.Proofs.Automaton.Closing
import RoxLang.Proofs.Joined

namespace RoxLang

namespace Automaton

/-! ## Faults within the text -/

/-- The readings of a piece are no end tokens. -/
theorem kind_of_mem_readings {line : Nat} {rest : List Char} {p : Piece} {r : Reading}
    (hr : r ∈ readings line rest p) : r.token.kind ≠ .eof := by
  have hall : ((readings line rest p).all fun r => r.token.kind != .eof) = true := by
    cases p with
    | mark m => cases m <;> rfl
    | name cs =>
        simp only [readings]
        split
        · rfl
        · split <;> rfl
    | _ => rfl
  exact bne_iff_ne.mp (List.all_eq_true.mp hall r hr)

theorem kind_of_faultAt {ch : Char} {line : Nat} {rest : List Char} {p : Piece} :
    (faultAt ch line (readings line rest p)).token.kind ≠ .eof := by
  cases hrs : readings line rest p with
  | nil => exact nofun
  | cons r rs => exact kind_of_mem_readings (hrs ▸ List.mem_cons_self)

/-- A fault of a run is at a character of the text, not at its end. -/
theorem kind_of_runWithin (n : Nat) : ∀ {c : Config} {line : Nat} {cs : List Char} {f : ParseFault},
    runWithin n c line cs = .error f → f.token.kind ≠ .eof := by
  induction n with
  | zero =>
      intro c line cs f h
      cases cs <;> cases h
  | succ n ih =>
      intro c line cs f h
      cases cs with
      | nil => cases h
      | cons ch cs =>
          rw [runWithin_cons] at h
          split at h
          · exact ih h
          · split at h
            · exact ih h
            · cases h
              exact kind_of_faultAt

/-- The fault of a quote that nothing closes. -/
def AtOpenQuote (f : ParseFault) : Prop :=
  f.reason = .unexpectedCharacter ∧ f.token.lexeme = "\""

theorem faultAt_moved (ch : Char) (line : Nat) (x : List Char) :
    ∀ rs : List Reading, faultAt ch line (rs.map (Reading.moved 0 x)) = faultAt ch line rs
  | [] => rfl
  | r :: _ => congrArg (ParseFault.mk .unexpectedToken) (Token.lower_zero r.token)

/-- A run reads a string that is left open only to fail at its quote. -/
theorem read_ne_unclosed_of_error {c : Config} {line : Nat} {ch : Char} {cs : List Char}
    {f : ParseFault} (hf : ¬ AtOpenQuote f) (h : runFrom c line (ch :: cs) = .error f) :
    Piece.read ch cs ≠ (.unclosed cs, []) := by
  intro hread
  have hquote : ch = '"' := by
    rcases Piece.read_cases ch cs with hl | ⟨-, hr⟩ | ⟨hq, -⟩
    · rw [hread] at hl
      nomatch hl
    · rw [hread] at hr
      nomatch hr
    · exact hq
  rw [runFrom_cons, hread] at h
  cases h
  exact hf ⟨rfl, hquote ▸ rfl⟩

/-- A run that fails does so whatever follows on a new line, unless it fails at a quote that
nothing closes. -/
theorem runFrom_append_of_error {x : List Char} (hx : NewLine x) (n : Nat) :
    ∀ {cs : List Char} {c : Config} {line : Nat} {f : ParseFault}, cs.length ≤ n →
      ¬ AtOpenQuote f → runFrom c line cs = .error f → runFrom c line (cs ++ x) = .error f := by
  induction n with
  | zero =>
      intro cs c line f hn _ h
      obtain rfl := List.length_eq_zero_iff.mp (Nat.le_zero.mp hn)
      cases h
  | succ n ih =>
      intro cs c line f hn hf h
      cases cs with
      | nil => cases h
      | cons ch cs =>
          have hn := Nat.le_of_succ_le_succ hn
          have hclosed := read_ne_unclosed_of_error hf h
          -- the machine goes through the same pieces, with more text behind them
          have hmoved := runFrom_moved_cons step?_unmoved hx hclosed c line
          simp only [id, Nat.add_zero, faultAt_moved] at hmoved
          rw [hmoved]
          rw [runFrom_cons] at h
          split at h
          · next htrivia =>
              rw [if_pos htrivia]
              exact ih (Nat.le_trans (Piece.read_rest_length ch cs) hn) hf h
          · next htrivia =>
              rw [if_neg htrivia]
              split at h
              · next htake =>
                  have hrest := (rest_of_mem_readings (mem_of_take? htake)).1
                  exact ih (Nat.le_trans hrest hn) hf h
              · exact h

/-! ## The end of the text -/

/-- How deep the program nests that a text begins, when all that is open at its end is closed
there. -/
def openNesting (cs : List Char) : Nat :=
  match run cs with
  | .ok c => Tree.nestingOfAll (c.closed (Text.newlines cs + 1))
  | .error _ => 0

theorem closed_of_finish? {c : Config} {trees : List Tree} (h : c.finish? = some trees)
    (line : Nat) : c.closed line = trees := by
  rw [eq_of_finish? h]
  exact List.reverse_reverse trees

/-- A run that takes the whole text is ended on a new line. -/
theorem parse_closingText {source : String} {c : Config} (hrun : run source.toList = .ok c)
    (hnesting : openNesting source.toList ≤ levelLimit) :
    parse (source ++ "\n" ++ String.ofList c.closingText)
      = .ok (c.closed (Text.newlines source.toList + 1)) := by
  simp only [openNesting, hrun] at hnesting
  refine machine_iff.mpr ⟨⟨⟨[], (c.closed _).reverse, .between⟩, ?_,
    congrArg some (List.reverse_reverse _)⟩, hnesting⟩
  rw [toList_joined, String.toList_ofList]
  exact (run_newLine hrun _).trans (runFrom_closingText c)

/-- What the fault of a text says: it is at the end of a text that the machine takes whole, or
within. -/
theorem error_cases {source : String} {f : ParseFault} (h : parse source = .error f)
    (hnesting : openNesting source.toList ≤ levelLimit) :
    (f = ⟨.unexpectedToken, eofToken (Text.newlines source.toList)⟩ ∧
      ∃ c, run source.toList = .ok c) ∨
      (f.token.kind ≠ .eof ∧ run source.toList = .error f) := by
  simp only [parse] at h
  cases hrun : run source.toList with
  | error g =>
      rw [hrun] at h
      cases h
      exact .inr ⟨kind_of_runWithin _ hrun, rfl⟩
  | ok c =>
      rw [hrun, Descent.ok_bind] at h
      left
      cases hfinish : c.finish? with
      | none =>
          rw [hfinish] at h
          cases h
          exact ⟨rfl, c, rfl⟩
      | some trees =>
          simp only [openNesting, hrun, closed_of_finish? hfinish] at hnesting
          rw [hfinish] at h
          simp only [hnesting, if_true] at h
          cases h

end Automaton

open Automaton (AtOpenQuote openNesting)

/-- The fault that the reader of characters gives tells a text that is not a program yet from one
that never will be.  It gives one fault or none.  A fault at the end stands on the last line, and
something that follows on a new line makes the text a program.  A fault anywhere else, but for a
quote that nothing closes, is the fault of the text whatever follows on a new line. -/
theorem read_unfinished_or_wrong (source : String)
    (hnesting : openNesting source.toList ≤ Automaton.levelLimit) :
    (∃ trees, (FrontEnd.automaton.read source).2 = .ok trees) ∨
      ∃ f : ParseFault, (FrontEnd.automaton.read source).2 = .error (.parse [f]) ∧
        (f.token.kind = .eof → f.token.line = Text.newlines source.toList ∧
          ∃ rest trees, (FrontEnd.automaton.read (source ++ "\n" ++ rest)).2 = .ok trees) ∧
        (f.token.kind ≠ .eof → ¬ AtOpenQuote f → ∀ rest,
          (FrontEnd.automaton.read (source ++ "\n" ++ rest)).2 = .error (.parse [f])) := by
  cases hparse : Automaton.parse source with
  | ok trees => exact .inl ⟨trees, read_automaton_iff.mpr hparse⟩
  | error f =>
      refine .inr ⟨f, congrArg (Except.mapError _) hparse, ?_⟩
      rcases Automaton.error_cases hparse hnesting with ⟨rfl, c, hrun⟩ | ⟨hkind, hrun⟩
      · have hclosed := read_automaton_iff.mpr (Automaton.parse_closingText hrun hnesting)
        exact ⟨fun _ => ⟨rfl, _, _, hclosed⟩, fun h => absurd rfl h⟩
      · refine ⟨fun h => absurd h hkind, fun _ hquote rest => ?_⟩
        have hrest : Automaton.run (source ++ "\n" ++ rest).toList = .error f := by
          rw [toList_joined]
          exact Automaton.runFrom_append_of_error (newLine_cons rest.toList) _ (Nat.le_refl _)
            hquote hrun
        have hfails : Automaton.parse (source ++ "\n" ++ rest) = .error f := by
          rw [Automaton.parse, hrest]
          rfl
        exact congrArg (Except.mapError _) hfails

/-- A text that ends within a group within a block, and one with an operator that has no right
operand in its first line. -/
theorem read_unfinished_group_and_wrong_operand :
    (∃ rest trees, (FrontEnd.automaton.read ("\x7b var a = -(1 +" ++ "\n" ++ rest)).2 = .ok trees) ∧
      ∀ rest, (FrontEnd.automaton.read ("print 1 +;\nprint 2" ++ "\n" ++ rest)).2
        = .error (.parse [⟨.unexpectedToken, ⟨.mark .semicolon, ";", 0⟩⟩]) := by
  have hgroup : openNesting "\x7b var a = -(1 +".toList ≤ Automaton.levelLimit := by decide
  have hoperand : openNesting "print 1 +;\nprint 2".toList ≤ Automaton.levelLimit := by decide
  constructor
  · have hread : (FrontEnd.automaton.read "\x7b var a = -(1 +").2
        = .error (.parse [⟨.unexpectedToken, eofToken 0⟩]) := rfl
    rcases read_unfinished_or_wrong _ hgroup with ⟨_, h⟩ | ⟨f, h, hend, -⟩
    · rw [hread] at h
      cases h
    · rw [hread] at h
      cases h
      exact (hend rfl).2
  · have hread : (FrontEnd.automaton.read "print 1 +;\nprint 2").2
        = .error (.parse [⟨.unexpectedToken, ⟨.mark .semicolon, ";", 0⟩⟩]) := rfl
    rcases read_unfinished_or_wrong _ hoperand with ⟨_, h⟩ | ⟨f, h, -, hwithin⟩
    · rw [hread] at h
      cases h
    · rw [hread] at h
      cases h
      exact hwithin nofun fun h => nomatch h.1

end RoxLang
