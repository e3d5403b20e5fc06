/-
# `RoxLang.Proofs.FrontEnds` — the two ways to read a program agree

One front end scans the whole text and reads the tokens by descent; the other runs the machine over
the characters.  Both are measured against the grammar: the descent accepts what the scanned tokens
derive, and the machine accepts what the tokens that it has taken derive.  Those are the scanned
tokens unless a word was taken as a name, and then that word is among the names of the program.
-/
import RoxLang.Proofs.Automaton.Completeness
import RoxLang.Proofs.Automaton.Soundness
import RoxLang.Proofs.Automaton.Text
import RoxLang.Proofs.Descent.Program
import RoxLang.Proofs.Grammar.Names

namespace RoxLang

open Grammar (Program)
open RoxLang.Tree (levelsOfProgram nameTokensOfAll)
open Descent (ok_of_bind ok_bind)

/-! ## The scan and the descent -/

theorem bodyOf_scanned {ts : List Token} (h : ∀ t ∈ ts, t.kind ≠ .eof) (line : Nat) :
    Descent.bodyOf (ts ++ [eofToken line]) = ts := by
  have hbody : ∀ t ∈ ts, (!t.isEof) = true := by
    intro t ht
    simpa [Token.isEof] using h t ht
  rw [Descent.bodyOf, List.takeWhile_append_of_pos hbody]
  exact List.append_nil ts

/-- The descent reads a text as what its scanned tokens derive. -/
theorem descent_iff {source : String} {trees : List Tree} :
    (∃ tokens, scan source = .ok tokens ∧ Descent.parse tokens = .ok trees) ↔
      faultsFrom 0 (Piece.cut source.toList) = [] ∧
        Program (tokensFrom 0 (Piece.cut source.toList)) trees ∧
        levelsOfProgram trees ≤ Descent.levelLimit := by
  have hparse (hf : faultsFrom 0 (Piece.cut source.toList) = []) :=
    bodyOf_scanned (Piece.tokens_tokensFrom _ [] (Piece.forall_lawful_of_faultsFrom hf)).kind_ne_eof
      (Text.newlines source.toList)
  constructor
  · rintro ⟨tokens, hscan, hp⟩
    obtain ⟨hf, rfl⟩ := scan_ok_iff.mp hscan
    rw [Descent.parse_ok_iff rfl] at hp
    exact ⟨hf, hparse hf ▸ hp.1, hp.2⟩
  · rintro ⟨hf, hp, hl⟩
    exact ⟨_, scan_ok_iff.mpr ⟨hf, rfl⟩,
      (Descent.parse_ok_iff rfl _ _).mpr ⟨(hparse hf).symm ▸ hp, hl⟩⟩

/-! ## The machine -/

theorem machine_iff {source : String} {trees : List Tree} :
    Automaton.parse source = .ok trees ↔
      (∃ c, Automaton.run source.toList = .ok c ∧ c.finish? = some trees) ∧
        Tree.nestingOfAll trees ≤ Automaton.levelLimit := by
  simp only [Automaton.parse]
  constructor
  · intro h
    obtain ⟨c, hrun, h⟩ := ok_of_bind h
    split at h
    · cases h
    · next found hfinish =>
        split at h
        · next hl => cases h; exact ⟨⟨c, hrun, hfinish⟩, hl⟩
        · cases h
  · rintro ⟨⟨c, hrun, hfinish⟩, hl⟩
    rw [hrun, ok_bind, hfinish]
    exact if_pos hl

/-! ## Words as names -/

/-- A word is no identifier to the scanner. -/
theorem not_wordNamed_of_tokens {before : List Char} {ps : List Piece} {ts : List Token}
    (h : Piece.Tokens before ps ts) : ¬ Automaton.WordNamed ts := by
  induction h with
  | nil => exact nofun
  | blank _ ih | comment _ ih => exact ih
  | token hd _ ih =>
      rintro ⟨t, ht, hkind, w, hw, hlexeme⟩
      cases ht with
      | tail _ ht => exact ih ⟨t, ht, hkind, w, hw, hlexeme⟩
      | head =>
          cases hd with
          | identifier hcs => exact hcs w (String.ofList_injective hlexeme).symm
          | mark _ | number _ _ | reserved _ | string _ => cases hkind

theorem word_mem {w : Word} (h : w.inUse = true) :
    String.ofList w.text ∈ ["var", "print", "true", "false", "nil"] := by
  cases w <;> first | decide | cases h

theorem word_of_mem {lexeme : String} (h : lexeme ∈ ["var", "print", "true", "false", "nil"]) :
    ∃ w : Word, w.inUse = true ∧ lexeme = String.ofList w.text := by
  simp only [List.mem_cons, List.not_mem_nil, or_false] at h
  rcases h with rfl | rfl | rfl | rfl | rfl
  · exact ⟨.var, rfl, by decide⟩
  · exact ⟨.print, rfl, by decide⟩
  · exact ⟨.true_, rfl, by decide⟩
  · exact ⟨.false_, rfl, by decide⟩
  · exact ⟨.nil, rfl, by decide⟩

/-- The names of a derived program hold a word exactly when the identifiers of its tokens do. -/
theorem wordNamed_iff {ts : List Token} {trees : List Tree} (h : Program ts trees) :
    Automaton.WordNamed ts ↔
      ∃ t ∈ nameTokensOfAll trees, t.lexeme ∈ ["var", "print", "true", "false", "nil"] := by
  rw [h.nameTokens]
  constructor
  · rintro ⟨t, ht, hkind, w, hw, hlexeme⟩
    exact ⟨t, List.mem_filter.mpr ⟨ht, by simpa using hkind⟩, hlexeme ▸ word_mem hw⟩
  · rintro ⟨t, ht, hlexeme⟩
    obtain ⟨ht, hkind⟩ := List.mem_filter.mp ht
    exact ⟨t, ht, by simpa using hkind, word_of_mem hlexeme⟩

/-! ## Agreement -/

/-- Within the limits of both, the descent reads a text as a program exactly when the machine does
and no name of the program is a word of the language. -/
theorem descent_iff_machine (source : String) (trees : List Tree)
    (hdescent : levelsOfProgram trees ≤ Descent.levelLimit)
    (hmachine : Tree.nestingOfAll trees ≤ Automaton.levelLimit) :
    (∃ tokens, scan source = .ok tokens ∧ Descent.parse tokens = .ok trees) ↔
      Automaton.parse source = .ok trees ∧
        ∀ t ∈ nameTokensOfAll trees, t.lexeme ∉ ["var", "print", "true", "false", "nil"] := by
  rw [descent_iff, machine_iff]
  constructor
  · rintro ⟨hf, hp, -⟩
    obtain ⟨c, hrun, hfinish⟩ := Option.bind_eq_some_iff.mp (Automaton.Config.finish?_of_program hp)
    refine ⟨⟨⟨c, Automaton.runWithin_of_steps _ (Nat.le_refl _) hf hrun, hfinish⟩, hmachine⟩, ?_⟩
    intro t ht hlexeme
    have htokens := Piece.tokens_tokensFrom _ [] (Piece.forall_lawful_of_faultsFrom hf)
    exact not_wordNamed_of_tokens htokens ((wordNamed_iff hp).mpr ⟨t, ht, hlexeme⟩)
  · rintro ⟨⟨⟨c, hrun, hfinish⟩, -⟩, hnames⟩
    rcases Automaton.steps_of_runWithin _ (Nat.le_refl _) hrun with
      ⟨ts, hsteps, hnamed⟩ | ⟨hf, hsteps⟩
    · have hp : Program ts trees :=
        Automaton.Config.program_of_finish? (Option.bind_eq_some_iff.mpr ⟨c, hsteps, hfinish⟩)
      obtain ⟨t, ht, hlexeme⟩ := (wordNamed_iff hp).mp hnamed
      exact absurd hlexeme (hnames t ht)
    · have hp := Automaton.Config.program_of_finish?
        (Option.bind_eq_some_iff.mpr ⟨c, hsteps, hfinish⟩)
      exact ⟨hf, hp, hdescent⟩

/-- A text in which `!` and `!=` both occur, read by the machine, is read by the descent. -/
theorem descent_reads_toggle :
    let a : Token := ⟨.identifier, "a", 0⟩
    let b : Token := ⟨.identifier, "b", 1⟩
    let bang : Token := ⟨.mark .bang, "!", 1⟩
    let bangEqual : Token := ⟨.mark .bangEqual, "!=", 1⟩
    let trees : List Tree := [.declare a, .discard (.assign b (.unary bang
      (.grouping (.binary (.reference b) bangEqual (.literal (.boolean true))))))]
    levelsOfProgram trees ≤ Descent.levelLimit ∧
      Tree.nestingOfAll trees ≤ Automaton.levelLimit ∧
      ∃ tokens, scan "var a;\nb = !(b != true); // toggle" = .ok tokens ∧
        Descent.parse tokens = .ok trees := by
  intro a b bang bangEqual trees
  have hdescent : levelsOfProgram trees ≤ Descent.levelLimit := by decide
  have hmachine : Tree.nestingOfAll trees ≤ Automaton.levelLimit := by decide
  refine ⟨hdescent, hmachine, (descent_iff_machine _ trees hdescent hmachine).mpr ⟨?_, ?_⟩⟩
  · rfl
  · decide

end RoxLang
