/-
# `RoxLang.Proofs.Reading` — what both front ends make of a text

The front ends differ in the tokens that they see: the scanner's, or those that the machine takes
on its way, among which a word may stand as a name.  But a number token is a numeral to both of
them, since both find it by the same cut, and both accept only what the grammar derives from their
tokens.  So the statements that either makes are proper trees.
-/
import RoxLang.Proofs.Descent.Outcome
import RoxLang.Proofs.Grammar.Proper
import RoxLang.Proofs.Joined

namespace RoxLang

open Grammar (Program)

/-! ## Number tokens -/

namespace Piece

/-- The token of a piece spells a numeral if it is a number. -/
theorem Lawful.spellsNumeral {p : Piece} (hp : p.Lawful) {kind : Kind} {cs : List Char}
    (h : p.lexeme? = some (kind, cs)) (line : Int) :
    Token.SpellsNumeral ⟨kind, String.ofList cs, line⟩ := by
  rintro (hkind : kind = .number)
  subst hkind
  cases denotes_of_lexeme? h with
  | number whole fraction => exact ⟨whole, fraction, hp, String.toList_ofList⟩

theorem spellsNumeral_of_mem {line : Nat} {ps : List Piece} (h : ∀ p ∈ ps, p.Lawful) :
    ∀ t ∈ tokensFrom line ps, t.SpellsNumeral :=
  forall_mem_tokensFrom fun p hp _ _ hlexeme _ => (h p hp).spellsNumeral hlexeme _

end Piece

/-- The number tokens of a scan are numerals. -/
theorem spellsNumeral_of_scan {source : String} {tokens : List Token}
    (h : scan source = .ok tokens) : ∀ t ∈ tokens, t.SpellsNumeral := by
  obtain ⟨hf, rfl⟩ := scan_ok_iff.mp h
  refine List.forall_mem_append.mpr
    ⟨Piece.spellsNumeral_of_mem (Piece.forall_lawful_of_faultsFrom hf), ?_⟩
  exact List.forall_mem_singleton.mpr nofun

/-- Where scanned tokens are rejected, it is for the failures of the descent, since no number is
misread. -/
theorem failures_of_rejected_scan {source : String} {tokens : List Token} {r : Descent.Rejection}
    (hscan : scan source = .ok tokens) (hparse : Descent.parse tokens = .error r) :
    let body := tokensFrom 0 (Piece.cut source.toList)
    let eof := eofToken (Text.newlines source.toList)
    tokens = body ++ [eof] ∧ ∃ f fs,
      (Descent.attemptsFrom Descent.levelLimit Descent.never body).failures = f :: fs ∧
        r = .faults (f.blame body eof :: fs.map (·.blame body eof)) := by
  intro body eof
  obtain ⟨hf, rfl⟩ := scan_ok_iff.mp hscan
  have hlawful := Piece.forall_lawful_of_faultsFrom hf
  have hkinds : ∀ t ∈ body, t.kind ≠ .eof := (Piece.tokens_tokensFrom _ [] hlawful).kind_ne_eof
  have hsplit : Descent.splitAtEof (body ++ [eof]) = some (body, eof) :=
    Descent.splitAtEof_append_eof hkinds rfl
  refine ⟨rfl, ?_⟩
  obtain ⟨t, ht, hconverts, -⟩ | ⟨f, fs, hfailures, -, rfl⟩ :=
    Descent.failures_of_rejected hsplit hparse
  · exact absurd (Piece.spellsNumeral_of_mem hlawful t ht).converts hconverts
  · exact ⟨f, fs, hfailures, rfl⟩

namespace Automaton

/-- A run over a text is a run over tokens of which the numbers are numerals. -/
theorem spellsNumeral_of_runWithin (n : Nat) : ∀ {cs : List Char} {c c' : Config} {line : Nat},
    cs.length ≤ n → runWithin n c line cs = .ok c' →
    ∃ ts, c.steps? ts = some c' ∧ ∀ t ∈ ts, t.SpellsNumeral := by
  induction n with
  | zero =>
      intro cs c c' line hn h
      obtain rfl := List.length_eq_zero_iff.mp (Nat.le_zero.mp hn)
      cases h
      exact ⟨[], rfl, List.forall_mem_nil _⟩
  | succ n ih =>
      intro cs c c' line hn h
      cases cs with
      | nil =>
          cases h
          exact ⟨[], rfl, List.forall_mem_nil _⟩
      | cons ch cs =>
          obtain ⟨hp, next, htaken, hrun⟩ := taken_of_runWithin hn h
          have hlength := Piece.read_rest_length ch cs
          obtain ⟨ts, hts, hspells⟩ := ih (Nat.le_trans hlength (Nat.le_of_succ_le_succ hn)) hrun
          cases htaken with
          | nothing _ => exact ⟨ts, hts, hspells⟩
          | scanned hl hstep =>
              refine ⟨_, steps?_of_step hstep hts, ?_⟩
              exact List.forall_mem_cons.mpr ⟨hp.spellsNumeral hl line, hspells⟩
          | name _ hstep =>
              exact ⟨_, steps?_of_step hstep hts, List.forall_mem_cons.mpr ⟨nofun, hspells⟩⟩

end Automaton

/-! ## Statements -/

variable {frontEnd : FrontEnd} {source : String} {trees : List Tree}

/-- What a front end reads derives from tokens of which the numbers are numerals. -/
theorem exists_program_of_read (h : (frontEnd.read source).2 = .ok trees) :
    ∃ ts, Program ts trees ∧ ∀ t ∈ ts, t.SpellsNumeral := by
  cases frontEnd with
  | descent =>
      obtain ⟨hf, hprogram, -⟩ := descent_iff.mp (read_descent_iff.mp h)
      exact ⟨_, hprogram,
        Piece.spellsNumeral_of_mem (Piece.forall_lawful_of_faultsFrom hf)⟩
  | automaton =>
      obtain ⟨⟨c, hrun, hfinish⟩, -⟩ := machine_iff.mp (read_automaton_iff.mp h)
      obtain ⟨ts, hsteps, hspells⟩ :=
        Automaton.spellsNumeral_of_runWithin _ (Nat.le_refl _) hrun
      exact ⟨ts, Automaton.Config.program_of_finish?
        (Option.bind_eq_some_iff.mpr ⟨c, hsteps, hfinish⟩), hspells⟩

/-- The statements that a front end reads are proper. -/
theorem proper_of_read (h : (frontEnd.read source).2 = .ok trees) : ∀ t ∈ trees, t.Proper := by
  obtain ⟨ts, hprogram, hspells⟩ := exists_program_of_read h
  exact hprogram.proper hspells

theorem areNative_of_read (h : (frontEnd.read source).2 = .ok trees) :
    Tree.areNative trees = true :=
  Tree.areNative_of_forall fun t ht => (proper_of_read h t ht).isNative

end RoxLang
