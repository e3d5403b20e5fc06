/-
# `RoxLang.Proofs.Automaton.Closing` — every text the machine has taken can be ended

A machine that has come to the end of a text without a fault holds the beginning of a program.  What
is open there can be closed, innermost part first: a name where a name or an operand is missing, a
parenthesis for every group on the stack, a semicolon for the statement, a brace for every block.
The text that does this is read off the state, and so is the program that it gives.

Nothing about how the machine came to its state is needed.  Every state can be closed, because the
machine never puts anything on a stack that an operand cannot take off again.
-/
import RoxLang.Proofs.Automaton.Completeness
import RoxLang.Proofs.Automaton.Joined

namespace RoxLang.Automaton

namespace Config

/-! ## What is open, and what closes it -/

/-- The name put where a name or an operand is missing. -/
def fillIn (line : Nat) : Token := ⟨.identifier, "x", line⟩

/-- A parenthesis for every open group. -/
def closers : List Frame → List Char
  | [] => []
  | .group :: stack => ')' :: closers stack
  | _ :: stack => closers stack

/-- The whole expression, when all that waits on a stack takes an operand. -/
def closeAll : List Frame → Tree → Tree
  | [], e => e
  | .group :: stack, e => closeAll stack (.grouping e)
  | .sign op :: stack, e => closeAll stack (.unary op e)
  | .left _ l op :: stack, e => closeAll stack (.binary l op e)
  | .target name :: stack, e => closeAll stack (.assign name e)

/-- The text that ends the statement a phase is in. -/
def endingText : Phase → List Char
  | .between => []
  | .naming => ['x', ' ', ';']
  | .named _ => [';']
  | .operand _ stack => 'x' :: ' ' :: (closers stack ++ [';'])
  | .operator _ stack _ => closers stack ++ [';']

/-- The statement that this text makes, if there is one. -/
def ended? (line : Nat) : Phase → Option Tree
  | .between => none
  | .naming => some (.declare (fillIn line))
  | .named name => some (.declare name)
  | .operand head stack => some (complete head (closeAll stack (.reference (fillIn line))))
  | .operator head stack e => some (complete head (closeAll stack e))

/-- The program when all open blocks end. -/
def closeBlocks : (outer : List (List Tree)) → (done : List Tree) → List Tree
  | [], done => done.reverse
  | before :: outer, done => closeBlocks outer (.block done.reverse :: before)

/-- The text that closes all that is open. -/
def closingText (c : Config) : List Char :=
  endingText c.phase ++ List.replicate c.outer.length '}'

/-- The program that the machine holds when all that is open is closed on the given line. -/
def closed (line : Nat) (c : Config) : List Tree :=
  closeBlocks c.outer ((ended? line c.phase).toList ++ c.done)

/-! ## Closing an expression, group by group -/

theorem closers_settle : ∀ (stack : List Frame) (e : Tree),
    closers (settle stack e).1 = closers stack
  | .sign op :: stack, e => closers_settle stack (.unary op e)
  | [], _ | .group :: _, _ | .left _ _ _ :: _, _ | .target _ :: _, _ => rfl

theorem closeAll_settle : ∀ (stack : List Frame) (e : Tree),
    closeAll (settle stack e).1 (settle stack e).2 = closeAll stack e
  | .sign op :: stack, e => closeAll_settle stack (.unary op e)
  | [], _ | .group :: _, _ | .left _ _ _ :: _, _ | .target _ :: _, _ => rfl

/-- The next thing to close is the expression itself or the innermost group. -/
theorem close_cases : ∀ (stack : List Frame) (e : Tree),
    (closers stack = [] ∧ close stack e = ([], closeAll stack e)) ∨
      ∃ stack' e', closers stack = ')' :: closers stack' ∧
        close stack e = (.group :: stack', e') ∧
        closeAll stack e = closeAll stack' (.grouping e')
  | [], _ => .inl ⟨rfl, rfl⟩
  | .group :: stack, _ => .inr ⟨stack, _, rfl, rfl, rfl⟩
  | .sign op :: stack, e => close_cases stack (.unary op e)
  | .left _ l op :: stack, e => close_cases stack (.binary l op e)
  | .target name :: stack, e => close_cases stack (.assign name e)

end Config

open Config

variable {c c' : Config} {line : Nat}

/-! ## Single characters -/

/-- A mark of one character that is the start of nothing longer. -/
theorem runFrom_mark {ch : Char} {m : Mark} (hch : Mark.ofChar? ch = some m) (hslash : ch ≠ '/')
    (hlong : m.withEqual? = none)
    (hstep : c.step? ⟨.mark m, String.ofList m.text, line⟩ = some c') (cs : List Char) :
    runFrom c line (ch :: cs) = runFrom c' line cs := by
  have hread : Piece.read ch cs = (.mark m, cs) := by
    rw [Piece.read_mark hch fun h => hslash h.1]
    simp only [Piece.readMark, hlong]
  have htake := (readAs (p := .mark m) rfl line cs).take?_of_step hstep
  have hstring : Kind.mark m ≠ .string := by
    intro h
    cases h
  have hline : (Piece.mark m).newlines = 0 := newlines_of_lexeme? (.mark m) rfl hstring
  rw [runFrom_cons, hread]
  simp only [isTrivia, Bool.false_eq_true, if_false, htake, hline, Nat.add_zero]

theorem runFrom_fillIn (hstep : c.step? (fillIn line) = some c') (cs : List Char) :
    runFrom c line ('x' :: ' ' :: cs) = runFrom c' line cs := by
  have hread : Piece.read 'x' (' ' :: cs) = (.name ['x'], ' ' :: cs) := Piece.read_name rfl _
  have htake := (readAs (p := .name ['x']) rfl line (' ' :: cs)).take?_of_step hstep
  rw [runFrom_cons, hread]
  simp only [isTrivia, Bool.false_eq_true, if_false, htake]
  rw [runFrom_cons, Piece.read_blank rfl]
  rfl

/-! ## Closing everything -/

/-- Behind an operand the open groups are closed one after the other, innermost first. -/
theorem runFrom_closers (n : Nat) : ∀ {stack : List Frame}, (closers stack).length ≤ n →
    ∀ (c : Config) (head : Head) (e : Tree) (cs : List Char),
      runFrom (c.inPhase (.operator head stack e)) line (closers stack ++ ';' :: cs)
        = runFrom (c.add (complete head (closeAll stack e))) line cs := by
  induction n with
  | zero =>
      intro stack hn c head e cs
      rcases close_cases stack e with ⟨hnone, hclose⟩ | ⟨stack', _, hmore, -, -⟩
      · rw [hnone]
        exact runFrom_mark rfl (by decide) rfl (step?_semicolon rfl c head hclose) cs
      · rw [hmore] at hn
        cases hn
  | succ n ih =>
      intro stack hn c head e cs
      rcases close_cases stack e with ⟨hnone, hclose⟩ | ⟨stack', e', hmore, hclose, hall⟩
      · rw [hnone]
        exact runFrom_mark rfl (by decide) rfl (step?_semicolon rfl c head hclose) cs
      · -- the group is an operand of what is around it, so signs before it take it
        have hstep := step?_rightParen (t := ⟨.mark .rightParen, String.ofList [')'], line⟩) rfl c
          head hclose
        have hclosers := closers_settle stack' (.grouping e')
        have hshorter : (closers (settle stack' (.grouping e')).1).length ≤ n := by
          rw [hmore] at hn
          rw [hclosers]
          exact Nat.le_of_succ_le_succ hn
        rw [hmore, List.cons_append, runFrom_mark rfl (by decide) rfl hstep, ← hclosers,
          ih hshorter, closeAll_settle, hall]

/-- A statement that has begun is ended. -/
theorem runFrom_endingText (c : Config) (cs : List Char) :
    runFrom c line (endingText c.phase ++ cs)
      = runFrom ⟨c.outer, (ended? line c.phase).toList ++ c.done, .between⟩ line cs := by
  rcases c with ⟨outer, done, phase⟩
  have hclosers (head : Head) (stack : List Frame) (e : Tree) :
      runFrom ⟨outer, done, .operator head stack e⟩ line (closers stack ++ ';' :: cs)
        = runFrom ⟨outer, complete head (closeAll stack e) :: done, .between⟩ line cs :=
    runFrom_closers _ (Nat.le_refl (closers stack).length) ⟨outer, done, .between⟩ head e cs
  cases phase with
  | between => rfl
  | naming =>
      have hstep : Config.step? ⟨outer, done, .naming⟩ (fillIn line)
          = some ⟨outer, done, .named (fillIn line)⟩ := rfl
      refine (runFrom_fillIn hstep (';' :: cs)).trans ?_
      exact runFrom_mark rfl (by decide) rfl rfl cs
  | named name => exact runFrom_mark rfl (by decide) rfl rfl cs
  | operator head stack e =>
      show runFrom _ line ((closers stack ++ [';']) ++ cs) = _
      rw [List.append_assoc]
      exact hclosers head stack e
  | operand head stack =>
      have hstep := step?_atom (t := fillIn line) (.name rfl) ⟨outer, done, .between⟩ head stack
      show runFrom _ line ('x' :: ' ' :: ((closers stack ++ [';']) ++ cs)) = _
      refine (runFrom_fillIn hstep _).trans ?_
      rw [List.append_assoc, ← closers_settle stack (.reference (fillIn line))]
      refine (hclosers head _ _).trans ?_
      rw [closeAll_settle]
      rfl

/-- The open blocks are ended, innermost first. -/
theorem runFrom_braces : ∀ (outer : List (List Tree)) (done : List Tree),
    runFrom ⟨outer, done, .between⟩ line (List.replicate outer.length '}')
      = .ok ⟨[], (closeBlocks outer done).reverse, .between⟩
  | [], done => by
      rw [closeBlocks, List.reverse_reverse]
      rfl
  | before :: outer, done => by
      have hstep : (⟨before :: outer, done, .between⟩ : Config).step?
          ⟨.mark .rightBrace, String.ofList ['}'], line⟩
            = some ⟨outer, .block done.reverse :: before, .between⟩ := rfl
      exact (runFrom_mark rfl (by decide) rfl hstep _).trans (runFrom_braces outer _)

/-- From any state, the text read off it leads to the end of a program. -/
theorem runFrom_closingText (c : Config) : runFrom c line c.closingText
    = .ok ⟨[], (c.closed line).reverse, .between⟩ := by
  rw [closingText, runFrom_endingText]
  exact runFrom_braces c.outer _

end RoxLang.Automaton
