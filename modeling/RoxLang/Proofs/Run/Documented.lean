/-
# `RoxLang.Proofs.Run.Documented` — how programs can fail

A run has more ways to stop than a program can meet.  The operators of the grammar are all known to
the evaluator and refuse operands for their kinds alone; a name that is not bound is one that the
program mentions.  Everything else — an operator that is none, a node that is none, too many
levels — takes a tree that no front end makes, or one that nests too deep.  Division is never one
of the ways, because a zero divisor is never left to the machine.

The induction is on the evaluation, and the names of the program are fixed through it: what a part
mentions the whole mentions.
-/
import RoxLang.Proofs.Reading
import RoxLang.Proofs.Run.Refinement
import RoxLang.Proofs.Run.Sight

namespace RoxLang

open Grammar (Operator Sign)
open RoxLang.Tree (namesOfAll)

/-- The faults of programs that mention no other names: an operator refuses the kinds of its
operands, or a name is not bound. -/
inductive RunFault.Documented (names : List String) : RunFault → Prop
  | negatedKind (kind : Value.Kind) : Documented names (.negatedKind kind)
  | addedKinds (left right : Value.Kind) : Documented names (.addedKinds left right)
  | leftOperand (op : String) (kind : Value.Kind) : Documented names (.leftOperand op kind)
  | rightOperand (op : String) (kind : Value.Kind) : Documented names (.rightOperand op kind)
  | undefinedVariable {name : String} : name ∈ names → Documented names (.undefinedVariable name)

/-- A documented fault has one of two categories. -/
theorem RunFault.Documented.category? {names : List String} {f : RunFault}
    (h : f.Documented names) :
    f.category? = some .typeMismatch ∨ f.category? = some .undefinedVariable := by
  cases h with
  | negatedKind _ | addedKinds _ _ | leftOperand _ _ | rightOperand _ _ => exact .inl rfl
  | undefinedVariable _ => exact .inr rfl

/-- What ends so has a value or a documented fault. -/
def EndsAsDocumented {α : Type} (names : List String) (r : Except RunFault α) : Prop :=
  ∀ f, r = .error f → f.Documented names

section

variable {names : List String} {op : Token} {tier : Tier}

theorem endsAsDocumented_ok {α : Type} (a : α) :
    EndsAsDocumented names (.ok a : Except RunFault α) := by
  intro f h
  cases h

theorem endsAsDocumented_error {α : Type} {f : RunFault} (h : f.Documented names) :
    EndsAsDocumented names (.error f : Except RunFault α) := by
  rintro _ ⟨⟩
  exact h

/-- A documented fault is one whatever it is that it stops. -/
theorem EndsAsDocumented.stop {α β : Type} {f : RunFault}
    (h : EndsAsDocumented names (.error f : Except RunFault α)) :
    EndsAsDocumented names (.error f : Except RunFault β) := endsAsDocumented_error (h f rfl)

/-! ## Operators -/

theorem endsAsDocumented_unary (hop : Sign op.kind) (v : Value) :
    EndsAsDocumented names (applyUnary op v) := by
  unfold applyUnary
  generalize op.kind = kind at hop
  cases hop with
  | bang => exact endsAsDocumented_ok _
  | minus =>
      cases v with
      | number x => exact endsAsDocumented_ok _
      | _ => exact endsAsDocumented_error (.negatedKind _)

/-- The three ways in which the operators of the grammar work. -/
theorem applyBinary_cases (hop : Operator tier op.kind) (v w : Value) :
    (∃ b, applyBinary op v w = .ok (.boolean b)) ∨ applyBinary op v w = addValues v w ∨
      (applyBinary op v w = applyToNumbers op v w ∧
        ∀ x y, ∃ u, arithmetic op x y = .ok u) := by
  unfold applyBinary arithmetic
  generalize op.kind = kind at hop
  cases hop with
  | bangEqual | equalEqual => exact .inl ⟨_, rfl⟩
  | plus => exact .inr (.inl rfl)
  | greater | greaterEqual | less | lessEqual | minus | star =>
      exact .inr (.inr ⟨rfl, fun _ _ => ⟨_, rfl⟩⟩)
  | slash =>
      refine .inr (.inr ⟨rfl, fun x y => ?_⟩)
      obtain ⟨z, hz⟩ := x.exists_divide y
      exact ⟨.number z, by simp only [hz]; rfl⟩

theorem endsAsDocumented_binary (hop : Operator tier op.kind) (v w : Value) :
    EndsAsDocumented names (applyBinary op v w) := by
  rcases applyBinary_cases hop v w with ⟨b, h⟩ | h | ⟨h, hnumbers⟩
  · rw [h]
    exact endsAsDocumented_ok _
  · rw [h]
    unfold addValues
    split
    · exact endsAsDocumented_ok _
    · exact endsAsDocumented_ok _
    · exact endsAsDocumented_error (.addedKinds _ _)
  · rw [h]
    unfold applyToNumbers
    split
    · next x y =>
        obtain ⟨u, hu⟩ := hnumbers x y
        rw [hu]
        exact endsAsDocumented_ok u
    · exact endsAsDocumented_error (.rightOperand _ _)
    · exact endsAsDocumented_error (.leftOperand _ _)

/-- No operator before its operand refuses a number. -/
theorem exists_applyUnary_number (hop : Sign op.kind) (x : Number) :
    ∃ v, applyUnary op (.number x) = .ok v := by
  unfold applyUnary
  generalize op.kind = kind at hop
  cases hop with
  | bang | minus => exact ⟨_, rfl⟩

/-- No operator between its operands refuses two numbers, whatever these are. -/
theorem exists_applyBinary_numbers (hop : Operator tier op.kind) (x y : Number) :
    ∃ v, applyBinary op (.number x) (.number y) = .ok v := by
  rcases applyBinary_cases hop (.number x) (.number y) with ⟨b, h⟩ | h | ⟨h, hnumbers⟩
  · exact ⟨_, h⟩
  · exact ⟨_, h⟩
  · obtain ⟨u, hu⟩ := hnumbers x y
    refine ⟨u, h.trans ?_⟩
    simp only [applyToNumbers, hu]

/-! ## Trees -/

theorem Tree.namesOfAll_cons (t : Tree) (ts : List Tree) :
    namesOfAll (t :: ts) = t.names ++ namesOfAll ts := List.map_append

mutual

theorem endsAsDocumented_of_evaluates : ∀ {t : Tree} {c c' : Chain} {out : List String}
    {r : Except RunFault Value}, Evaluates t c out c' r → t.Proper → t.names ⊆ names →
    EndsAsDocumented names r
  | _, _, _, _, _, .literal, _, _ => endsAsDocumented_ok _
  | _, _, _, _, _, .unary _, .unary hop _, _ => endsAsDocumented_unary hop _
  | _, _, _, _, _, .unaryFault h, .unary _ he, hn => endsAsDocumented_of_evaluates h he hn
  | _, _, _, _, _, .binary _ _, .binary hop _ _, _ => endsAsDocumented_binary hop _ _
  | _, _, _, _, _, .leftFault h, .binary _ hl _, hn => by
      rw [Tree.names_binary] at hn
      exact endsAsDocumented_of_evaluates h hl (List.append_subset.mp hn).1
  | _, _, _, _, _, .rightFault _ h, .binary _ _ hr, hn => by
      rw [Tree.names_binary] at hn
      exact endsAsDocumented_of_evaluates h hr (List.append_subset.mp hn).2
  | _, _, _, _, _, .grouping h, .grouping he, hn => endsAsDocumented_of_evaluates h he hn
  | _, _, _, _, _, .reference _ _, _, _ => endsAsDocumented_ok _
  | _, _, _, _, _, .unknown _, _, hn =>
      endsAsDocumented_error (.undefinedVariable (hn List.mem_cons_self))
  | _, _, _, _, _, .assign _ _ _, _, _ => endsAsDocumented_ok _
  | _, _, _, _, _, .unowned _ _, _, hn =>
      endsAsDocumented_error (.undefinedVariable (hn List.mem_cons_self))
  | _, _, _, _, _, .assignFault h, .assign _ he, hn =>
      endsAsDocumented_of_evaluates h he (List.cons_subset.mp hn).2
  | _, _, _, _, _, .discard _, _, _ => endsAsDocumented_ok _
  | _, _, _, _, _, .discardFault h, .discard he, hn => endsAsDocumented_of_evaluates h he hn
  | _, _, _, _, _, .print _, _, _ => endsAsDocumented_ok _
  | _, _, _, _, _, .printFault h, .print he, hn => endsAsDocumented_of_evaluates h he hn
  | _, _, _, _, _, .declare, _, _ => endsAsDocumented_ok _
  | _, _, _, _, _, .define _, _, _ => endsAsDocumented_ok _
  | _, _, _, _, _, .defineFault h, .define _ he, hn =>
      endsAsDocumented_of_evaluates h he (List.cons_subset.mp hn).2
  | _, _, _, _, _, .block _, _, _ => endsAsDocumented_ok _
  | _, _, _, _, _, .blockFault h, .block hts, hn => (endsAsDocumented_of_executes h hts hn).stop

theorem endsAsDocumented_of_executes : ∀ {ts : List Tree} {c c' : Chain} {out : List String}
    {r : Except RunFault Unit}, Executes ts c out c' r → (∀ t ∈ ts, t.Proper) →
    namesOfAll ts ⊆ names → EndsAsDocumented names r
  | _, _, _, _, _, .nil, _, _ => endsAsDocumented_ok _
  | _, _, _, _, _, .cons _ hts, hproper, hn => by
      obtain ⟨-, hproper⟩ := List.forall_mem_cons.mp hproper
      rw [Tree.namesOfAll_cons] at hn
      exact endsAsDocumented_of_executes hts hproper (List.append_subset.mp hn).2
  | _, _, _, _, _, .stop ht, hproper, hn => by
      obtain ⟨hproper, -⟩ := List.forall_mem_cons.mp hproper
      rw [Tree.namesOfAll_cons] at hn
      exact (endsAsDocumented_of_evaluates ht hproper (List.append_subset.mp hn).1).stop

end

end

/-! ## Programs -/

/-- A proper program that nests within the limit has no undocumented faults. -/
theorem endsAsDocumented_runProgram {trees : List Tree} (hproper : ∀ t ∈ trees, t.Proper)
    {m : Machine} (hscopes : m.scopes ≠ []) (hnesting : Tree.nestingOfAll trees ≤ Run.levelLimit) :
    EndsAsDocumented (namesOfAll trees) (m.runProgram trees).1 := by
  obtain ⟨out, c, r, hexecutes, -⟩ := exists_executes trees (List.length_pos_iff.mpr hscopes)
  have hnative := Tree.areNative_of_forall fun t ht => (hproper t ht).isNative
  have hrun :=
    (Run.program_iff_executes trees m hscopes hnesting (.inr hnative) out c r).mp hexecutes
  rw [Machine.runProgram, hrun.1]
  exact endsAsDocumented_of_executes hexecutes hproper (List.Subset.refl _)

/-- Scanned tokens are a program, or there are faults to report. -/
theorem exists_blames_of_scan {source : String} {tokens : List Token}
    (hscan : scan source = .ok tokens) {r : Descent.Rejection}
    (h : Descent.parse tokens = .error r) : ∃ blames, blames ≠ [] ∧ r = .faults blames := by
  obtain ⟨-, f, fs, -, rfl⟩ := failures_of_rejected_scan hscan h
  exact ⟨_, List.cons_ne_nil _ _, rfl⟩

/-- Programs that a front end has read fail in the two documented ways only.  Their statements are
proper and can all be printed.  Within the limit a run, from whatever scopes, ends without a fault,
or an operator refuses the kinds of its operands, or a name of the program is not bound; and no
operator refuses numbers, whichever they are.  Every number token of a scan is a numeral and reads
as the decimal of its digits, and the descent rejects scanned tokens with faults to report and in
no other way. -/
theorem read_programs_fail_as_documented :
    (∀ (frontEnd : FrontEnd) (source : String) (trees : List Tree),
      (frontEnd.read source).2 = .ok trees →
        (∀ t ∈ trees, t.Proper) ∧ (∃ texts, Tree.renderAll trees = .ok texts) ∧
        ∀ m : Machine, m.scopes ≠ [] → Tree.nestingOfAll trees ≤ Run.levelLimit →
          ∀ f, (m.runProgram trees).1 = .error f → f.Documented (namesOfAll trees) ∧
            (f.category? = some .typeMismatch ∨ f.category? = some .undefinedVariable)) ∧
    (∀ (op : Token) (x y : Number),
      (Sign op.kind → ∃ v, applyUnary op (.number x) = .ok v) ∧
      ∀ tier, Operator tier op.kind → ∃ v, applyBinary op (.number x) (.number y) = .ok v) ∧
    ∀ (source : String) (tokens : List Token), scan source = .ok tokens →
      (∀ t ∈ tokens, t.kind = .number → ∃ whole fraction : List Char,
        (Piece.number whole fraction).Lawful ∧
        t.lexeme.toList = (Piece.number whole fraction).text ∧
        Number.ofText? t.lexeme = some (Decimal.ofDigits whole fraction).toNumber) ∧
      ∀ r, Descent.parse tokens = .error r → ∃ blames, blames ≠ [] ∧ r = .faults blames := by
  refine ⟨?_, ?_, ?_⟩
  · intro frontEnd source trees hread
    have hproper := proper_of_read hread
    refine ⟨hproper, Tree.exists_renderAll fun t ht => (hproper t ht).isNative, ?_⟩
    intro m hscopes hnesting f hf
    have hdocumented := endsAsDocumented_runProgram hproper hscopes hnesting f hf
    exact ⟨hdocumented, hdocumented.category?⟩
  · intro op x y
    refine ⟨?_, ?_⟩
    · intro hop
      exact exists_applyUnary_number hop x
    · intro tier hop
      exact exists_applyBinary_numbers hop x y
  · intro source tokens hscan
    refine ⟨?_, ?_⟩
    · intro t ht hkind
      obtain ⟨whole, fraction, hlawful, htext⟩ := spellsNumeral_of_scan hscan t ht hkind
      exact ⟨whole, fraction, hlawful, htext, Number.ofText?_numeral hlawful htext⟩
    · intro r hr
      exact exists_blames_of_scan hscan hr

/-- `x = !-1.5;` where `x` is not bound, and `x = -;`, which is no program. -/
theorem read_programs_fail_as_documented_unbound :
    let x : Token := ⟨.identifier, "x", 0⟩
    let bang : Token := ⟨.mark .bang, "!", 0⟩
    let minus : Token := ⟨.mark .minus, "-", 0⟩
    let number : Tree := .literal (.number (Decimal.mk 15 1).toNumber)
    let trees : List Tree := [.discard (.assign x (.unary bang (.unary minus number)))]
    let f : RunFault := .undefinedVariable "x"
    (FrontEnd.automaton.read "x = !-1.5;").2 = .ok trees ∧
      ((Machine.start [Scope.empty] 3).runProgram trees).1 = .error f ∧
      f.Documented (namesOfAll trees) ∧
      ∃ tokens r, scan "x = -;" = .ok tokens ∧ Descent.parse tokens = .error r ∧
        ∃ blames, blames ≠ [] ∧ r = .faults blames := by
  intro x bang minus number trees f
  obtain ⟨hprograms, -, hlists⟩ := read_programs_fail_as_documented
  have hread : (FrontEnd.automaton.read "x = !-1.5;").2 = .ok trees := rfl
  have hfault : ((Machine.start [Scope.empty] 3).runProgram trees).1 = .error f := rfl
  obtain ⟨-, -, hrun⟩ := hprograms .automaton _ trees hread
  refine ⟨hread, hfault, (hrun _ (by decide) (by decide) f hfault).1, ?_⟩
  have hscan : ∃ tokens, scan "x = -;" = .ok tokens := ⟨_, rfl⟩
  obtain ⟨tokens, hscan⟩ := hscan
  have hparse : ∃ r, Descent.parse tokens = .error r := by
    cases hscan
    exact ⟨_, rfl⟩
  obtain ⟨r, hparse⟩ := hparse
  exact ⟨tokens, r, hscan, hparse, (hlists _ tokens hscan).2 r hparse⟩

end RoxLang
