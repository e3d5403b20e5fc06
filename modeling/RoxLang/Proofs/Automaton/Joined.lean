/-
# `RoxLang.Proofs.Automaton.Joined` — the machine on texts put after each other

The machine asks for a next piece what its state can take, so what it makes of a text depends on
where it starts.  It does not depend on the lines of the tokens, nor on the statements that were
read before the first block that is still open.  So a machine that starts between statements does
with a text what the fresh machine does with it, on top of the statements that it holds.

Moving a machine is a map on its states.  A map that goes along with every step goes along with
every run, and two such maps are all that is needed: one lowers the tokens, one puts statements
below the rest.
-/
import RoxLang.Proofs.Automaton.Text
import RoxLang.Proofs.Grammar.Lower
import RoxLang.Proofs.Lexeme.Joined

namespace RoxLang

open RoxLang.Tree (lowerAll)

theorem Token.lower_kind (lines : Nat) (t : Token) : (t.lower lines).kind = t.kind := rfl

theorem Tree.atom?_lower (lines : Nat) (t : Token) :
    Tree.atom? (t.lower lines) = (Tree.atom? t).map (Tree.lower lines) := by
  rcases t with ⟨kind, lexeme, line⟩
  cases kind with
  | word w => cases w <;> rfl
  | number =>
      show (Number.ofText? lexeme).map _ = ((Number.ofText? lexeme).map _).map _
      rw [Option.map_map]
      rfl
  | _ => rfl

namespace Automaton

/-! ## A machine further down -/

def Frame.lower (lines : Nat) : Frame → Frame
  | .group => .group
  | .sign op => .sign (op.lower lines)
  | .left tier l op => .left tier (l.lower lines) (op.lower lines)
  | .target name => .target (name.lower lines)

def Head.lower (lines : Nat) : Head → Head
  | .print => .print
  | .define name => .define (name.lower lines)
  | .discard => .discard

def Phase.lower (lines : Nat) : Phase → Phase
  | .between => .between
  | .naming => .naming
  | .named name => .named (name.lower lines)
  | .operand head stack => .operand (head.lower lines) (stack.map (Frame.lower lines))
  | .operator head stack e =>
      .operator (head.lower lines) (stack.map (Frame.lower lines)) (e.lower lines)

namespace Config

def lower (lines : Nat) (c : Config) : Config :=
  ⟨c.outer.map (lowerAll lines), lowerAll lines c.done, c.phase.lower lines⟩

section

variable (lines : Nat)

/-- What the machine holds of an expression, further down. -/
def lowerHeld (held : List Frame × Tree) : List Frame × Tree :=
  (held.1.map (Frame.lower lines), held.2.lower lines)

theorem settle_lower : ∀ (stack : List Frame) (e : Tree),
    settle (stack.map (Frame.lower lines)) (e.lower lines) = lowerHeld lines (settle stack e)
  | .sign op :: stack, e => settle_lower stack (.unary op e)
  | [], _ | .group :: _, _ | .left _ _ _ :: _, _ | .target _ :: _, _ => rfl

theorem reduceTo_lower (tier : Tier) : ∀ (stack : List Frame) (e : Tree),
    reduceTo tier (stack.map (Frame.lower lines)) (e.lower lines)
      = lowerHeld lines (reduceTo tier stack e)
  | .left tighter l op :: stack, e => by
      simp only [List.map_cons, Frame.lower, reduceTo]
      split
      · exact reduceTo_lower tier stack (.binary l op e)
      · rfl
  | [], _ | .group :: _, _ | .sign _ :: _, _ | .target _ :: _, _ => rfl

theorem close_lower : ∀ (stack : List Frame) (e : Tree),
    close (stack.map (Frame.lower lines)) (e.lower lines) = lowerHeld lines (close stack e)
  | .left _ l op :: stack, e => close_lower stack (.binary l op e)
  | .target name :: stack, e => close_lower stack (.assign name e)
  | .sign op :: stack, e => close_lower stack (.unary op e)
  | [], _ | .group :: _, _ => rfl

theorem startsExpression_lower : ∀ stack : List Frame,
    startsExpression (stack.map (Frame.lower lines)) = startsExpression stack
  | [] | .group :: _ | .sign _ :: _ | .left _ _ _ :: _ | .target _ :: _ => rfl

theorem operandStep?_lower (head : Head) (stack : List Frame) (t : Token) :
    operandStep? (head.lower lines) (stack.map (Frame.lower lines)) (t.lower lines)
      = (operandStep? head stack t).map (Phase.lower lines) := by
  unfold operandStep?
  rw [Tree.atom?_lower]
  cases Tree.atom? t with
  | some atom => simp only [Option.map_some, settle_lower, lowerHeld, Phase.lower]
  | none =>
      have hkind := Token.lower_kind lines t
      simp only [Option.map_none]
      by_cases hparen : t.kind = .mark .leftParen
      · rw [if_pos hparen, if_pos (hkind.trans hparen)]
        rfl
      · rw [if_neg hparen, if_neg (hkind ▸ hparen), hkind]
        cases t.kind.isUnary <;> rfl

theorem infixStep_lower (head : Head) (stack : List Frame) (e : Tree) (tier : Tier) (t : Token) :
    infixStep (head.lower lines) (stack.map (Frame.lower lines)) (e.lower lines) tier
        (t.lower lines) = (infixStep head stack e tier t).lower lines := by
  simp only [infixStep, reduceTo_lower, lowerHeld, Phase.lower, List.map_cons, Frame.lower]

theorem assignStep?_lower (head : Head) (stack : List Frame) (e : Tree) :
    assignStep? (head.lower lines) (stack.map (Frame.lower lines)) (e.lower lines)
      = (assignStep? head stack e).map (Phase.lower lines) := by
  cases e with
  | reference name =>
      simp only [Tree.lower, assignStep?, startsExpression_lower]
      split <;> rfl
  | _ => rfl

theorem groupStep?_lower (head : Head) (stack : List Frame) (e : Tree) :
    groupStep? (head.lower lines) (stack.map (Frame.lower lines)) (e.lower lines)
      = (groupStep? head stack e).map (Phase.lower lines) := by
  simp only [groupStep?, close_lower]
  rcases close stack e with ⟨_ | ⟨_ | _ | _ | _, stack⟩, e⟩
  case cons.group =>
    have hsettle := settle_lower lines stack (.grouping e)
    simp only [Tree.lower] at hsettle
    simp only [lowerHeld, List.map_cons, Frame.lower, hsettle, Option.map_some, Phase.lower]
  all_goals rfl

theorem complete_lower (head : Head) (e : Tree) :
    complete (head.lower lines) (e.lower lines) = (complete head e).lower lines := by
  cases head <;> rfl

theorem statement?_lower (head : Head) (stack : List Frame) (e : Tree) :
    statement? (head.lower lines) (stack.map (Frame.lower lines)) (e.lower lines)
      = (statement? head stack e).map (Tree.lower lines) := by
  simp only [statement?, close_lower]
  rcases close stack e with ⟨_ | ⟨_, _⟩, e⟩
  · exact congrArg some (complete_lower lines head e)
  · rfl

theorem inPhase_lower (c : Config) (phase? : Option Phase) :
    (phase?.map (Phase.lower lines)).map (c.lower lines).inPhase
      = (phase?.map c.inPhase).map (lower lines) := by
  cases phase? <;> rfl

theorem lowerAll_reverse (ts : List Tree) :
    lowerAll lines ts.reverse = (lowerAll lines ts).reverse := by
  simp only [Tree.lowerAll_eq_map, List.map_reverse]

theorem operatorStep?_lower (c : Config) (head : Head) (stack : List Frame) (e : Tree) (t : Token) :
    (c.lower lines).operatorStep? (head.lower lines) (stack.map (Frame.lower lines)) (e.lower lines)
        (t.lower lines)
      = (c.operatorStep? head stack e t).map (lower lines) := by
  have htier (kind : Kind) : (kind.tier?.map fun tier => (c.lower lines).inPhase
      (infixStep (head.lower lines) (stack.map (Frame.lower lines)) (e.lower lines) tier
        (t.lower lines)))
        = (kind.tier?.map fun tier => c.inPhase (infixStep head stack e tier t)).map
          (lower lines) := by
    cases kind.tier? with
    | none => rfl
    | some tier =>
        simp only [Option.map_some, infixStep_lower]
        rfl
  unfold operatorStep?
  rw [Token.lower_kind]
  split
  · rw [assignStep?_lower, inPhase_lower]
  · rw [groupStep?_lower, inPhase_lower]
  · rw [statement?_lower]
    cases statement? head stack e <;> rfl
  · exact htier _

theorem startStep?_lower (c : Config) (t : Token) :
    (c.lower lines).startStep? (t.lower lines) = (c.startStep? t).map (lower lines) := by
  unfold startStep?
  rw [Token.lower_kind]
  split
  · rfl
  · rfl
  · rfl
  · rcases c with ⟨_ | ⟨before, outer⟩, done, phase⟩
    · rfl
    · simp only [lower, List.map_cons, Option.map_some, lowerAll, Tree.lower, Phase.lower,
        lowerAll_reverse]
  · exact (congrArg (Option.map _) (operandStep?_lower lines .discard [] t)).trans
      (inPhase_lower lines c _)

/-- The machine does not see on which line it is. -/
theorem step?_lower (c : Config) (t : Token) :
    (c.lower lines).step? (t.lower lines) = (c.step? t).map (lower lines) := by
  rcases c with ⟨outer, done, phase⟩
  cases phase with
  | between => exact startStep?_lower lines ⟨outer, done, .between⟩ t
  | naming =>
      show (if t.kind = .identifier then _ else _)
        = Option.map _ (if t.kind = .identifier then _ else _)
      split <;> rfl
  | named name =>
      simp only [step?, lower, Phase.lower, Token.lower_kind]
      split <;> rfl
  | operand head stack =>
      exact (congrArg (Option.map _) (operandStep?_lower lines head stack t)).trans
        (inPhase_lower lines ⟨outer, done, .operand head stack⟩ _)
  | operator head stack e =>
      exact operatorStep?_lower lines ⟨outer, done, .operator head stack e⟩ head stack e t

end

/-! ## A machine on top of statements -/

section

variable (base : List Tree)

/-- The statements of a level, on top of the base where no block is open around them. -/
def onBase : (outer : List (List Tree)) → (done : List Tree) → List Tree
  | [], done => done ++ base
  | _ :: _, done => done

/-- The statements before each open block, the outermost on top of the base. -/
def allOnBase : List (List Tree) → List (List Tree)
  | [] => []
  | done :: outer => onBase base outer done :: allOnBase outer

/-- The machine after the statements of the base, which is listed last one first. -/
def onto (c : Config) : Config := ⟨allOnBase base c.outer, onBase base c.outer c.done, c.phase⟩

theorem onBase_cons (statement : Tree) (outer : List (List Tree)) (done : List Tree) :
    onBase base outer (statement :: done) = statement :: onBase base outer done := by
  cases outer <;> rfl

theorem inPhase_onto (c : Config) (phase? : Option Phase) :
    phase?.map (c.onto base).inPhase = (phase?.map c.inPhase).map (onto base) := by
  cases phase? <;> rfl

theorem add_onto (c : Config) (statement : Tree) :
    (c.onto base).add statement = (c.add statement).onto base := by
  simp only [onto, add, onBase_cons]

theorem operatorStep?_onto (c : Config) (head : Head) (stack : List Frame) (e : Tree) (t : Token) :
    (c.onto base).operatorStep? head stack e t
      = (c.operatorStep? head stack e t).map (onto base) := by
  unfold operatorStep?
  split
  · exact inPhase_onto base c _
  · exact inPhase_onto base c _
  · cases statement? head stack e with
    | none => rfl
    | some statement => exact congrArg some (add_onto base c statement)
  · cases t.kind.tier? <;> rfl

theorem startStep?_onto (c : Config) (t : Token) :
    (c.onto base).startStep? t = (c.startStep? t).map (onto base) := by
  unfold startStep?
  split
  · rfl
  · rfl
  · rfl
  · rcases c with ⟨_ | ⟨before, outer⟩, done, phase⟩
    · rfl
    · show some (⟨allOnBase base outer, .block done.reverse :: onBase base outer before, .between⟩ :
        Config) = _
      rw [← onBase_cons]
      rfl
  · exact inPhase_onto base c _

/-- Nor does it see what it has read before the first open block. -/
theorem step?_onto (c : Config) (t : Token) :
    (c.onto base).step? t = (c.step? t).map (onto base) := by
  rcases c with ⟨outer, done, phase⟩
  cases phase with
  | between => exact startStep?_onto base ⟨outer, done, .between⟩ t
  | naming =>
      simp only [step?, onto]
      split <;> rfl
  | named name =>
      simp only [step?, onto]
      split
      · rfl
      · exact congrArg some (add_onto base ⟨outer, done, .named name⟩ _)
      · rfl
  | operand head stack => exact inPhase_onto base ⟨outer, done, .operand head stack⟩ _
  | operator head stack e =>
      exact operatorStep?_onto base ⟨outer, done, .operator head stack e⟩ head stack e t

end

end Config

/-! ## Runs over a text, without counting pieces -/

/-- Run the machine over a text that starts on the given line. -/
def runFrom (c : Config) (line : Nat) (cs : List Char) : Except ParseFault Config :=
  runWithin cs.length c line cs

section

variable {line : Nat} {ch : Char} {cs : List Char}

theorem newlines_cut (ch : Char) (cs : List Char) : Text.newlines (ch :: cs)
    = (Piece.read ch cs).1.newlines + Text.newlines (Piece.read ch cs).2 := by
  rw [Piece.newlines, ← newlines_append, Piece.read_cut]

/-- A reading leaves what is behind its piece, or one character more, which ends no line. -/
theorem rest_of_mem_readings {r : Reading}
    (hr : r ∈ readings line (Piece.read ch cs).2 (Piece.read ch cs).1) :
    r.rest.length ≤ cs.length ∧ Text.newlines r.rest = Text.newlines (Piece.read ch cs).2 := by
  have hrest := Piece.read_rest_length ch cs
  have hcut := congrArg List.length (Piece.read_cut ch cs)
  generalize Piece.read ch cs = found at hr hrest hcut ⊢
  obtain ⟨p, rest⟩ := found
  cases hl : p.lexeme? with
  | none =>
      have hnone : readings line rest p = [] := by
        cases p with
        | mark _ | number _ _ | name _ | string _ => cases hl
        | blank _ | comment _ | stray _ | unclosed _ => rfl
      rw [hnone] at hr
      cases hr
  | some lexeme =>
      obtain ⟨kind, text⟩ := lexeme
      have hread := readAs hl line rest
      generalize readings line rest p = rs at hr hread
      cases hread with
      | never _ => cases hr
      | alone =>
          obtain rfl := List.mem_singleton.mp hr
          exact ⟨hrest, rfl⟩
      | name _ _ =>
          rcases List.mem_pair.mp hr with rfl | rfl
          · exact ⟨hrest, rfl⟩
          · exact ⟨hrest, rfl⟩
      | short hm htext =>
          rcases List.mem_pair.mp hr with rfl | rfl
          · exact ⟨hrest, rfl⟩
          · have htwo := htext ▸ length_of_withoutEqual? hm
            have hlength := length_of_lexeme? hl
            simp only [List.length_append, List.length_cons] at hcut
            refine ⟨?_, List.count_cons_of_ne (by decide)⟩
            simp only [markReading, List.length_cons]
            omega

theorem mem_of_take? {c c' : Config} {rs : List Reading} {r : Reading}
    (h : take? c rs = some (c', r)) : r ∈ rs := by
  obtain ⟨r', hr', hstep⟩ := List.exists_of_findSome?_eq_some h
  obtain ⟨_, -, heq⟩ := Option.map_eq_some_iff.mp hstep
  cases heq
  exact hr'

/-- Any number of pieces that is not less than the number of characters is enough. -/
theorem runWithin_stable : ∀ {n m : Nat} {c : Config} {line : Nat} {cs : List Char},
    cs.length ≤ n → cs.length ≤ m → runWithin n c line cs = runWithin m c line cs
  | n, m, c, line, [], _, _ => by rw [runWithin_nil, runWithin_nil]
  | 0, _, _, _, _ :: _, hn, _ => absurd hn (Nat.not_succ_le_zero _)
  | _, 0, _, _, _ :: _, _, hm => absurd hm (Nat.not_succ_le_zero _)
  | n + 1, m + 1, c, line, ch :: cs, hn, hm => by
      have hn := Nat.le_of_succ_le_succ hn
      have hm := Nat.le_of_succ_le_succ hm
      rw [runWithin_cons, runWithin_cons]
      split
      · have hrest := Piece.read_rest_length ch cs
        exact runWithin_stable (Nat.le_trans hrest hn) (Nat.le_trans hrest hm)
      · split
        · next htake =>
            have hrest := (rest_of_mem_readings (mem_of_take? htake)).1
            exact runWithin_stable (Nat.le_trans hrest hn) (Nat.le_trans hrest hm)
        · rfl

theorem runFrom_cons (c : Config) (line : Nat) (ch : Char) (cs : List Char) :
    runFrom c line (ch :: cs)
      = if isTrivia (Piece.read ch cs).1 then
          runFrom c (line + (Piece.read ch cs).1.newlines) (Piece.read ch cs).2
        else match take? c (readings line (Piece.read ch cs).2 (Piece.read ch cs).1) with
          | some (c', r) => runFrom c' (line + (Piece.read ch cs).1.newlines) r.rest
          | none => .error
              (faultAt ch line (readings line (Piece.read ch cs).2 (Piece.read ch cs).1)) := by
  unfold runFrom
  rw [List.length_cons, runWithin_cons]
  split
  · exact runWithin_stable (Piece.read_rest_length ch cs) (Nat.le_refl _)
  · cases htake : take? c (readings line (Piece.read ch cs).2 (Piece.read ch cs).1) with
    | none => rfl
    | some taken =>
        exact runWithin_stable (rest_of_mem_readings (mem_of_take? htake)).1 (Nat.le_refl _)

end

/-! ## Moving a run -/

section

variable {F : Config → Config} {lines : Nat} {x : List Char}

/-- A reading further down, with more text behind it. -/
def Reading.moved (lines : Nat) (x : List Char) (r : Reading) : Reading :=
  ⟨r.token.lower lines, r.rest ++ x⟩

theorem readings_moved (line : Nat) (rest : List Char) (p : Piece) :
    readings (line + lines) (rest ++ x) p = (readings line rest p).map (Reading.moved lines x) := by
  cases p with
  | mark m => cases m <;> rfl
  | name cs =>
      simp only [readings]
      cases Word.ofText? cs with
      | none => rfl
      | some w => cases hw : w.inUse <;> simp only [hw] <;> rfl
  | _ => rfl

theorem take?_moved (hF : ∀ c t, (F c).step? (t.lower lines) = (c.step? t).map F) (c : Config)
    (rs : List Reading) : take? (F c) (rs.map (Reading.moved lines x))
      = (take? c rs).map fun (c', r) => (F c', r.moved lines x) := by
  induction rs with
  | nil => rfl
  | cons r rs ih =>
      have hstep : (F c).step? (r.moved lines x).token = (c.step? r.token).map F := hF c r.token
      unfold take? at ih ⊢
      rw [List.map_cons, List.findSome?_cons, List.findSome?_cons, hstep]
      cases c.step? r.token with
      | some next => rfl
      | none => exact ih

/-- One piece of a moved run, if it is not a string that is still open. -/
theorem runFrom_moved_cons (hF : ∀ c t, (F c).step? (t.lower lines) = (c.step? t).map F)
    (hx : NewLine x) {ch : Char} {cs : List Char} (hclosed : Piece.read ch cs ≠ (.unclosed cs, []))
    (c : Config) (line : Nat) : runFrom (F c) (line + lines) (ch :: cs ++ x)
      = if isTrivia (Piece.read ch cs).1 then
          runFrom (F c) (line + (Piece.read ch cs).1.newlines + lines) ((Piece.read ch cs).2 ++ x)
        else match take? c (readings line (Piece.read ch cs).2 (Piece.read ch cs).1) with
          | some (c', r) =>
              runFrom (F c') (line + (Piece.read ch cs).1.newlines + lines) (r.rest ++ x)
          | none => .error (faultAt ch (line + lines)
              ((readings line (Piece.read ch cs).2 (Piece.read ch cs).1).map
                (Reading.moved lines x))) := by
  rw [List.cons_append, runFrom_cons, Piece.read_append hx hclosed, readings_moved, take?_moved hF,
    Nat.add_right_comm]
  cases take? c (readings line (Piece.read ch cs).2 (Piece.read ch cs).1) <;> rfl

/-- A map that goes along with every step goes along with every run, and a run that ends well goes
on with what follows on a new line. -/
theorem runFrom_moved (hF : ∀ c t, (F c).step? (t.lower lines) = (c.step? t).map F)
    (hx : NewLine x) (n : Nat) : ∀ {cs : List Char} {c c' : Config} {line : Nat},
    cs.length ≤ n → runFrom c line cs = .ok c' → runFrom (F c) (line + lines) (cs ++ x)
      = runFrom (F c') (line + Text.newlines cs + lines) x := by
  induction n with
  | zero =>
      intro cs c c' line hn h
      obtain rfl := List.length_eq_zero_iff.mp (Nat.le_zero.mp hn)
      cases h
      rfl
  | succ n ih =>
      intro cs c c' line hn h
      cases cs with
      | nil =>
          cases h
          rfl
      | cons ch cs =>
          have hn := Nat.le_of_succ_le_succ hn
          rw [runFrom_cons] at h
          have hclosed : Piece.read ch cs ≠ (.unclosed cs, []) := by
            intro hread
            rw [hread] at h
            cases h
          rw [runFrom_moved_cons hF hx hclosed, newlines_cut, ← Nat.add_assoc]
          split at h
          · next htrivia =>
              rw [if_pos htrivia]
              exact ih (Nat.le_trans (Piece.read_rest_length ch cs) hn) h
          · next htrivia =>
              rw [if_neg htrivia]
              split at h
              · next htake =>
                  obtain ⟨hlength, hnewlines⟩ := rest_of_mem_readings (mem_of_take? htake)
                  rw [← hnewlines]
                  exact ih (Nat.le_trans hlength hn) h
              · cases h

end

/-! ## Texts put after each other -/

theorem eq_of_finish? {c : Config} {trees : List Tree} (h : c.finish? = some trees) :
    c = ⟨[], trees.reverse, .between⟩ := by
  rcases c with ⟨outer, done, phase⟩
  cases phase with
  | between =>
      cases outer with
      | nil =>
          obtain rfl := Option.some.inj h
          rw [List.reverse_reverse]
      | cons _ _ => cases h
  | _ => cases h

/-- A machine that stays where it is goes along with every step. -/
theorem step?_unmoved (c : Config) (t : Token) :
    (id c).step? (t.lower 0) = (c.step? t).map id := by
  rw [Token.lower_zero, Option.map_id]
  rfl

/-- A run that ends well goes on with what follows on a new line. -/
theorem run_newLine {cs : List Char} {c : Config} (h : run cs = .ok c) (ds : List Char) :
    run (cs ++ '\n' :: ds) = runFrom c (Text.newlines cs + 1) ds := by
  have hmoved := runFrom_moved step?_unmoved (newLine_cons ds) _ (Nat.le_refl _) h
  simp only [id, Nat.zero_add, Nat.add_zero] at hmoved
  refine Eq.trans hmoved ?_
  rw [runFrom_cons, Piece.read_blank rfl]
  rfl

/-- Two texts that are programs are one, put after each other on lines of their own. -/
theorem run_joined {cs ds : List Char} {c d : Config} {as bs : List Tree}
    (hc : run cs = .ok c) (has : c.finish? = some as) (hd : run ds = .ok d)
    (hbs : d.finish? = some bs) : ∃ e, run (cs ++ '\n' :: ds) = .ok e ∧
      e.finish? = some (as ++ lowerAll (Text.newlines cs + 1) bs) := by
  have hstep (c : Config) (t : Token) :
      ((c.lower (Text.newlines cs + 1)).onto as.reverse).step? (t.lower (Text.newlines cs + 1))
        = (c.step? t).map fun c => (c.lower (Text.newlines cs + 1)).onto as.reverse := by
    rw [Config.step?_onto, Config.step?_lower, Option.map_map]
    rfl
  have hsecond := runFrom_moved hstep newLine_nil _ (Nat.le_refl _) hd
  rw [List.append_nil, Nat.zero_add] at hsecond
  refine ⟨(d.lower (Text.newlines cs + 1)).onto as.reverse, ?_, ?_⟩
  · rw [run_newLine hc, eq_of_finish? has]
    exact hsecond
  · rw [eq_of_finish? hbs]
    show some (lowerAll (Text.newlines cs + 1) bs.reverse ++ as.reverse).reverse = _
    rw [List.reverse_append, List.reverse_reverse, Config.lowerAll_reverse, List.reverse_reverse]

end Automaton

end RoxLang
