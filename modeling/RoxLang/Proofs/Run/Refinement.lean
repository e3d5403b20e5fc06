/-
# `RoxLang.Proofs.Run.Refinement` — runs follow the structural semantics

A run differs from the semantics in three ways: it counts levels, it may note what it does, and it
goes along a chain in a loop.  None of them shows.  Levels are enough when the tree nests no
deeper than they reach.  Noting changes nothing but the trace, provided that what is to be noted
has a text. And a chain is gone along as its left operand's chain is, with one step more, so the
loop does what the recursion on the left operand would do.

The proof is an induction on the evaluation.  Since a tree may be run as a node or as the
beginning of a longer chain, the induction says of each evaluation that the run does the same both
ways.
-/
import RoxLang.Proofs.Run.BigStep
import RoxLang.Proofs.Run.Gives

namespace RoxLang.Run

open RoxLang.Tree (areNative alongSpine alongSpine_binary alongSpine_of_not_binary exists_levels
  levels_of_not_binary levels_binary levelsOfAll)

/-! ## Chains -/

/-- Run a tree and use its value. -/
def valueWithin (n : Nat) (t : Tree) : Run Value := do observed t (← treeWithin n t)

theorem Gives.value {n : Nat} {t : Tree} {m : Machine} {out : List String} {c : Chain}
    {r : Except RunFault Value} (h : Gives (treeWithin n t) m out c r)
    (ht : Tellable m.verbosity t.isNative) : Gives (valueWithin n t) m out c r := by
  cases r with
  | error f => exact h.bind_error _
  | ok v =>
      refine h.bind_silent fun m₁ hc hv => ?_
      refine gives_noting (hv ▸ ht) (Nat.succ_pos 2) (.evaluated · v) fun m₂ hc₂ _ => ?_
      rw [← hc, ← hc₂]
      exact gives_pure v m₂

/-- A step along a chain: the right operand is run, then the operator is applied. -/
def operatorStep (n : Nat) (left : Value) (op : Token) (e : Tree) : Run Value := do
  ofResult (applyBinary op left (← valueWithin n e))

/-- A run along the chain of a tree. -/
def chainWithin (n : Nat) (t : Tree) : Run Value := alongSpine (valueWithin n) (operatorStep n) t

theorem treeWithin_binary (n : Nat) (l : Tree) (op : Token) (r : Tree) :
    treeWithin (n + 1) (.binary l op r) = chainWithin n (.binary l op r) := rfl

theorem chainWithin_binary (n : Nat) (l : Tree) (op : Token) (r : Tree) :
    chainWithin n (.binary l op r) = chainWithin n l >>= fun v => operatorStep n v op r :=
  alongSpine_binary _ _ l op r

theorem chainWithin_of_not_binary (n : Nat) {t : Tree} (h : t.isBinary = false) :
    chainWithin n t = valueWithin n t := alongSpine_of_not_binary _ _ h

/-- A run does what an evaluation says, of the tree as a node and of the tree as a chain. -/
def Follows (t : Tree) (c : Chain) (out : List String) (c' : Chain) (r : Except RunFault Value) :
    Prop := ∀ (n : Nat) (m : Machine), m.scopes = c → Tellable m.verbosity t.isNative →
  (t.levels false ≤ n → Gives (treeWithin n t) m out c' r) ∧
    (t.levels true ≤ n → Gives (chainWithin n t) m out c' r)

section

variable {t l e : Tree} {c c' c₁ c₂ : Chain} {out out₁ out₂ : List String} {v w : Value}
  {f : RunFault} {r : Except RunFault Value}

theorem Follows.of_not_binary (h : t.isBinary = false)
    (ht : ∀ (n : Nat) (m : Machine), m.scopes = c → Tellable m.verbosity t.isNative →
      t.levels false ≤ n + 1 → Gives (treeWithin (n + 1) t) m out c' r) :
    Follows t c out c' r := by
  intro n m hm hv
  have hnode (hn : t.levels false ≤ n) : Gives (treeWithin n t) m out c' r := by
    obtain ⟨k, rfl⟩ := exists_levels hn
    exact ht k m hm hv hn
  refine ⟨hnode, fun hn => ?_⟩
  rw [chainWithin_of_not_binary n h]
  exact (hnode (levels_of_not_binary h ▸ hn)).value hv

/-- What a run along a chain does, the run of its node does. -/
theorem Follows.of_chain {op : Token}
    (hchain : ∀ (n : Nat) (m : Machine), m.scopes = c →
      Tellable m.verbosity (Tree.binary l op e).isNative →
      l.levels true ≤ n → e.levels false ≤ n → Gives (chainWithin n (.binary l op e)) m out c' r) :
    Follows (.binary l op e) c out c' r := by
  intro n m hm hv
  have hrun {k : Nat} (hk : (Tree.binary l op e).levels true ≤ k) :
      Gives (chainWithin k (.binary l op e)) m out c' r := by
    simp only [Tree.levels, if_true, Nat.add_zero, Nat.max_le] at hk
    exact hchain k m hm hv hk.1 hk.2
  refine ⟨fun hn => ?_, hrun⟩
  obtain ⟨k, rfl⟩ := exists_levels hn
  rw [levels_binary] at hn
  rw [treeWithin_binary]
  exact hrun (Nat.le_of_succ_le_succ hn)

theorem Tellable.left {verbosity : Int} {op : Token}
    (h : Tellable verbosity (Tree.binary l op e).isNative) : Tellable verbosity l.isNative :=
  h.imp_right fun h => (Bool.and_eq_true_iff.mp h).1

theorem Tellable.right {verbosity : Int} {op : Token}
    (h : Tellable verbosity (Tree.binary l op e).isNative) : Tellable verbosity e.isNative :=
  h.imp_right fun h => (Bool.and_eq_true_iff.mp h).2

theorem Follows.binary (op : Token) (hl : Follows l c out₁ c₁ (.ok v))
    (he : Follows e c₁ out₂ c₂ (.ok w)) :
    Follows (.binary l op e) c (out₁ ++ out₂) c₂ (applyBinary op v w) := by
  refine .of_chain fun n m hm hv hnl hne => ?_
  rw [chainWithin_binary]
  refine ((hl n m hm hv.left).2 hnl).bind fun m₁ hm₁ hv₁ => ?_
  have hv₁ := hv₁ ▸ hv.right
  refine (((he n m₁ hm₁ hv₁).1 hne).value hv₁).bind_silent fun m₂ hm₂ _ => ?_
  rw [← hm₂]
  exact gives_ofResult _ m₂

theorem Follows.leftFault (op : Token) (hl : Follows l c out c' (.error f)) :
    Follows (.binary l op e) c out c' (.error f) := by
  refine .of_chain fun n m hm hv hnl _ => ?_
  rw [chainWithin_binary]
  exact ((hl n m hm hv.left).2 hnl).bind_error _

theorem Follows.rightFault (op : Token) (hl : Follows l c out₁ c₁ (.ok v))
    (he : Follows e c₁ out₂ c₂ (.error f)) :
    Follows (.binary l op e) c (out₁ ++ out₂) c₂ (.error f) := by
  refine .of_chain fun n m hm hv hnl hne => ?_
  rw [chainWithin_binary]
  refine ((hl n m hm hv.left).2 hnl).bind fun m₁ hm₁ hv₁ => ?_
  have hv₁ := hv₁ ▸ hv.right
  exact (((he n m₁ hm₁ hv₁).1 hne).value hv₁).bind_error _

/-! ## Nodes with one operand -/

/-- A node runs its one operand and goes on with the value. -/
structure Continues (t e : Tree) (k : Value → Run Value) : Prop where
  isBinary : t.isBinary = false
  levels : t.levels false = e.levels false + 1
  native : t.isNative = e.isNative
  run : ∀ n, treeWithin (n + 1) t = valueWithin n e >>= k

theorem Continues.follows {k : Value → Run Value} (ht : Continues t e k)
    (he : Follows e c out₁ c₁ (.ok v))
    (hk : ∀ m : Machine, m.scopes = c₁ → Gives (k v) m out₂ c₂ r) :
    Follows t c (out₁ ++ out₂) c₂ r := by
  refine .of_not_binary ht.isBinary fun n m hm hv hn => ?_
  rw [ht.native] at hv
  rw [ht.levels] at hn
  rw [ht.run]
  refine (((he n m hm hv).1 (Nat.le_of_succ_le_succ hn)).value hv).bind fun m₁ hm₁ _ => ?_
  exact hk m₁ hm₁

theorem Continues.follows_silent {k : Value → Run Value} (ht : Continues t e k)
    (he : Follows e c out c₁ (.ok v))
    (hk : ∀ m : Machine, m.scopes = c₁ → Gives (k v) m [] c₂ r) : Follows t c out c₂ r := by
  rw [← List.append_nil out]
  exact ht.follows he hk

theorem Continues.fault {k : Value → Run Value} (ht : Continues t e k)
    (he : Follows e c out c' (.error f)) : Follows t c out c' (.error f) := by
  refine .of_not_binary ht.isBinary fun n m hm hv hn => ?_
  rw [ht.native] at hv
  rw [ht.levels] at hn
  rw [ht.run]
  exact (((he n m hm hv).1 (Nat.le_of_succ_le_succ hn)).value hv).bind_error _

end

theorem continues_unary (op : Token) (e : Tree) :
    Continues (.unary op e) e fun v => ofResult (applyUnary op v) :=
  ⟨rfl, rfl, rfl, fun _ => rfl⟩

theorem continues_grouping (e : Tree) : Continues (.grouping e) e pure :=
  ⟨rfl, rfl, rfl, fun _ => (bind_pure _).symm⟩

theorem continues_assign (name : Token) (e : Tree) :
    Continues (.assign name e) e fun v => do
      assign name.lexeme v
      return v :=
  ⟨rfl, rfl, rfl, fun _ => rfl⟩

theorem continues_discard (e : Tree) : Continues (.discard e) e fun _ => pure .nil :=
  ⟨rfl, rfl, rfl, fun _ => rfl⟩

theorem continues_print (e : Tree) :
    Continues (.print e) e fun v => do
      printLine v.text
      return .nil :=
  ⟨rfl, rfl, rfl, fun _ => rfl⟩

theorem continues_define (name : Token) (e : Tree) :
    Continues (.define name e) e fun v => do
      declare name.lexeme v
      return .nil :=
  ⟨rfl, rfl, rfl, fun _ => rfl⟩

/-! ## Statements -/

/-- Something that runs a statement within so many levels, and drops its value. -/
def Performs (n : Nat) (body : Tree → Run Unit) : Prop :=
  ∀ {t : Tree} {m : Machine} {out : List String} {c : Chain} {r : Except RunFault Value},
    Tellable m.verbosity t.isNative →
    (∀ m₁ : Machine, m₁.scopes = m.scopes → m₁.verbosity = m.verbosity →
      Gives (treeWithin n t) m₁ out c r) →
    Gives (body t) m out c (r.map fun _ => ())

theorem Gives.forget {run : Run Value} {m : Machine} {out : List String} {c : Chain}
    {r : Except RunFault Value} (h : Gives run m out c r) :
    Gives (do let _ ← run) m out c (r.map fun _ => ()) := by
  cases r with
  | error f => exact h.bind_error _
  | ok v => exact h.bind_pure ()

theorem performs_treeWithin (n : Nat) : Performs n (fun t => do let _ ← treeWithin n t) :=
  fun _ h => (h _ rfl rfl).forget

theorem performs_statement : Performs levelLimit statement := by
  intro t m out c r ht h
  exact gives_noting ht (Nat.succ_pos 0) .executing fun m₁ hm₁ hv₁ => (h m₁ hm₁ hv₁).forget

/-- Statements run one after the other do what an execution says. -/
def FollowsAll (ts : List Tree) (c : Chain) (out : List String) (c' : Chain)
    (r : Except RunFault Unit) : Prop :=
  ∀ {n : Nat} {body : Tree → Run Unit} {m : Machine}, Performs n body → m.scopes = c →
    Tellable m.verbosity (areNative ts) → levelsOfAll ts ≤ n → Gives (ts.forM body) m out c' r

theorem followsAll_nil (c : Chain) : FollowsAll [] c [] c (.ok ()) := by
  intro n body m _ hm _ _
  rw [← hm]
  exact gives_pure () m

section

variable {t : Tree} {ts : List Tree} {c c' c₁ c₂ : Chain} {out out₁ out₂ : List String} {v : Value}
  {f : RunFault}

theorem FollowsAll.cons {r : Except RunFault Unit} (ht : Follows t c out₁ c₁ (.ok v))
    (hts : FollowsAll ts c₁ out₂ c₂ r) : FollowsAll (t :: ts) c (out₁ ++ out₂) c₂ r := by
  intro n body m hbody hm hv hn
  simp only [levelsOfAll, Nat.max_le] at hn
  have hvt := hv.imp_right fun h => (Bool.and_eq_true_iff.mp h).1
  have hvts := hv.imp_right fun h => (Bool.and_eq_true_iff.mp h).2
  have hone : Gives (body t) m out₁ c₁ (.ok ()) :=
    @hbody t m out₁ c₁ (.ok v) hvt fun m₁ hm₁ hv₁ => (ht n m₁ (hm₁.trans hm) (hv₁ ▸ hvt)).1 hn.1
  show Gives (body t >>= fun _ => ts.forM body) m (out₁ ++ out₂) c₂ r
  exact hone.bind fun m₁ hm₁ hv₁ => hts hbody hm₁ (hv₁ ▸ hvts) hn.2

theorem FollowsAll.stop (ht : Follows t c out c' (.error f)) :
    FollowsAll (t :: ts) c out c' (.error f) := by
  intro n body m hbody hm hv hn
  simp only [levelsOfAll, Nat.max_le] at hn
  have hvt := hv.imp_right fun h => (Bool.and_eq_true_iff.mp h).1
  have hone : Gives (body t) m out c' (.error f) :=
    @hbody t m out c' (.error f) hvt fun m₁ hm₁ hv₁ => (ht n m₁ (hm₁.trans hm) (hv₁ ▸ hvt)).1 hn.1
  show Gives (body t >>= fun _ => ts.forM body) m out c' (.error f)
  exact hone.bind_error _

theorem treeWithin_block (n : Nat) (ts : List Tree) : treeWithin (n + 1) (.block ts)
    = inScope (ts.forM fun t => do let _ ← treeWithin n t) >>= fun _ => pure .nil := rfl

theorem FollowsAll.inScope {fresh : Scope} {r : Except RunFault Unit}
    (h : FollowsAll ts (Scope.empty :: c) out (fresh :: c') r) {n : Nat} {m : Machine}
    (hm : m.scopes = c) (hv : Tellable m.verbosity (areNative ts)) (hn : levelsOfAll ts ≤ n) :
    Gives (inScope (ts.forM fun t => do let _ ← treeWithin n t)) m out c' r := by
  refine gives_inScope fresh fun m₁ hm₁ hv₁ => ?_
  exact h (performs_treeWithin n) (hm₁.trans (congrArg _ hm)) (hv₁ ▸ hv) hn

theorem FollowsAll.block {fresh : Scope}
    (h : FollowsAll ts (Scope.empty :: c) out (fresh :: c') (.ok ())) :
    Follows (.block ts) c out c' (.ok .nil) := by
  refine .of_not_binary rfl fun n m hm hv hn => ?_
  rw [treeWithin_block]
  exact (h.inScope hm hv (Nat.le_of_succ_le_succ hn)).bind_pure _

theorem FollowsAll.blockFault {fresh : Scope}
    (h : FollowsAll ts (Scope.empty :: c) out (fresh :: c') (.error f)) :
    Follows (.block ts) c out c' (.error f) := by
  refine .of_not_binary rfl fun n m hm hv hn => ?_
  rw [treeWithin_block]
  exact (h.inScope hm hv (Nat.le_of_succ_le_succ hn)).bind_error _

end

/-! ## The other nodes -/

theorem follows_literal (v : Value) (c : Chain) : Follows (.literal v) c [] c (.ok v) := by
  refine .of_not_binary rfl fun n m hm _ _ => ?_
  rw [← hm]
  exact gives_pure v m

theorem follows_foreign (className : String) (c : Chain) :
    Follows (.foreign className) c [] c (.error (.foreignNode className)) := by
  refine .of_not_binary rfl fun n m hm _ _ => ?_
  rw [← hm]
  exact gives_throw _ m

theorem follows_reference {name : Token} {c : Chain} {v : Value}
    (h : c.get? name.lexeme = some v) : Follows (.reference name) c [] c (.ok v) := by
  refine .of_not_binary rfl fun n m hm _ _ => ?_
  rw [← hm] at h ⊢
  exact gives_read h

theorem follows_unknown {name : Token} {c : Chain} (h : c.get? name.lexeme = none) :
    Follows (.reference name) c [] c (.error (.undefinedVariable name.lexeme)) := by
  refine .of_not_binary rfl fun n m hm _ _ => ?_
  rw [← hm] at h ⊢
  exact gives_read_none h

theorem follows_declare (name : Token) (c : Chain) :
    Follows (.declare name) c [] (c.define name.lexeme .nil) (.ok .nil) := by
  refine .of_not_binary rfl fun n m hm _ _ => ?_
  rw [← hm]
  exact (gives_declare name.lexeme .nil m).bind_pure _

section

variable {name : Token} {e : Tree} {c c₁ c₂ : Chain} {out : List String} {v : Value}

theorem Follows.assign (h : Follows e c out c₁ (.ok v))
    (ha : c₁.assign? name.lexeme v = some c₂) : Follows (.assign name e) c out c₂ (.ok v) := by
  refine (continues_assign name e).follows_silent h fun m hm => ?_
  rw [← hm] at ha
  exact (gives_assign ha).bind_pure v

theorem Follows.unowned (h : Follows e c out c₁ (.ok v))
    (ha : c₁.assign? name.lexeme v = none) :
    Follows (.assign name e) c out c₁ (.error (.undefinedVariable name.lexeme)) := by
  refine (continues_assign name e).follows_silent h fun m hm => ?_
  rw [← hm] at ha ⊢
  exact (gives_assign_none ha).bind_error _

theorem Follows.define (h : Follows e c out c₁ (.ok v)) :
    Follows (.define name e) c out (c₁.define name.lexeme v) (.ok .nil) := by
  refine (continues_define name e).follows_silent h fun m hm => ?_
  rw [← hm]
  exact (gives_declare name.lexeme v m).bind_pure _

theorem Follows.print (h : Follows e c out c₁ (.ok v)) :
    Follows (.print e) c (out ++ [v.text ++ "\n"]) c₁ (.ok .nil) := by
  refine (continues_print e).follows h fun m hm => ?_
  rw [← hm]
  exact (gives_printLine v m).bind_pure _

theorem Follows.unary (op : Token) (h : Follows e c out c₁ (.ok v)) :
    Follows (.unary op e) c out c₁ (applyUnary op v) :=
  (continues_unary op e).follows_silent h fun m hm => hm ▸ gives_ofResult _ m

theorem Follows.discard (h : Follows e c out c₁ (.ok v)) :
    Follows (.discard e) c out c₁ (.ok .nil) :=
  (continues_discard e).follows_silent h fun m hm => hm ▸ gives_pure _ m

theorem Follows.grouping {r : Except RunFault Value} (h : Follows e c out c₁ r) :
    Follows (.grouping e) c out c₁ r := by
  cases r with
  | ok v => exact (continues_grouping e).follows_silent h fun m hm => hm ▸ gives_pure v m
  | error f => exact (continues_grouping e).fault h

end

/-! ## Runs follow evaluations -/

mutual

theorem follows_of_evaluates : ∀ {t : Tree} {c c' : Chain} {out : List String}
    {r : Except RunFault Value}, Evaluates t c out c' r → Follows t c out c' r
  | _, _, _, _, _, .literal => follows_literal _ _
  | _, _, _, _, _, .unary h => (follows_of_evaluates h).unary _
  | _, _, _, _, _, .unaryFault h => (continues_unary _ _).fault (follows_of_evaluates h)
  | _, _, _, _, _, .binary hl hr => (follows_of_evaluates hl).binary _ (follows_of_evaluates hr)
  | _, _, _, _, _, .leftFault hl => (follows_of_evaluates hl).leftFault _
  | _, _, _, _, _, .rightFault hl hr =>
      (follows_of_evaluates hl).rightFault _ (follows_of_evaluates hr)
  | _, _, _, _, _, .grouping h => (follows_of_evaluates h).grouping
  | _, _, _, _, _, .reference hi ho => follows_reference (Chain.get?_of_owner _ ho hi)
  | _, _, _, _, _, .unknown hu => follows_unknown (Chain.get?_of_unbound hu)
  | _, _, _, _, _, .assign h hi ho =>
      (follows_of_evaluates h).assign (Chain.assign?_of_owner _ _ ho hi)
  | _, _, _, _, _, .unowned h hu => (follows_of_evaluates h).unowned (Chain.assign?_of_unbound _ hu)
  | _, _, _, _, _, .assignFault h => (continues_assign _ _).fault (follows_of_evaluates h)
  | _, _, _, _, _, .discard h => (follows_of_evaluates h).discard
  | _, _, _, _, _, .discardFault h => (continues_discard _).fault (follows_of_evaluates h)
  | _, _, _, _, _, .print h => (follows_of_evaluates h).print
  | _, _, _, _, _, .printFault h => (continues_print _).fault (follows_of_evaluates h)
  | _, _, _, _, _, .declare => follows_declare _ _
  | _, _, _, _, _, .define h => (follows_of_evaluates h).define
  | _, _, _, _, _, .defineFault h => (continues_define _ _).fault (follows_of_evaluates h)
  | _, _, _, _, _, .block h => FollowsAll.block (followsAll_of_executes h)
  | _, _, _, _, _, .blockFault h => FollowsAll.blockFault (followsAll_of_executes h)
  | _, _, _, _, _, .foreign => follows_foreign _ _

theorem followsAll_of_executes : ∀ {ts : List Tree} {c c' : Chain} {out : List String}
    {r : Except RunFault Unit}, Executes ts c out c' r → FollowsAll ts c out c' r
  | _, _, _, _, _, .nil => followsAll_nil _
  | _, _, _, _, _, .cons ht hts =>
      FollowsAll.cons (follows_of_evaluates ht) (followsAll_of_executes hts)
  | _, _, _, _, _, .stop ht => FollowsAll.stop (follows_of_evaluates ht)

end

/-- A program that nests within the limit runs as the structural semantics says: the lines that it
prints, the scopes that it leaves and its outcome are those of its execution and no others.  Only a
run that is traced has to do without foreign nodes, since these have no text to be noted. -/
theorem program_iff_executes (ts : List Tree) (m : Machine) (hscopes : m.scopes ≠ [])
    (hnesting : Tree.nestingOfAll ts ≤ levelLimit)
    (htellable : m.verbosity ≤ 0 ∨ areNative ts = true) (out : List String) (c : Chain)
    (r : Except RunFault Unit) :
    Executes ts m.scopes out c r ↔
      ((program ts).on m).1 = r ∧ ((program ts).on m).2.scopes = c ∧
        ((program ts).on m).2.printed.toList = m.printed.toList ++ out := by
  have hgives {out : List String} {c : Chain} {r : Except RunFault Unit}
      (h : Executes ts m.scopes out c r) : Gives (program ts) m out c r :=
    followsAll_of_executes h performs_statement rfl htellable hnesting
  constructor
  · intro h
    obtain ⟨m', hrun, hc, hout, -⟩ := hgives h
    rw [hrun]
    exact ⟨rfl, hc, hout⟩
  · rintro ⟨hr, hc, hout⟩
    obtain ⟨out', c', r', h, -⟩ := exists_executes ts (List.length_pos_iff.mpr hscopes)
    obtain ⟨m', hrun, hc', hout', -⟩ := hgives h
    rw [hrun] at hr hc hout
    obtain rfl : out' = out := List.append_cancel_left (hout'.symm.trans hout)
    obtain rfl : c' = c := hc'.symm.trans hc
    obtain rfl : r' = r := hr
    exact h

/-- `print x + (x = "b") + x; y; print nil;` on a scope that binds `x` to `"a"`: the assignment in
the middle of the chain is seen behind it and not before, and the unknown name stops the run. -/
theorem executes_assignment_in_chain :
    let x : Token := ⟨.identifier, "x", 0⟩
    let y : Token := ⟨.identifier, "y", 0⟩
    let plus : Token := ⟨.mark .plus, "+", 0⟩
    let b : Tree := .literal (.string "b")
    let ts : List Tree := [
      .print (.binary (.binary (.reference x) plus (.grouping (.assign x b))) plus (.reference x)),
      .discard (.reference y), .print (.literal .nil)]
    Executes ts [⟨[("x", .string "a")]⟩] ["abb\n"] [⟨[("x", .string "b")]⟩]
      (.error (.undefinedVariable "y")) := by
  intro x y plus b ts
  exact (program_iff_executes ts (Machine.start [⟨[("x", .string "a")]⟩] 0) (by decide) (by decide)
    (.inl (by decide)) _ _ _).mpr ⟨rfl, rfl, rfl⟩

end RoxLang.Run
