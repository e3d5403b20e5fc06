/-
# `RoxLang.Proofs.Run.Correspondence` — programs of one form run alongside each other

Let two programs have one form and run on chains of scopes that are related.  If the operators
respect the relation on values, and reading, writing, opening and closing scopes respect the
relation on chains, then the runs go alongside each other from their first step to their last,
whether they finish or stop.

The relation on chains may depend on how many scopes the run itself has opened and not closed
yet, and the relation on trees likewise.  So it can tell the scopes that a run was started on from
the scopes of its blocks.

The law is one induction over levels and trees.  What a use of it has to show is about values and
scopes alone.
-/
import RoxLang.Proofs.Run.Alongside
import RoxLang.Proofs.Run.Refinement

namespace RoxLang.Run

open RoxLang.Tree (SameNode)

/-- Machines with related scopes and related output, and with the same verbosity. -/
structure Seen (C : Chain → Chain → Prop) (P : Array String → Array String → Prop)
    (m m' : Machine) : Prop where
  scopes : C m.scopes m'.scopes
  printed : P m.printed m'.printed
  verbosity : m.verbosity = m'.verbosity

theorem Seen.untraced (C : Chain → Chain → Prop) (P : Array String → Array String → Prop) :
    Untraced (Seen C P) where
  notes level h := by rw [Machine.notes, Machine.notes, h.verbosity]
  unseen e e' h := by
    constructor
    · rw [note_scopes, note_scopes]
      exact h.scopes
    · rw [note_printed, note_printed]
      exact h.printed
    · rw [note_verbosity, note_verbosity]
      exact h.verbosity

/-- Relations on values, chains, output and trees that every step of a run respects.  Chains and
trees are related at each number of scopes opened so far. -/
structure Correspondence (V : Value → Value → Prop) (C : Nat → Chain → Chain → Prop)
    (P : Array String → Array String → Prop) (T : Nat → Tree → Tree → Prop) : Prop where
  node {k : Nat} {t t' : Tree} : T k t t' → SameNode V (T k) (T (k + 1)) t t'
  nil : V .nil .nil
  unary (op : Token) {v v' : Value} : V v v' → SameEnd V (applyUnary op v) (applyUnary op v')
  binary (op : Token) {v v' w w' : Value} : V v v' → V w w' →
    SameEnd V (applyBinary op v w) (applyBinary op v' w')
  print {v v' : Value} {out out' : Array String} : V v v' → P out out' →
    P (out.push (v.text ++ "\n")) (out'.push (v'.text ++ "\n"))
  read {k : Nat} {name name' : Token} {c c' : Chain} : T k (.reference name) (.reference name') →
    C k c c' → Option.Rel V (c.get? name.lexeme) (c'.get? name.lexeme)
  assign {k : Nat} {name name' : Token} {e e' : Tree} {v v' : Value} {c c' : Chain} :
    T k (.assign name e) (.assign name' e') → V v v' → C k c c' →
    Option.Rel (C k) (c.assign? name.lexeme v) (c'.assign? name.lexeme v')
  declare {k : Nat} {name name' : Token} {c c' : Chain} : T k (.declare name) (.declare name') →
    C k c c' → C k (c.define name.lexeme .nil) (c'.define name.lexeme .nil)
  define {k : Nat} {name name' : Token} {e e' : Tree} {v v' : Value} {c c' : Chain} :
    T k (.define name e) (.define name' e') → V v v' → C k c c' →
    C k (c.define name.lexeme v) (c'.define name.lexeme v')
  opened {k : Nat} {c c' : Chain} : C k c c' → C (k + 1) (Scope.empty :: c) (Scope.empty :: c')
  closed {k : Nat} {c c' : Chain} : C (k + 1) c c' → C k c.tail c'.tail

theorem applyUnary_sameText {op op' : Token} (h : op.SameText op') (v : Value) :
    applyUnary op v = applyUnary op' v := by
  simp only [applyUnary, h.kind, h.lexeme]

theorem applyBinary_sameText {op op' : Token} (h : op.SameText op') (v w : Value) :
    applyBinary op v w = applyBinary op' v w := by
  simp only [applyBinary, applyToNumbers, arithmetic, h.kind, h.lexeme]

theorem optionRel_of_eq {α : Type} {o o' : Option α} (h : o = o') : Option.Rel Eq o o' := by
  subst h
  cases o with
  | some a => exact .some rfl
  | none => exact .none

/-! ## Single steps -/

section

variable {V : Value → Value → Prop} {C : Chain → Chain → Prop}
  {P : Array String → Array String → Prop}

theorem alongside_note (e e' : Event) : Alongside (Seen C P) Eq (note e) (note e') :=
  alongside_modify fun _ _ hm => (Seen.untraced C P).unseen e e' hm

theorem alongside_read {name : String}
    (h : ∀ {c c' : Chain}, C c c' → Option.Rel V (c.get? name) (c'.get? name)) :
    Alongside (Seen C P) V (read name) (read name) := by
  refine alongside_get fun m m' hm => ?_
  have hget := h hm.scopes
  generalize m.scopes.get? name = r at hget ⊢
  generalize m'.scopes.get? name = r' at hget ⊢
  cases hget with
  | some hv => exact alongside_pure hv
  | none => exact alongside_throw _

theorem alongside_assign {name : String} {v v' : Value}
    (h : ∀ {c c' : Chain}, C c c' → Option.Rel C (c.assign? name v) (c'.assign? name v')) :
    Alongside (Seen C P) Eq (assign name v) (assign name v') := by
  refine alongside_get fun m m' hm => ?_
  have hassign := h hm.scopes
  generalize m.scopes.assign? name v = r at hassign ⊢
  generalize m'.scopes.assign? name v' = r' at hassign ⊢
  cases hassign with
  | some hc =>
      refine Alongside.andThen (alongside_modify fun m m' hm => ?_) (alongside_note _ _)
      exact ⟨hc, hm.printed, hm.verbosity⟩
  | none => exact alongside_throw _

theorem alongside_declare {name : String} {v v' : Value}
    (h : ∀ {c c' : Chain}, C c c' → C (c.define name v) (c'.define name v')) :
    Alongside (Seen C P) Eq (declare name v) (declare name v') := by
  refine Alongside.andThen (alongside_modify fun m m' hm => ?_) (alongside_note _ _)
  exact ⟨h hm.scopes, hm.printed, hm.verbosity⟩

theorem alongside_printLine {v v' : Value}
    (h : ∀ {out out' : Array String}, P out out' →
      P (out.push (v.text ++ "\n")) (out'.push (v'.text ++ "\n"))) :
    Alongside (Seen C P) Eq (printLine v.text) (printLine v'.text) :=
  alongside_modify fun _ _ hm => ⟨hm.scopes, h hm.printed, hm.verbosity⟩

theorem alongside_scope {I : Chain → Chain → Prop} {body body' : Run Unit}
    (hopen : ∀ {c c' : Chain}, C c c' → I (Scope.empty :: c) (Scope.empty :: c'))
    (hbody : Alongside (Seen I P) Eq body body')
    (hclose : ∀ {c c' : Chain}, I c c' → C c.tail c'.tail) :
    Alongside (Seen C P) Eq (inScope body) (inScope body') := by
  refine alongside_inScope (fun m m' hm => ?_) hbody fun m m' hm => ?_
  · exact (Seen.untraced I P).unseen _ _ ⟨hopen hm.scopes, hm.printed, hm.verbosity⟩
  · exact (Seen.untraced C P).unseen _ _ ⟨hclose hm.scopes, hm.printed, hm.verbosity⟩

end

/-! ## Trees -/

namespace Correspondence

variable {V : Value → Value → Prop} {C : Nat → Chain → Chain → Prop}
  {P : Array String → Array String → Prop} {T : Nat → Tree → Tree → Prop}

/-- Using a value goes on as running the tree does. -/
theorem value (h : Correspondence V C P T) {n k : Nat} {t t' : Tree} (ht : T k t t')
    (hrun : Alongside (Seen (C k) P) V (treeWithin n t) (treeWithin n t')) :
    Alongside (Seen (C k) P) V (valueWithin n t) (valueWithin n t') := by
  refine hrun.bind fun v v' hv => ?_
  exact alongside_noting (Seen.untraced _ _) (Tree.firstForeign?_eq h.node t ht) 3 (.evaluated · v)
    (.evaluated · v') (alongside_pure hv)

theorem chain (h : Correspondence V C P T) {n k : Nat}
    (hvalue : ∀ {t t' : Tree}, T k t t' →
      Alongside (Seen (C k) P) V (valueWithin n t) (valueWithin n t')) :
    ∀ (t : Tree) {t' : Tree}, T k t t' →
      Alongside (Seen (C k) P) V (chainWithin n t) (chainWithin n t')
  | .binary l op r, _, ht => by
      cases h.node ht with
      | binary hop hl hr =>
          rw [chainWithin_binary, chainWithin_binary]
          refine (chain h hvalue l hl).bind fun v v' hv => ?_
          refine (hvalue hr).bind fun w w' hw => alongside_ofResult ?_
          rw [applyBinary_sameText hop]
          exact h.binary _ hv hw
  | .literal _, _, ht | .unary .., _, ht | .grouping _, _, ht | .reference _, _, ht
  | .assign .., _, ht | .discard _, _, ht | .print _, _, ht | .declare _, _, ht | .define .., _, ht
  | .block _, _, ht | .foreign _, _, ht => by
      rw [chainWithin_of_not_binary n rfl, chainWithin_of_not_binary n (h.node ht).isBinary.symm]
      exact hvalue ht

/-- Related trees run alongside each other, whatever number of scopes is open. -/
theorem tree (h : Correspondence V C P T) : ∀ (n : Nat) {k : Nat} {t t' : Tree}, T k t t' →
    Alongside (Seen (C k) P) V (treeWithin n t) (treeWithin n t') := by
  intro n
  induction n with
  | zero =>
      intro k t t' _
      exact alongside_throw .nestingTooDeep
  | succ n ih =>
      intro k t t' ht
      have hvalue {e e' : Tree} (he : T k e e') :
          Alongside (Seen (C k) P) V (valueWithin n e) (valueWithin n e') := h.value he (ih he)
      cases h.node ht with
      | literal hv => exact alongside_pure hv
      | unary hop he =>
          rw [(continues_unary _ _).run, (continues_unary _ _).run]
          refine (hvalue he).bind fun v v' hv => alongside_ofResult ?_
          rw [applyUnary_sameText hop]
          exact h.unary _ hv
      | binary _ _ _ =>
          rw [treeWithin_binary, treeWithin_binary]
          exact h.chain hvalue _ ht
      | grouping he => exact hvalue he
      | reference hname =>
          show Alongside _ _ (Run.read _) (Run.read _)
          rw [hname.lexeme]
          exact alongside_read fun hc => hname.lexeme ▸ h.read ht hc
      | assign hname he =>
          rw [(continues_assign _ _).run, (continues_assign _ _).run]
          refine (hvalue he).bind fun v v' hv => ?_
          rw [hname.lexeme]
          refine Alongside.andThen ?_ (alongside_pure hv)
          exact alongside_assign fun hc => hname.lexeme ▸ h.assign ht hv hc
      | discard he => exact (hvalue he).bind fun _ _ _ => alongside_pure h.nil
      | print he =>
          rw [(continues_print _).run, (continues_print _).run]
          refine (hvalue he).bind fun v v' hv => ?_
          refine Alongside.andThen ?_ (alongside_pure h.nil)
          exact alongside_printLine fun hout => h.print hv hout
      | declare hname =>
          refine Alongside.andThen ?_ (alongside_pure h.nil)
          rw [hname.lexeme]
          exact alongside_declare fun hc => hname.lexeme ▸ h.declare ht hc
      | define hname he =>
          rw [(continues_define _ _).run, (continues_define _ _).run]
          refine (hvalue he).bind fun v v' hv => ?_
          rw [hname.lexeme]
          refine Alongside.andThen ?_ (alongside_pure h.nil)
          exact alongside_declare fun hc => hname.lexeme ▸ h.define ht hv hc
      | block hts =>
          rw [treeWithin_block, treeWithin_block]
          refine Alongside.andThen ?_ (alongside_pure h.nil)
          refine alongside_scope h.opened (Alongside.forM (fun s s' hs => ?_) hts) h.closed
          exact (ih hs).bind fun _ _ _ => alongside_pure rfl
      | foreign => exact alongside_throw _

theorem statement (h : Correspondence V C P T) {t t' : Tree} (ht : T 0 t t') :
    Alongside (Seen (C 0) P) Eq (statement t) (statement t') := by
  refine alongside_noting (Seen.untraced _ _) (Tree.firstForeign?_eq h.node t ht) 1 .executing
    .executing ?_
  exact (h.tree levelLimit ht).bind fun _ _ _ => alongside_pure rfl

/-- Related programs run alongside each other. -/
theorem program (h : Correspondence V C P T) {ts ts' : List Tree}
    (hts : List.Forall₂ (T 0) ts ts') :
    Alongside (Seen (C 0) P) Eq (program ts) (program ts') :=
  Alongside.forM (fun _ _ ht => h.statement ht) hts

end Correspondence

end RoxLang.Run
