/-
# `RoxLang.Proofs.Run.Kinds` — how a run ends is a matter of kinds

The language has no test on values: what a run does next, whether it stops and with which fault
depends on the kinds of the values that it meets and never on the values themselves.  So two runs
that begin with values of the same kinds meet values of the same kinds all along.

Operators are shown to respect kinds, scopes to keep them, and the rest is a correspondence.
-/
import RoxLang.Proofs.Run.Correspondence
import RoxLang.Session

namespace RoxLang

open RoxLang.Run (SameEnd Alongside Seen Correspondence)
open RoxLang.Tree (Like)

/-! ## Values -/

/-- Values of one kind. -/
inductive Value.SameKind : Value → Value → Prop
  | nil : SameKind .nil .nil
  | boolean (a b : Bool) : SameKind (.boolean a) (.boolean b)
  | number (x y : Number) : SameKind (.number x) (.number y)
  | string (s t : String) : SameKind (.string s) (.string t)

/-- Every operator that takes numbers gives a value whatever the numbers are, a zero divisor
included, or it is no such operator. -/
theorem arithmetic_sameKind (op : Token) (x y x' y' : Number) :
    SameEnd Value.SameKind (arithmetic op x y) (arithmetic op x' y') := by
  unfold arithmetic
  generalize op.kind = k
  cases k with
  | mark m =>
      cases m with
      | minus | star => exact .ok (.number _ _)
      | slash =>
          obtain ⟨z, hz⟩ := x.exists_divide y
          obtain ⟨z', hz'⟩ := x'.exists_divide y'
          simp only [hz, hz']
          exact .ok (.number z z')
      | greater | greaterEqual | less | lessEqual => exact .ok (.boolean _ _)
      | _ => exact .error _
  | _ => exact .error _

section

variable {v v' w w' : Value}

theorem applyUnary_sameKind (op : Token) (h : v.SameKind v') :
    SameEnd Value.SameKind (applyUnary op v) (applyUnary op v') := by
  unfold applyUnary
  generalize op.kind = k
  cases k with
  | mark m =>
      cases m with
      | minus =>
          cases h with
          | number x y => exact .ok (.number _ _)
          | nil | boolean _ _ | string _ _ => exact .error _
      | bang => exact .ok (.boolean _ _)
      | _ => exact .error _
  | _ => exact .error _

theorem addValues_sameKind (hv : v.SameKind v') (hw : w.SameKind w') :
    SameEnd Value.SameKind (addValues v w) (addValues v' w') := by
  cases hv with
  | number x x' =>
      cases hw with
      | number y y' => exact .ok (.number _ _)
      | nil | boolean _ _ | string _ _ => exact .error _
  | string s s' =>
      cases hw with
      | string t t' => exact .ok (.string _ _)
      | nil | boolean _ _ | number _ _ => exact .error _
  | nil | boolean _ _ => cases hw <;> exact .error _

/-- The left operand is looked at first, in both runs. -/
theorem applyToNumbers_sameKind (op : Token) (hv : v.SameKind v') (hw : w.SameKind w') :
    SameEnd Value.SameKind (applyToNumbers op v w) (applyToNumbers op v' w') := by
  cases hv with
  | number x x' =>
      cases hw with
      | number y y' => exact arithmetic_sameKind op x y x' y'
      | nil | boolean _ _ | string _ _ => exact .error _
  | nil | boolean _ _ | string _ _ => cases hw <;> exact .error _

/-- An operator fails on operands of some kinds or gives a value of one kind. -/
theorem applyBinary_sameKind (op : Token) (hv : v.SameKind v') (hw : w.SameKind w') :
    SameEnd Value.SameKind (applyBinary op v w) (applyBinary op v' w') := by
  have hnumbers := applyToNumbers_sameKind op hv hw
  unfold applyBinary
  generalize op.kind = k
  cases k with
  | mark m =>
      cases m with
      | equalEqual | bangEqual => exact .ok (.boolean _ _)
      | plus => exact addValues_sameKind hv hw
      | _ => exact hnumbers
  | _ => exact hnumbers

end

/-! ## Scopes -/

/-- Scopes that bind the same names, each to values of one kind. -/
def Scope.SameKinds (s s' : Scope) : Prop :=
  ∀ name, Option.Rel Value.SameKind (s.get? name) (s'.get? name)

/-- As many scopes, each with the same names bound to values of the same kinds. -/
def Chain.SameKinds (c c' : Chain) : Prop := List.Forall₂ Scope.SameKinds c c'

theorem Scope.SameKinds.define {s s' : Scope} (h : s.SameKinds s') (name : String) {v v' : Value}
    (hv : v.SameKind v') : (s.define name v).SameKinds (s'.define name v') := by
  intro other
  rw [Scope.get?_define, Scope.get?_define]
  split
  · exact .some hv
  · exact h other

namespace Chain.SameKinds

variable {c c' : Chain}

theorem get? (h : c.SameKinds c') (name : String) :
    Option.Rel Value.SameKind (c.get? name) (c'.get? name) := by
  induction h with
  | nil => exact .none
  | cons hs _ ih =>
      have hname := hs name
      unfold Chain.get?
      generalize Scope.get? _ name = r at hname ⊢
      generalize Scope.get? _ name = r' at hname ⊢
      cases hname with
      | some hv => exact .some hv
      | none => exact ih

theorem assign? (h : c.SameKinds c') (name : String) {v v' : Value} (hv : v.SameKind v') :
    Option.Rel Chain.SameKinds (c.assign? name v) (c'.assign? name v') := by
  induction h with
  | nil => exact .none
  | cons hs hc ih =>
      have hname := hs name
      unfold Chain.assign?
      generalize Scope.get? _ name = r at hname ⊢
      generalize Scope.get? _ name = r' at hname ⊢
      cases hname with
      | some _ => exact .some (.cons (hs.define name hv) hc)
      | none =>
          generalize Chain.assign? name v _ = r at ih ⊢
          generalize Chain.assign? name v' _ = r' at ih ⊢
          cases ih with
          | some ih => exact .some (.cons hs ih)
          | none => exact .none

theorem define (h : c.SameKinds c') (name : String) {v v' : Value} (hv : v.SameKind v') :
    (c.define name v).SameKinds (c'.define name v') := by
  cases h with
  | nil => exact .nil
  | cons hs hc => exact .cons (hs.define name hv) hc

end Chain.SameKinds

/-! ## Programs -/

/-- Every step of a run respects kinds. -/
theorem sameKinds_correspondence : Correspondence Value.SameKind (fun _ => Chain.SameKinds)
    (fun out out' => out.size = out'.size) (fun _ => Like Value.SameKind) where
  node h := h.same
  nil := .nil
  unary op _ _ h := applyUnary_sameKind op h
  binary op _ _ _ _ hv hw := applyBinary_sameKind op hv hw
  print _ h := by rw [Array.size_push, Array.size_push, h]
  read ht hc := by
    cases ht.same with
    | reference hname => exact hname.lexeme ▸ hc.get? _
  assign ht hv hc := by
    cases ht.same with
    | assign hname _ => exact hname.lexeme ▸ hc.assign? _ hv
  declare ht hc := by
    cases ht.same with
    | declare hname => exact hname.lexeme ▸ hc.define _ .nil
  define ht hv hc := by
    cases ht.same with
    | define hname _ => exact hname.lexeme ▸ hc.define _ hv
  opened hc := .cons (fun _ => .none) hc
  closed hc := by
    cases hc with
    | nil => exact .nil
    | cons _ hc => exact hc

/-- Programs that differ in the values of their literals, but not in the kinds of these, do the
same but for the values: from scopes that bind the same names to values of the same kinds they
print as often, they both finish or stop with the same fault, and the scopes that they leave bind
the same names to values of the same kinds again. -/
theorem runProgram_sameKinds {ts ts' : List Tree} {c c' : Chain}
    (hts : List.Forall₂ (Like Value.SameKind) ts ts') (hc : c.SameKinds c') (verbosity : Int) :
    let run := (Machine.start c verbosity).runProgram ts
    let run' := (Machine.start c' verbosity).runProgram ts'
    run.1 = run'.1 ∧ run.2.printed.size = run'.2.printed.size ∧
      run.2.scopes.SameKinds run'.2.scopes := by
  intro run run'
  have hstart : Seen Chain.SameKinds (fun out out' => out.size = out'.size)
      (Machine.start c verbosity) (Machine.start c' verbosity) := ⟨hc, rfl, rfl⟩
  obtain ⟨hend, hleft⟩ := sameKinds_correspondence.program hts _ _ hstart
  exact ⟨hend.eq, hleft.printed, hleft.scopes⟩

/-- `print "a"; x = 0 - x;` where `x` is `"b"` prints once and finds a string right of the operator,
and so does `print ""; x = 1 - x;` where `x` is `"cd"`. -/
theorem runProgram_right_operand_string :
    let x : Token := ⟨.identifier, "x", 0⟩
    let minus : Token := ⟨.mark .minus, "-", 0⟩
    let ts (s : String) (n : Nat) : List Tree := [.print (.literal (.string s)),
      .discard (.assign x (.binary (.literal (.number (.ofWord n))) minus (.reference x)))]
    let run (s x : String) (n : Nat) :=
      (Machine.start [⟨[("x", .string x)]⟩] 0).runProgram (ts s n)
    (run "" "cd" 1).1 = .error (.rightOperand "-" .string) ∧ (run "" "cd" 1).2.printed.size = 1 ∧
      Chain.SameKinds (run "" "cd" 1).2.scopes [⟨[("x", .string "b")]⟩] := by
  intro x minus ts run
  have hprint :
      Like Value.SameKind (.print (.literal (.string ""))) (.print (.literal (.string "a"))) :=
    .node (.print (.node (.literal (.string _ _))))
  have hvalue (n n' : Nat) : Like Value.SameKind
      (.binary (.literal (.number (.ofWord n))) minus (.reference x))
      (.binary (.literal (.number (.ofWord n'))) minus (.reference x)) :=
    .node (.binary (.refl minus) (.node (.literal (.number _ _))) (.node (.reference (.refl x))))
  have hts : List.Forall₂ (Like Value.SameKind) (ts "" 1) (ts "a" 0) :=
    .cons hprint (.cons (.node (.discard (.node (.assign (.refl x) (hvalue 1 0))))) .nil)
  have hc : Chain.SameKinds [⟨[("x", .string "cd")]⟩] [⟨[("x", .string "b")]⟩] := by
    refine .cons (fun name => ?_) .nil
    show Option.Rel Value.SameKind (List.lookup name [("x", _)]) (List.lookup name [("x", _)])
    rw [List.lookup_cons, List.lookup_cons]
    cases name == "x" with
    | true => exact .some (.string _ _)
    | false => exact .none
  exact runProgram_sameKinds hts hc 0

end RoxLang
