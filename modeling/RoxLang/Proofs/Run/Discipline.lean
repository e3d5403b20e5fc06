/-
# `RoxLang.Proofs.Run.Discipline` — what a program may do to the scopes around it

A run closes every scope that it opens, however it ends.  So it leaves as many scopes as it found,
each in its place, and what can be said of them is said scope by scope: no name is lost, only the
innermost scope gains names, and only those that are declared outside of every block, and a value
changes only under such a name or under one that is assigned somewhere.

While blocks are open, the chain is the scopes that they opened before the scopes of the start.
A declaration in a block writes one of the former; an assignment may get through to the latter.
An invariant of one run is a correspondence of the run with itself, whose relation on chains
speaks of one chain only.
-/
import RoxLang.Proofs.Run.Correspondence
import RoxLang.Proofs.Session

namespace RoxLang

open RoxLang.Run (Correspondence Seen optionRel_of_eq)
open RoxLang.Tree (SameNode)

/-! ## The names that a program writes -/

namespace Tree

/-- The names that a tree declares outside of every block. -/
def declared : Tree → List String
  | .literal _ | .reference _ | .block _ | .foreign _ => []
  | .unary _ e | .grouping e | .assign _ e | .discard e | .print e => e.declared
  | .binary l _ r => l.declared ++ r.declared
  | .declare name => [name.lexeme]
  | .define name e => name.lexeme :: e.declared

mutual

/-- The names that a tree assigns, in blocks too. -/
def assigned : Tree → List String
  | .literal _ | .reference _ | .declare _ | .foreign _ => []
  | .unary _ e | .grouping e | .discard e | .print e | .define _ e => e.assigned
  | .binary l _ r => l.assigned ++ r.assigned
  | .assign name e => name.lexeme :: e.assigned
  | .block ts => assignedByAll ts

def assignedByAll : List Tree → List String
  | [] => []
  | t :: ts => t.assigned ++ assignedByAll ts

end

/-- The names that statements declare outside of every block. -/
def declaredByAll (ts : List Tree) : List String := ts.flatMap declared

theorem assigned_subset {t : Tree} : ∀ {ts : List Tree}, t ∈ ts → t.assigned ⊆ assignedByAll ts
  | _ :: _, .head _ => List.subset_append_left _ _
  | _ :: _, .tail _ h => List.subset_append_of_subset_right _ (assigned_subset h)

end Tree

/-! ## Scopes -/

/-- A scope before and after: no name is lost, only the names of `gained` are gained, and only
under the names of `changed` does a value differ. -/
structure Scope.Kept (gained changed : List String) (s s' : Scope) : Prop where
  stays {name : String} : s.get? name ≠ none → s'.get? name ≠ none
  gained {name : String} : s.get? name = none → s'.get? name ≠ none → name ∈ gained
  changed {name : String} : s.get? name ≠ none → s'.get? name ≠ s.get? name → name ∈ changed

namespace Scope.Kept

variable {gained changed : List String} {s s' : Scope}

theorem refl (gained changed : List String) (s : Scope) : s.Kept gained changed s where
  stays h := h
  gained h h' := absurd h h'
  changed _ h := absurd rfl h

theorem define (h : s.Kept gained changed s') {name : String} (v : Value)
    (hgained : s'.get? name = none → name ∈ gained) (hchanged : name ∈ changed) :
    s.Kept gained changed (s'.define name v) where
  stays {other} hs := by
    rw [get?_define]
    split
    · exact nofun
    · exact h.stays hs
  gained {other} hs hs' := by
    rw [get?_define] at hs'
    split at hs'
    · next heq =>
        subst heq
        by_cases hother : s'.get? other = none
        · exact hgained hother
        · exact h.gained hs hother
    · exact h.gained hs hs'
  changed {other} hs hs' := by
    rw [get?_define] at hs'
    split at hs'
    · next heq => exact heq ▸ hchanged
    · exact h.changed hs hs'

end Scope.Kept

/-! ## Chains -/

namespace Chain

/-- A chain before and after a program that declares and assigns certain names: the same scopes,
each kept in its place, of which the innermost alone may gain names. -/
inductive Kept (declared assigned : List String) : Chain → Chain → Prop
  | nil : Kept declared assigned [] []
  | cons {s s' : Scope} {outer outer' : Chain} : s.Kept declared (declared ++ assigned) s' →
      List.Forall₂ (Scope.Kept [] assigned) outer outer' →
      Kept declared assigned (s :: outer) (s' :: outer')

section

variable {declared assigned : List String} {c c' : Chain} {name : String}

theorem Kept.refl (declared assigned : List String) : ∀ c : Chain, c.Kept declared assigned c
  | [] => .nil
  | s :: _ => .cons (.refl _ _ s) (List.forall₂_same.mpr fun s _ => .refl _ _ s)

theorem Kept.define (h : c.Kept declared assigned c') (hname : name ∈ declared) (v : Value) :
    c.Kept declared assigned (c'.define name v) := by
  cases h with
  | nil => exact .nil
  | cons hs houter =>
      exact .cons (hs.define v (fun _ => hname) (List.mem_append_left _ hname)) houter

theorem assign?_cons_eq_some {s : Scope} {outer : Chain} {v : Value}
    (h : Chain.assign? name v (s :: outer) = some c') :
    (s.get? name ≠ none ∧ c' = s.define name v :: outer) ∨
      ∃ outer', outer.assign? name v = some outer' ∧ c' = s :: outer' := by
  unfold Chain.assign? at h
  cases hs : s.get? name with
  | some w =>
      rw [hs] at h
      exact .inl ⟨Option.some_ne_none w, (Option.some.inj h).symm⟩
  | none =>
      rw [hs] at h
      obtain ⟨outer', houter, rfl⟩ := Option.map_eq_some_iff.mp h
      exact .inr ⟨outer', houter, rfl⟩

/-- An assignment writes a name that is bound, wherever that is. -/
theorem forall₂_kept_assign? (hname : name ∈ assigned) {v : Value} {after : Chain}
    (h : List.Forall₂ (Scope.Kept [] assigned) c c') (ha : c'.assign? name v = some after) :
    List.Forall₂ (Scope.Kept [] assigned) c after := by
  induction h generalizing after with
  | nil => cases ha
  | cons hs houter ih =>
      rcases assign?_cons_eq_some ha with ⟨hbound, rfl⟩ | ⟨outer', houter', rfl⟩
      · exact .cons (hs.define v (absurd · hbound) hname) houter
      · exact .cons hs (ih houter')

theorem Kept.assign? (h : c.Kept declared assigned c') (hname : name ∈ assigned) {v : Value}
    {after : Chain} (ha : c'.assign? name v = some after) : c.Kept declared assigned after := by
  cases h with
  | nil => cases ha
  | cons hs houter =>
      rcases assign?_cons_eq_some ha with ⟨hbound, rfl⟩ | ⟨outer', houter', rfl⟩
      · exact .cons (hs.define v (absurd · hbound) (List.mem_append_right _ hname)) houter
      · exact .cons hs (forall₂_kept_assign? hname houter houter')

/-- An assignment writes a scope in the front part of a chain, or one in the rest. -/
theorem assign?_append {v : Value} {base after : Chain} : ∀ {opened : Chain},
    Chain.assign? name v (opened ++ base) = some after →
    ∃ opened' base', after = opened' ++ base' ∧ opened'.length = opened.length ∧
      (base' = base ∨ base.assign? name v = some base')
  | [], h => ⟨[], after, rfl, rfl, .inr h⟩
  | s :: opened, h => by
      rcases assign?_cons_eq_some h with ⟨-, rfl⟩ | ⟨outer', houter', rfl⟩
      · exact ⟨s.define name v :: opened, base, rfl, rfl, .inl rfl⟩
      · obtain ⟨opened', base', rfl, hlength, hbase⟩ := assign?_append houter'
        exact ⟨s :: opened', base', rfl, congrArg (· + 1) hlength, hbase⟩

/-- A chain while a program runs that was started on `c`: so many scopes that blocks have opened,
before scopes kept so far. -/
def KeptBelow (declared assigned : List String) (c : Chain) (k : Nat) (now : Chain) : Prop :=
  ∃ opened base : Chain, now = opened ++ base ∧ opened.length = k ∧ c.Kept declared assigned base

variable {k : Nat} {now : Chain}

theorem KeptBelow.assign? (h : c.KeptBelow declared assigned k now) (hname : name ∈ assigned)
    {v : Value} {after : Chain} (ha : now.assign? name v = some after) :
    c.KeptBelow declared assigned k after := by
  obtain ⟨opened, base, rfl, hlength, hbase⟩ := h
  obtain ⟨opened', base', rfl, hlength', hbase'⟩ := assign?_append ha
  refine ⟨opened', base', rfl, hlength'.trans hlength, ?_⟩
  rcases hbase' with rfl | hassign
  · exact hbase
  · exact hbase.assign? hname hassign

/-- A declaration writes what a block has opened, or else has to be one outside of every block. -/
theorem KeptBelow.define (h : c.KeptBelow declared assigned k now)
    (hname : k = 0 → name ∈ declared) (v : Value) :
    c.KeptBelow declared assigned k (now.define name v) := by
  obtain ⟨opened, base, rfl, rfl, hbase⟩ := h
  cases opened with
  | nil => exact ⟨[], _, rfl, rfl, hbase.define (hname rfl) v⟩
  | cons s opened => exact ⟨s.define name v :: opened, base, rfl, rfl, hbase⟩

end

end Chain

/-! ## Programs -/

/-- A tree that writes these names at most.  It declares nothing that counts inside of a block. -/
structure Tree.Writes (declared assigned : List String) (k : Nat) (t : Tree) : Prop where
  declares : k = 0 → t.declared ⊆ declared
  assigns : t.assigned ⊆ assigned

section

variable {declared assigned : List String} {k : Nat}

/-- The parts of a tree write no more names than the tree. -/
theorem Tree.Writes.sameNode {t : Tree} (h : t.Writes declared assigned k) :
    SameNode Eq (fun e e' => e' = e ∧ e.Writes declared assigned k)
      (fun s s' => s' = s ∧ s.Writes declared assigned (k + 1)) t t := by
  obtain ⟨hdeclared, hassigned⟩ := h
  cases t with
  | literal v => exact .literal rfl
  | unary op e => exact .unary (.refl op) ⟨rfl, hdeclared, hassigned⟩
  | binary l op r =>
      have hl : l.Writes declared assigned k :=
        ⟨fun hk => (List.append_subset.mp (hdeclared hk)).1, (List.append_subset.mp hassigned).1⟩
      have hr : r.Writes declared assigned k :=
        ⟨fun hk => (List.append_subset.mp (hdeclared hk)).2, (List.append_subset.mp hassigned).2⟩
      exact .binary (.refl op) ⟨rfl, hl⟩ ⟨rfl, hr⟩
  | grouping e => exact .grouping ⟨rfl, hdeclared, hassigned⟩
  | reference name => exact .reference (.refl name)
  | assign name e =>
      exact .assign (.refl name) ⟨rfl, hdeclared, (List.cons_subset.mp hassigned).2⟩
  | discard e => exact .discard ⟨rfl, hdeclared, hassigned⟩
  | print e => exact .print ⟨rfl, hdeclared, hassigned⟩
  | declare name => exact .declare (.refl name)
  | define name e =>
      exact .define (.refl name) ⟨rfl, fun hk => (List.cons_subset.mp (hdeclared hk)).2, hassigned⟩
  | block ts =>
      refine .block (List.forall₂_same.mpr fun s hs => ⟨rfl, nofun, ?_⟩)
      exact List.Subset.trans (Tree.assigned_subset hs) hassigned
  | foreign => exact .foreign

/-- A run that goes alongside itself and keeps the scopes that it was started on. -/
theorem kept_correspondence (declared assigned : List String) (c : Chain) :
    Correspondence Eq (fun k now now' => now' = now ∧ c.KeptBelow declared assigned k now)
      (fun out out' => out' = out)
      (fun k t t' => t' = t ∧ t.Writes declared assigned k) where
  node := by
    rintro k t _ ⟨rfl, ht⟩
    exact ht.sameNode
  nil := rfl
  unary op _ _ hv := .of_eq (congrArg (applyUnary op) hv)
  binary op _ _ _ _ hv hw := .of_eq (congrArg₂ (applyBinary op) hv hw)
  print := by
    rintro v _ out _ rfl rfl
    rfl
  read := by
    rintro k name name' now now' ⟨⟨⟩, -⟩ ⟨rfl, -⟩
    exact optionRel_of_eq rfl
  assign := by
    rintro k name name' e e' v _ now now' ⟨⟨⟩, ht⟩ rfl ⟨hnow, hc⟩
    rw [hnow]
    cases ha : now.assign? name.lexeme v with
    | some after => exact .some ⟨rfl, hc.assign? (ht.assigns List.mem_cons_self) ha⟩
    | none => exact .none
  declare := by
    rintro k name name' now _ ⟨⟨⟩, ht⟩ ⟨rfl, hc⟩
    exact ⟨rfl, hc.define (fun hk => ht.declares hk List.mem_cons_self) _⟩
  define := by
    rintro k name name' e e' v _ now _ ⟨⟨⟩, ht⟩ rfl ⟨rfl, hc⟩
    exact ⟨rfl, hc.define (fun hk => ht.declares hk List.mem_cons_self) _⟩
  opened := by
    rintro k now _ ⟨rfl, opened, base, rfl, rfl, hbase⟩
    exact ⟨rfl, Scope.empty :: opened, base, rfl, rfl, hbase⟩
  closed := by
    rintro k now _ ⟨rfl, opened, base, rfl, hlength, hbase⟩
    cases opened with
    | nil => cases hlength
    | cons s opened => exact ⟨rfl, opened, base, rfl, Nat.succ.inj hlength, hbase⟩

end

/-- Whatever a program is and however it ends, it keeps the scopes that it was started on, but for
the names that it declares outside of every block and those that it assigns. -/
theorem runProgram_kept (ts : List Tree) (m : Machine) :
    m.scopes.Kept (Tree.declaredByAll ts) (Tree.assignedByAll ts) (m.runProgram ts).2.scopes := by
  have hts : List.Forall₂ (fun t t' => t' = t ∧
      t.Writes (Tree.declaredByAll ts) (Tree.assignedByAll ts) 0) ts ts :=
    List.forall₂_same.mpr fun t ht => ⟨rfl,
      fun _ name hname => List.mem_flatMap.mpr ⟨t, ht, hname⟩, Tree.assigned_subset ht⟩
  have hstart : m.scopes.KeptBelow (Tree.declaredByAll ts) (Tree.assignedByAll ts) 0 m.scopes :=
    ⟨[], m.scopes, rfl, rfl, .refl _ _ _⟩
  obtain ⟨-, hleft⟩ := (kept_correspondence _ _ m.scopes).program hts m m
    ⟨⟨rfl, hstart⟩, rfl, rfl⟩
  obtain ⟨-, opened, base, hnow, hlength, hbase⟩ := hleft.scopes
  rw [List.length_eq_zero_iff.mp hlength, List.nil_append] at hnow
  show Chain.Kept _ _ _ ((Run.program ts).on m).2.scopes
  rw [hnow]
  exact hbase

/-! ## Sessions -/

/-- Episodes of a session from a chain of scopes, each of which keeps the scopes that the one
before left, but for the names that its own statements write.  A source that is no program has no
statements. -/
inductive SessionKept (frontEnd : FrontEnd) : Chain → List String → List Episode → Prop
  | nil (c : Chain) : SessionKept frontEnd c [] []
  | cons {c : Chain} {source : String} {sources : List String} {e : Episode}
      {episodes : List Episode} :
      c.Kept (Tree.declaredByAll (frontEnd.statements source))
        (Tree.assignedByAll (frontEnd.statements source)) e.scopes →
      SessionKept frontEnd e.scopes sources episodes →
      SessionKept frontEnd c (source :: sources) (e :: episodes)

theorem session_kept (frontEnd : FrontEnd) (verbosity : Int) :
    ∀ (sources : List String) (c : Chain),
      SessionKept frontEnd c sources (session frontEnd verbosity c sources)
  | [], c => .nil c
  | source :: sources, c => by
      obtain ⟨m, hm, hfeed⟩ := feed_scopes frontEnd source (Machine.start c verbosity)
      refine .cons ?_ (session_kept frontEnd verbosity sources _)
      have hkept := runProgram_kept (frontEnd.statements source) m
      rw [hm, ← hfeed] at hkept
      exact hkept

/-- Scope discipline, on every way out.  A program of any trees, run from any machine, leaves the
scopes that it found, each in its place: none has lost a name, the innermost alone has gained
names, and only such as are declared outside of every block, and a value differs only under such a
name there or under the target of an assignment.  In a session this holds of each source with the
scopes that the source before it left. -/
theorem scopes_kept :
    (∀ (ts : List Tree) (m : Machine), m.scopes.Kept (Tree.declaredByAll ts)
      (Tree.assignedByAll ts) (m.runProgram ts).2.scopes) ∧
    ∀ (frontEnd : FrontEnd) (verbosity : Int) (sources : List String) (c : Chain),
      SessionKept frontEnd c sources (session frontEnd verbosity c sources) :=
  ⟨runProgram_kept, session_kept⟩

end RoxLang
