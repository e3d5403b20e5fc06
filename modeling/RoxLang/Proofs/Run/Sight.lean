/-
# `RoxLang.Proofs.Run.Sight` — a run sees no more of its scopes than the names it mentions

Of the scopes that it is started on, a program sees the values of the names that occur in it.  Which
scope a name belongs to, how many scopes there are, and what else they bind makes no difference to
what it prints or how it ends.

Two chains may well be written in different places by the same run: an assignment goes to the owner
of its name, and that may be the innermost scope of one chain and the outermost of the other; a
declaration may shadow in one chain what it overwrites in the other.  What the two keep in common
is what is in sight.  The scopes that blocks of the run itself have opened hide from sight what is
behind them, and would uncover it again when they close; but these are the very same scopes on both
sides, because a block opens an empty scope and everything written there is written on both sides.
So the relation is: the same opened scopes, in front of chains that show the same values.
-/
import RoxLang.Proofs.Grammar.Names
import RoxLang.Proofs.Run.Discipline
import RoxLang.Proofs.Scope.Owner

namespace RoxLang

open RoxLang.Run (Correspondence Seen SameEnd optionRel_of_eq)
open RoxLang.Tree (SameNode nameTokensOfAll)

/-! ## The names that occur in a program -/

namespace Tree

/-- The names that occur in a tree: those that it reads, assigns or declares. -/
def names (t : Tree) : List String := t.nameTokens.map (·.lexeme)

/-- The names that occur in a program. -/
def namesOfAll (ts : List Tree) : List String := (nameTokensOfAll ts).map (·.lexeme)

theorem names_subset {t : Tree} : ∀ {ts : List Tree}, t ∈ ts → t.names ⊆ namesOfAll ts
  | _ :: ts, .head _ => List.map_subset _ (List.subset_append_left _ _)
  | _ :: _, .tail _ h => by
      refine List.Subset.trans (names_subset h) (List.map_subset _ ?_)
      exact List.subset_append_right _ _

theorem append_subset_append {α : Type} {as as' bs bs' : List α} (ha : as ⊆ as') (hb : bs ⊆ bs') :
    as ++ bs ⊆ as' ++ bs' :=
  List.append_subset.mpr ⟨List.subset_append_of_subset_left _ ha,
    List.subset_append_of_subset_right _ hb⟩

theorem names_binary (l : Tree) (op : Token) (r : Tree) :
    (Tree.binary l op r).names = l.names ++ r.names := List.map_append

theorem declared_subset_names : ∀ t : Tree, t.declared ⊆ t.names
  | .literal _ | .reference _ | .block _ | .foreign _ => List.nil_subset _
  | .unary _ e | .grouping e | .discard e | .print e => declared_subset_names e
  | .assign _ e => List.subset_cons_of_subset _ (declared_subset_names e)
  | .binary l _ r => by
      rw [names_binary]
      exact append_subset_append (declared_subset_names l) (declared_subset_names r)
  | .declare _ => List.Subset.refl _
  | .define _ e => List.cons_subset_cons _ (declared_subset_names e)

mutual

theorem assigned_subset_names : ∀ t : Tree, t.assigned ⊆ t.names
  | .literal _ | .reference _ | .declare _ | .foreign _ => List.nil_subset _
  | .unary _ e | .grouping e | .discard e | .print e => assigned_subset_names e
  | .define _ e => List.subset_cons_of_subset _ (assigned_subset_names e)
  | .binary l _ r => by
      rw [names_binary]
      exact append_subset_append (assigned_subset_names l) (assigned_subset_names r)
  | .assign _ e => List.cons_subset_cons _ (assigned_subset_names e)
  | .block ts => assignedByAll_subset_namesOfAll ts

theorem assignedByAll_subset_namesOfAll : ∀ ts : List Tree, assignedByAll ts ⊆ namesOfAll ts
  | [] => List.nil_subset _
  | t :: ts => by
      show _ ⊆ (t.nameTokens ++ nameTokensOfAll ts).map _
      rw [List.map_append]
      exact append_subset_append (assigned_subset_names t) (assignedByAll_subset_namesOfAll ts)

end

theorem declaredByAll_subset_namesOfAll (ts : List Tree) : declaredByAll ts ⊆ namesOfAll ts := by
  intro name hname
  obtain ⟨t, ht, hname⟩ := List.mem_flatMap.mp hname
  exact names_subset ht (declared_subset_names t hname)

end Tree

/-! ## Chains that show the same values -/

namespace Chain

/-- Each of the names has one value in both chains, or is unknown in both. -/
def AgreeOn (names : List String) (c c' : Chain) : Prop :=
  ∀ name ∈ names, c.get? name = c'.get? name

section

variable {names : List String} {name : String} {c c' : Chain}

theorem AgreeOn.assign? (h : c.AgreeOn names c') (hname : name ∈ names) (v : Value) :
    Option.Rel (AgreeOn names) (c.assign? name v) (c'.assign? name v) := by
  have hsome : (c.assign? name v).isSome = (c'.assign? name v).isSome := by
    rw [assign?_isSome, assign?_isSome, h name hname]
  cases ha : c.assign? name v with
  | none =>
      rw [ha] at hsome
      rw [Option.isNone_iff_eq_none.mp (Option.isSome_eq_false_iff.mp hsome.symm)]
      exact .none
  | some after =>
      rw [ha] at hsome
      obtain ⟨after', ha'⟩ := Option.isSome_iff_exists.mp hsome.symm
      rw [ha']
      refine .some fun other hother => ?_
      rw [get?_assign? other ha, get?_assign? other ha', h other hother]

theorem AgreeOn.define {s s' : Scope} {outer outer' : Chain}
    (h : AgreeOn names (s :: outer) (s' :: outer')) (name : String) (v : Value) :
    AgreeOn names (s.define name v :: outer) (s'.define name v :: outer') := by
  intro other hother
  rw [get?_define_cons, get?_define_cons, h other hother]

/-- Two chains while a program runs: the same scopes opened by blocks, so many of them, before
chains that show the same values.  Neither of the latter is without a scope. -/
def AgreeBehind (names : List String) (k : Nat) (now now' : Chain) : Prop :=
  ∃ opened base base' : Chain, now = opened ++ base ∧ now' = opened ++ base' ∧ opened.length = k ∧
    base ≠ [] ∧ base' ≠ [] ∧ base.AgreeOn names base'

variable {k : Nat} {now now' : Chain}

theorem AgreeBehind.get? (h : AgreeBehind names k now now') (hname : name ∈ names) :
    now.get? name = now'.get? name := by
  obtain ⟨opened, base, base', rfl, rfl, -, -, -, hbase⟩ := h
  rcases owned_or_unbound name opened with ⟨inner, owner, outer, v, rfl, hi, ho⟩ | hu
  · rw [List.append_assoc, List.append_assoc, List.cons_append, List.cons_append,
      get?_of_owner _ ho hi, get?_of_owner _ ho hi]
  · rw [get?_append_of_unbound _ hu, get?_append_of_unbound _ hu, hbase name hname]

theorem assign?_ne_nil {v : Value} {after : Chain} (h : c.assign? name v = some after) :
    after ≠ [] := by
  cases c with
  | nil => cases h
  | cons s outer => rcases assign?_cons_eq_some h with ⟨-, rfl⟩ | ⟨_, -, rfl⟩ <;> exact nofun

/-- An assignment writes an opened scope, which is the same on both sides, or one behind these. -/
theorem AgreeBehind.assign? (h : AgreeBehind names k now now') (hname : name ∈ names) (v : Value) :
    Option.Rel (AgreeBehind names k) (now.assign? name v) (now'.assign? name v) := by
  obtain ⟨opened, base, base', rfl, rfl, hlength, hne, hne', hbase⟩ := h
  rcases owned_or_unbound name opened with ⟨inner, owner, outer, _, rfl, hi, ho⟩ | hu
  · have hassign (base : Chain) : Chain.assign? name v ((inner ++ owner :: outer) ++ base)
        = some ((inner ++ owner.define name v :: outer) ++ base) := by
      rw [List.append_assoc, List.append_assoc]
      exact assign?_of_owner v (outer ++ base) ho hi
    rw [hassign, hassign]
    refine .some ⟨_, base, base', rfl, rfl, ?_, hne, hne', hbase⟩
    simpa only [List.length_append, List.length_cons] using hlength
  · rw [assign?_append_of_unbound v base hu, assign?_append_of_unbound v base' hu]
    have hbehind := hbase.assign? hname v
    cases ha : base.assign? name v with
    | none =>
        rw [ha] at hbehind
        generalize base'.assign? name v = r' at hbehind
        cases hbehind
        exact .none
    | some after =>
        rw [ha] at hbehind
        cases ha' : base'.assign? name v with
        | none =>
            rw [ha'] at hbehind
            cases hbehind
        | some after' =>
            rw [ha'] at hbehind
            cases hbehind with
            | some hafter =>
                exact .some ⟨opened, after, after', rfl, rfl, hlength, assign?_ne_nil ha,
                  assign?_ne_nil ha', hafter⟩

theorem AgreeBehind.define (h : AgreeBehind names k now now') (name : String) (v : Value) :
    AgreeBehind names k (now.define name v) (now'.define name v) := by
  obtain ⟨opened, base, base', rfl, rfl, hlength, hne, hne', hbase⟩ := h
  cases opened with
  | cons s opened =>
      exact ⟨s.define name v :: opened, base, base', rfl, rfl, hlength, hne, hne', hbase⟩
  | nil =>
      cases base with
      | nil => exact absurd rfl hne
      | cons s outer =>
          cases base' with
          | nil => exact absurd rfl hne'
          | cons s' outer' =>
              exact ⟨[], _, _, rfl, rfl, hlength, nofun, nofun, AgreeOn.define hbase name v⟩

end

/-! ## The scope of everything in sight -/

/-- One scope that binds what a chain shows: the bindings of each scope that no scope further in
hides. -/
def visible : Chain → Scope
  | [] => Scope.empty
  | s :: outer =>
      ⟨s.bindings ++ (visible outer).bindings.filter fun (name, _) => (s.get? name).isNone⟩

theorem lookup_filter_of_pos {p : String × Value → Bool} {name : String}
    (h : ∀ v, p (name, v) = true) : ∀ bs : List (String × Value),
      (bs.filter p).lookup name = bs.lookup name
  | [] => rfl
  | (n, v) :: bs => by
      by_cases hn : name = n
      · subst hn
        simp only [List.filter_cons, h v, if_true, List.lookup_cons, beq_self_eq_true]
      · have hbeq : (name == n) = false := by simpa using hn
        simp only [List.filter_cons]
        split <;> simp only [List.lookup_cons, hbeq, lookup_filter_of_pos h bs]

theorem get?_visible (name : String) : ∀ c : Chain, c.visible.get? name = c.get? name
  | [] => rfl
  | s :: outer => by
      have hrest : (visible outer).bindings.lookup name = get? name outer :=
        get?_visible name outer
      simp only [Scope.get?, visible, List.lookup_append, get?]
      cases hs : List.lookup name s.bindings with
      | some v => rfl
      | none =>
          have hkept : ∀ v : Value, (List.lookup name s.bindings).isNone = true := by
            intro _
            rw [hs]
            rfl
          rw [lookup_filter_of_pos hkept, hrest]
          rfl

end Chain

/-! ## Programs -/

/-- The parts of a tree mention no more names than the tree. -/
theorem Tree.sameNode_of_names_subset {names : List String} {t : Tree} (h : t.names ⊆ names) :
    SameNode Eq (fun e e' => e' = e ∧ e.names ⊆ names) (fun s s' => s' = s ∧ s.names ⊆ names)
      t t := by
  cases t with
  | literal v => exact .literal rfl
  | unary op e => exact .unary (.refl op) ⟨rfl, h⟩
  | binary l op r =>
      rw [Tree.names_binary, List.append_subset] at h
      exact .binary (.refl op) ⟨rfl, h.1⟩ ⟨rfl, h.2⟩
  | grouping e => exact .grouping ⟨rfl, h⟩
  | reference name => exact .reference (.refl name)
  | assign name e => exact .assign (.refl name) ⟨rfl, (List.cons_subset.mp h).2⟩
  | discard e => exact .discard ⟨rfl, h⟩
  | print e => exact .print ⟨rfl, h⟩
  | declare name => exact .declare (.refl name)
  | define name e => exact .define (.refl name) ⟨rfl, (List.cons_subset.mp h).2⟩
  | block ts =>
      exact .block (List.forall₂_same.mpr fun s hs =>
        ⟨rfl, List.Subset.trans (Tree.names_subset hs) h⟩)
  | foreign => exact .foreign

/-- A program runs on chains that show the same values for its names as on one chain. -/
theorem sight_correspondence (names : List String) :
    Correspondence Eq (Chain.AgreeBehind names) Eq (fun _ t t' => t' = t ∧ t.names ⊆ names) where
  node := by
    rintro k t _ ⟨rfl, ht⟩
    exact Tree.sameNode_of_names_subset ht
  nil := rfl
  unary op _ _ hv := .of_eq (congrArg (applyUnary op) hv)
  binary op _ _ _ _ hv hw := .of_eq (congrArg₂ (applyBinary op) hv hw)
  print := by
    rintro v _ out _ rfl rfl
    rfl
  read := by
    rintro k name _ now now' ⟨⟨⟩, ht⟩ hc
    exact optionRel_of_eq (hc.get? (ht List.mem_cons_self))
  assign := by
    rintro k name _ e _ v _ now now' ⟨⟨⟩, ht⟩ rfl hc
    exact hc.assign? (ht List.mem_cons_self) v
  declare := by
    rintro k name _ now now' ⟨⟨⟩, -⟩ hc
    exact hc.define name.lexeme .nil
  define := by
    rintro k name _ e _ v _ now now' ⟨⟨⟩, -⟩ rfl hc
    exact hc.define name.lexeme v
  opened := by
    rintro k now now' ⟨opened, base, base', rfl, rfl, rfl, hbase⟩
    exact ⟨Scope.empty :: opened, base, base', rfl, rfl, rfl, hbase⟩
  closed := by
    rintro k now now' ⟨opened, base, base', rfl, rfl, hlength, hbase⟩
    cases opened with
    | nil => cases hlength
    | cons s opened => exact ⟨opened, base, base', rfl, rfl, Nat.succ.inj hlength, hbase⟩

/-- Chains of the same scopes, each with the bindings of all other names as they were. -/
def Chain.KeepsOthers (names : List String) (before after : Chain) : Prop :=
  List.Forall₂ (fun s s' : Scope => ∀ name ∉ names, s'.get? name = s.get? name) before after

theorem Scope.Kept.get?_eq {gained changed : List String} {s s' : Scope}
    (h : s.Kept gained changed s') {name : String} (hgained : name ∉ gained)
    (hchanged : name ∉ changed) : s'.get? name = s.get? name := by
  by_cases hs : s.get? name = none
  · rw [hs]
    by_contra hs'
    exact hgained (h.gained hs hs')
  · by_contra hs'
    exact hchanged (h.changed hs hs')

/-- A program leaves every binding of a name that does not occur in it as it was. -/
theorem runProgram_keepsOthers (ts : List Tree) (m : Machine) :
    Chain.KeepsOthers (Tree.namesOfAll ts) m.scopes (m.runProgram ts).2.scopes := by
  have hdeclared := Tree.declaredByAll_subset_namesOfAll ts
  have hassigned := Tree.assignedByAll_subset_namesOfAll ts
  have hkept := runProgram_kept ts m
  generalize (m.runProgram ts).2.scopes = after at hkept ⊢
  generalize m.scopes = before at hkept ⊢
  cases hkept with
  | nil => exact .nil
  | cons hs houter =>
      refine .cons (fun name hname => hs.get?_eq (fun h => hname (hdeclared h)) fun h => ?_) ?_
      · exact hname ((List.append_subset.mpr ⟨hdeclared, hassigned⟩) h)
      · exact houter.imp fun _ _ h name hname =>
          h.get?_eq List.not_mem_nil fun h => hname (hassigned h)

/-- Two runs that no one can tell apart by the names of a program, each with the chain on which it
was started: the same output, the same end, the same values of the names afterwards, and on either
side every binding of another name as it was. -/
structure SameSight (names : List String) (c c' : Chain)
    (run run' : Except RunFault Unit × Machine) : Prop where
  ends : run.1 = run'.1
  output : run.2.output = run'.2.output
  values : Chain.AgreeOn names run.2.scopes run'.2.scopes
  others : Chain.KeepsOthers names c run.2.scopes
  others' : Chain.KeepsOthers names c' run'.2.scopes

theorem runProgram_sameSight (ts : List Tree) (verbosity : Int) {s s' : Scope}
    {outer outer' : Chain} (h : Chain.AgreeOn (Tree.namesOfAll ts) (s :: outer) (s' :: outer')) :
    SameSight (Tree.namesOfAll ts) (s :: outer) (s' :: outer')
      ((Machine.start (s :: outer) verbosity).runProgram ts)
      ((Machine.start (s' :: outer') verbosity).runProgram ts) := by
  have hts : List.Forall₂ (fun t t' => t' = t ∧ t.names ⊆ Tree.namesOfAll ts) ts ts :=
    List.forall₂_same.mpr fun t ht => ⟨rfl, Tree.names_subset ht⟩
  have hstart : Chain.AgreeBehind (Tree.namesOfAll ts) 0 (s :: outer) (s' :: outer') :=
    ⟨[], _, _, rfl, rfl, rfl, nofun, nofun, h⟩
  obtain ⟨hend, hleft⟩ := (sight_correspondence _).program hts
    (Machine.start (s :: outer) verbosity) (Machine.start (s' :: outer') verbosity)
    ⟨hstart, rfl, rfl⟩
  exact {
    ends := hend.eq
    output := congrArg (fun printed : Array String => String.join printed.toList) hleft.printed
    values := fun _ hname => hleft.scopes.get? hname
    others := runProgram_keepsOthers ts (Machine.start (s :: outer) verbosity)
    others' := runProgram_keepsOthers ts (Machine.start (s' :: outer') verbosity) }

/-- A run depends on the visible values of the names that its program mentions, and on nothing else
of the scopes that it is started on.  On any two chains of scopes that show the same values for
these names it prints the same text and ends in the same way; afterwards the chains show the same
values for them again, and in each of the two every binding of another name is unchanged.  So a
chain can be replaced by the one scope that binds what the chain shows. -/
theorem run_sees_names_only (ts : List Tree) (verbosity : Int) :
    let run (c : Chain) := (Machine.start c verbosity).runProgram ts
    (∀ (s s' : Scope) (outer outer' : Chain),
      Chain.AgreeOn (Tree.namesOfAll ts) (s :: outer) (s' :: outer') →
      SameSight (Tree.namesOfAll ts) (s :: outer) (s' :: outer') (run (s :: outer))
        (run (s' :: outer'))) ∧
    ∀ (s : Scope) (outer : Chain), SameSight (Tree.namesOfAll ts) (s :: outer)
      [Chain.visible (s :: outer)] (run (s :: outer)) (run [Chain.visible (s :: outer)]) := by
  intro run
  refine ⟨fun s s' outer outer' h => runProgram_sameSight ts verbosity h, fun s outer => ?_⟩
  refine runProgram_sameSight ts verbosity fun name _ => ?_
  rw [← Chain.get?_visible name (s :: outer)]
  simp only [Chain.get?]
  cases (Chain.visible (s :: outer)).get? name <;> rfl

/-- `{ x = x + "b"; } var x = x + "c"; print x;` where `x` is `"a"`, once in an outer scope and once
in the innermost: the declaration shadows the one and overwrites the other. -/
theorem run_sees_names_only_shadowing :
    let x : Token := ⟨.identifier, "x", 0⟩
    let plus : Token := ⟨.mark .plus, "+", 0⟩
    let longer (s : String) : Tree := .binary (.reference x) plus (.literal (.string s))
    let ts : List Tree := [.block [.discard (.assign x (longer "b"))], .define x (longer "c"),
      .print (.reference x)]
    let run (c : Chain) := (Machine.start c 0).runProgram ts
    let far : Chain := [⟨[]⟩, ⟨[("x", .string "a")]⟩]
    let near : Chain := [⟨[("x", .string "a"), ("y", .nil)]⟩]
    Chain.AgreeOn (Tree.namesOfAll ts) far near ∧ (run far).2.output = "abc\n" := by
  intro x plus longer ts run far near
  have hagree : Chain.AgreeOn (Tree.namesOfAll ts) far near := by
    intro name hname
    have hx : name = "x" := by
      simpa [Tree.namesOfAll, ts, nameTokensOfAll, Tree.nameTokens, longer, x] using hname
    subst hx
    rfl
  exact ⟨hagree, ((run_sees_names_only ts 0).1 _ _ _ _ hagree).output⟩

end RoxLang
