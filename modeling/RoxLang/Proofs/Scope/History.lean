/-
# `RoxLang.Proofs.Scope.History` — scopes told by what has been done with them

What a forest of scopes answers is a matter of the operations done before, and can be told without
the forest.  A history lists them, the last one first.  Its `create` operations say which scope lies
in which; a name is bound in a scope if it was ever defined there; its owner, seen from a scope, is
the first scope on the way outward in which it was; and its value there is what was last written,
by a definition in that scope or by an assignment from wherever that scope was the owner then.

Ownership changes in the course of a history: a later definition further in takes a name over, for
the scopes that see it through there, and leaves it to the old owner for all others.  That is why
the writes of an assignment are told by the history *before* it.

The forest after a history records exactly that (`records_after`), one operation at a time.
-/
import Mathlib.Data.List.Basic
import RoxLang.Scope.Forest

namespace RoxLang.Forest

/-! ## Histories -/

/-- The operations done so far, the last one first. -/
abbrev History := List Operation

namespace History

/-- The enclosing scope of each scope created so far, if it has one. -/
def parents : History → List (Option Nat)
  | [] => []
  | .create parent? :: h => parents h ++ [parent?]
  | _ :: h => parents h

/-- The scope that an operation is done in or with, if there is one. -/
def mentioned? : Operation → Option Nat
  | .create parent? => parent?
  | .define scope _ _ | .assign scope _ _ | .get scope _ => some scope

/-- Every operation is done with a scope that had been created. -/
inductive Valid : History → Prop
  | nil : Valid []
  | cons {op : Operation} {h : History} : (∀ s ∈ mentioned? op, s < h.parents.length) → Valid h →
      Valid (op :: h)

/-- The way from a scope outward to its root. -/
inductive Path (parents : List (Option Nat)) : Nat → List Nat → Prop
  | root {s : Nat} : parents[s]? = some none → Path parents s [s]
  | step {s parent : Nat} {path : List Nat} : parents[s]? = some (some parent) →
      Path parents parent path → Path parents s (s :: path)

/-- A name was defined in a scope. -/
def Defined (h : History) (s : Nat) (name : String) : Prop := ∃ v, .define s name v ∈ h

/-- The owner of a name seen from the scope `e`: the first one outward in which it was defined. -/
def Owner (h : History) (e : Nat) (name : String) (s : Nat) : Prop :=
  ∃ inner outer, Path h.parents e (inner ++ s :: outer) ∧ Defined h s name ∧
    ∀ i ∈ inner, ¬ Defined h i name

/-- An operation done after a history writes a name of the scope `s`. -/
inductive Writes (h : History) : Operation → Nat → String → Value → Prop
  | define {s : Nat} {name : String} {v : Value} : Writes h (.define s name v) s name v
  | assign {e s : Nat} {name : String} {v : Value} : Owner h e name s →
      Writes h (.assign e name v) s name v

/-- The last value written to a name of the scope `s`. -/
inductive Latest : History → Nat → String → Value → Prop
  | write {op : Operation} {h : History} {s : Nat} {name : String} {v : Value} :
      Writes h op s name v → Latest (op :: h) s name v
  | keep {op : Operation} {h : History} {s : Nat} {name : String} {v : Value} :
      (∀ w, ¬ Writes h op s name w) → Latest h s name v → Latest (op :: h) s name v

/-- The forest after a history. -/
def after : History → Forest
  | [] => Forest.empty
  | op :: h => ((after h).perform op).2

/-! ## Histories by themselves -/

section

variable {h : History} {op : Operation} {e s : Nat} {name : String} {v : Value}

theorem latest_cons_iff : Latest (op :: h) s name v ↔
    Writes h op s name v ∨ (∀ w, ¬ Writes h op s name w) ∧ Latest h s name v := by
  constructor
  · rintro (hw | ⟨hno, hl⟩)
    · exact .inl hw
    · exact .inr ⟨hno, hl⟩
  · rintro (hw | ⟨hno, hl⟩)
    · exact .write hw
    · exact .keep hno hl

/-- A name of a scope has a last value exactly when it was defined there. -/
theorem exists_latest_iff : ∀ {h : History}, (∃ v, Latest h s name v) ↔ Defined h s name := by
  intro h
  constructor
  · rintro ⟨v, hl⟩
    induction hl with
    | write hw =>
        cases hw with
        | define => exact ⟨_, List.mem_cons_self⟩
        | assign howner =>
            obtain ⟨_, _, _, ⟨w, hw⟩, _⟩ := howner
            exact ⟨w, List.mem_cons_of_mem _ hw⟩
    | keep _ _ ih =>
        obtain ⟨w, hw⟩ := ih
        exact ⟨w, List.mem_cons_of_mem _ hw⟩
  · rintro ⟨v, hv⟩
    induction h with
    | nil => cases hv
    | cons op h ih =>
        by_cases hwrites : ∃ w, Writes h op s name w
        · obtain ⟨w, hw⟩ := hwrites
          exact ⟨w, .write hw⟩
        · have hno (w : Value) : ¬ Writes h op s name w := fun hw => hwrites ⟨w, hw⟩
          rcases List.mem_cons.mp hv with rfl | hv
          · exact absurd .define (hno v)
          · obtain ⟨w, hl⟩ := ih hv
            exact ⟨w, .keep hno hl⟩

theorem Path.unique {parents : List (Option Nat)} {path path' : List Nat}
    (hp : Path parents e path) (hp' : Path parents e path') : path = path' := by
  induction hp generalizing path' with
  | root hroot =>
      cases hp' with
      | root _ => rfl
      | step hstep _ => cases hroot.symm.trans hstep
  | step hstep _ ih =>
      cases hp' with
      | root hroot => cases hroot.symm.trans hstep
      | step hstep' hrest =>
          cases hstep.symm.trans hstep'
          exact congrArg (_ :: ·) (ih hrest)

theorem Path.lt_length {parents : List (Option Nat)} {path : List Nat}
    (hp : Path parents e path) : ∀ i ∈ path, i < parents.length := by
  induction hp with
  | root hroot =>
      intro i hi
      obtain rfl := List.mem_singleton.mp hi
      exact (List.getElem?_eq_some_iff.mp hroot).1
  | step hstep _ ih =>
      intro i hi
      rcases List.mem_cons.mp hi with rfl | hi
      · exact (List.getElem?_eq_some_iff.mp hstep).1
      · exact ih i hi

theorem Owner.lt_length (howner : Owner h e name s) : s < h.parents.length := by
  obtain ⟨inner, outer, hpath, -, -⟩ := howner
  exact hpath.lt_length s (List.mem_append_right inner List.mem_cons_self)

/-- Enclosing scopes are older. -/
theorem Valid.parent_lt (hh : Valid h) : ∀ {s parent : Nat},
    h.parents[s]? = some (some parent) → parent < s := by
  induction hh with
  | nil => exact nofun
  | @cons op h hop _ ih =>
      intro s parent hs
      cases op with
      | create parent? =>
          rw [parents, List.getElem?_append] at hs
          split at hs
          · exact ih hs
          · next hlength =>
              obtain ⟨-, rfl⟩ : s - h.parents.length = 0 ∧ parent? = some parent := by
                simpa [List.getElem?_singleton] using hs
              exact Nat.lt_of_lt_of_le (hop parent rfl) (Nat.le_of_not_lt hlength)
      | define _ _ _ | assign _ _ _ | get _ _ => exact ih hs

end

/-! ## What a forest keeps of its history -/

/-- A forest records a history: which scopes lie in which, and what was last written where. -/
structure Records (h : History) (f : Forest) : Prop where
  parents : f.nodes.map Node.parent? = h.parents
  bindings {s : Nat} {name : String} {v : Value} :
    (f.scope s).get? name = some v ↔ Latest h s name v

section

variable {h : History} {f : Forest} {e s : Nat} {name : String} {v : Value}

theorem Records.length_eq (hf : Records h f) : f.nodes.length = h.parents.length := by
  rw [← hf.parents, List.length_map]

theorem Records.parent?_eq (hf : Records h f) (s : Nat) :
    f.nodes[s]?.map Node.parent? = h.parents[s]? := by
  rw [← hf.parents, List.getElem?_map]

theorem Records.isSome_iff (hf : Records h f) :
    ((f.scope s).get? name).isSome = true ↔ Defined h s name := by
  rw [Option.isSome_iff_exists, ← exists_latest_iff]
  exact exists_congr fun v => hf.bindings

/-- The way outward that the forest finds is the path of the history. -/
theorem Records.path_outward (hf : Records h f) (hh : Valid h) : ∀ {n s : Nat}, s < n →
    s < h.parents.length → Path h.parents s (f.outward n s)
  | n + 1, s, hn, hs => by
      obtain ⟨node, hnode⟩ : ∃ node, f.nodes[s]? = some node :=
        ⟨_, List.getElem?_eq_getElem (hf.length_eq ▸ hs)⟩
      have hparent := hf.parent?_eq s
      rw [hnode] at hparent
      simp only [outward, hnode]
      cases hp : node.parent? with
      | none =>
          rw [Option.map_some, hp] at hparent
          exact .root hparent.symm
      | some parent =>
          rw [Option.map_some, hp] at hparent
          have hless := hh.parent_lt hparent.symm
          simp only [hless, if_true]
          exact .step hparent.symm
            (hf.path_outward hh (by omega) (Nat.lt_trans hless hs))

theorem Records.path_iff (hf : Records h f) (hh : Valid h) {path : List Nat} (hne : path ≠ []) :
    Path h.parents e path ↔ f.path e = path := by
  by_cases he : e < h.parents.length
  · have hpath : Path h.parents e (f.path e) := hf.path_outward hh (hf.length_eq ▸ he) he
    exact ⟨hpath.unique, fun heq => heq ▸ hpath⟩
  · have hnone : f.nodes[e]? = none :=
      List.getElem?_eq_none (hf.length_eq ▸ Nat.le_of_not_lt he)
    have hnil : f.path e = [] := by
      unfold Forest.path
      cases f.nodes.length with
      | zero => rfl
      | succ n => simp only [outward, hnone]
    constructor
    · intro hp
      cases hp with
      | root hroot => exact absurd (List.getElem?_eq_some_iff.mp hroot).1 he
      | step hstep _ => exact absurd (List.getElem?_eq_some_iff.mp hstep).1 he
    · rw [hnil]
      exact fun heq => absurd heq.symm hne

theorem Records.owner?_iff (hf : Records h f) (hh : Valid h) :
    f.owner? e name = some s ↔ Owner h e name s := by
  rw [owner?, List.find?_eq_some_iff_append]
  constructor
  · rintro ⟨hs, inner, outer, hpath, hinner⟩
    refine ⟨inner, outer, (hf.path_iff hh (by simp)).mpr hpath, hf.isSome_iff.mp hs, ?_⟩
    intro i hi hdefined
    have := hinner i hi
    rw [hf.isSome_iff.mpr hdefined] at this
    cases this
  · rintro ⟨inner, outer, hpath, hs, hinner⟩
    refine ⟨hf.isSome_iff.mpr hs, inner, outer, (hf.path_iff hh (by simp)).mp hpath, ?_⟩
    intro i hi
    rw [Bool.not_eq_true', ← Bool.not_eq_true, hf.isSome_iff]
    exact hinner i hi

theorem Records.owner?_eq_none_iff (hf : Records h f) (hh : Valid h) :
    f.owner? e name = none ↔ ¬ ∃ s, Owner h e name s := by
  rw [Option.eq_none_iff_forall_ne_some, not_exists]
  exact forall_congr' fun s => not_congr (hf.owner?_iff hh)

end

/-! ## One write -/

/-- One binding of one scope has been written, and nothing else is different. -/
structure Rebinds (f f' : Forest) (s : Nat) (name : String) (v : Value) : Prop where
  path (e : Nat) : f'.path e = f.path e
  written : (f'.scope s).get? name = some v
  elsewhere {i : Nat} {other : String} : ¬(i = s ∧ other = name) →
    (f'.scope i).get? other = (f.scope i).get? other

section

variable {f f' : Forest} {s : Nat} {name : String} {v : Value}

/-- A new scope binds nothing, so it is seen as it was before. -/
theorem scope_add (f : Forest) (parent? : Option Nat) (s : Nat) :
    (f.add parent?).1.scope s = f.scope s := by
  show ((f.nodes ++ [_])[s]?.map Node.scope).getD Scope.empty = f.scope s
  rw [List.getElem?_append]
  split
  · rfl
  · next hlength =>
      rw [scope, List.getElem?_eq_none (Nat.le_of_not_lt hlength), List.getElem?_singleton]
      split <;> rfl

theorem parents_define (f : Forest) (s : Nat) (name : String) (v : Value) :
    (f.define s name v).nodes.map Node.parent? = f.nodes.map Node.parent? := by
  refine List.ext_getElem? fun i => ?_
  simp only [define, modify, List.getElem?_map, List.getElem?_modify]
  cases f.nodes[i]? with
  | none => rfl
  | some node =>
      simp only [Option.map_eq_map, Option.map_some]
      split <;> rfl

theorem outward_eq_of_parents (hparents : f'.nodes.map Node.parent? = f.nodes.map Node.parent?) :
    ∀ (n e : Nat), f'.outward n e = f.outward n e
  | 0, _ => rfl
  | n + 1, e => by
      have he : f'.nodes[e]?.map Node.parent? = f.nodes[e]?.map Node.parent? := by
        rw [← List.getElem?_map, ← List.getElem?_map, hparents]
      unfold outward
      cases hnode : f.nodes[e]? with
      | none =>
          rw [hnode, Option.map_none, Option.map_eq_none_iff] at he
          rw [he]
      | some node =>
          rw [hnode] at he
          obtain ⟨node', hnode', hparent⟩ := Option.map_eq_some_iff.mp he
          simp only [hnode', hparent]
          cases node.parent? with
          | none => rfl
          | some parent => simp only [outward_eq_of_parents hparents n parent]

theorem path_define (f : Forest) (s : Nat) (name : String) (v : Value) (e : Nat) :
    (f.define s name v).path e = f.path e := by
  have hlength : (f.define s name v).nodes.length = f.nodes.length := List.length_modify _ _ _
  rw [path, path, hlength]
  exact outward_eq_of_parents (parents_define f s name v) _ e

theorem scope_define (hs : s < f.nodes.length) (i : Nat) :
    (f.define s name v).scope i = if i = s then (f.scope s).define name v else f.scope i := by
  simp only [scope, define, modify, List.getElem?_modify]
  by_cases hi : i = s
  · subst hi
    simp only [List.getElem?_eq_getElem hs, if_true]
    rfl
  · have hne : s ≠ i := Ne.symm hi
    cases f.nodes[i]? <;> simp [hi, hne]

theorem rebinds_define (hs : s < f.nodes.length) (name : String) (v : Value) :
    Rebinds f (f.define s name v) s name v where
  path := path_define f s name v
  written := by rw [scope_define hs, if_pos rfl, Scope.get?_define, if_pos rfl]
  elsewhere {i other} hne := by
    rw [scope_define hs]
    split
    · next hi =>
        rw [Scope.get?_define, if_neg fun hother => hne ⟨hi, hother⟩, hi]
    · rfl

end

/-! ## One operation -/

section

variable {h : History} {f : Forest} {op : Operation} {e s : Nat} {name : String} {v : Value}

/-- An operation that writes nothing is recorded by the same scopes. -/
theorem Records.idle (hf : Records h f) {f' : Forest}
    (hparents : f'.nodes.map Node.parent? = History.parents (op :: h))
    (hscope : ∀ s, f'.scope s = f.scope s)
    (hno : ∀ s name w, ¬ Writes h op s name w) : Records (op :: h) f' where
  parents := hparents
  bindings {s name v} := by
    rw [hscope, hf.bindings, latest_cons_iff]
    exact ⟨fun hl => .inr ⟨hno s name, hl⟩, fun hl => (hl.resolve_left (hno s name v)).2⟩

/-- An operation that writes one binding is recorded by the scopes with that binding written. -/
theorem Records.write (hf : Records h f) (hs : s < h.parents.length)
    (hparents : History.parents (op :: h) = h.parents)
    (hwrites : ∀ i other w, Writes h op i other w ↔ i = s ∧ other = name ∧ w = v) :
    Records (op :: h) (f.define s name v) where
  parents := by rw [parents_define, hf.parents, hparents]
  bindings {i other w} := by
    have hrebinds := rebinds_define (hf.length_eq ▸ hs) name v
    rw [latest_cons_iff, hwrites]
    by_cases hi : i = s ∧ other = name
    · obtain ⟨rfl, rfl⟩ := hi
      rw [hrebinds.written, Option.some_inj]
      constructor
      · rintro rfl
        exact .inl ⟨rfl, rfl, rfl⟩
      · rintro (⟨-, -, rfl⟩ | ⟨hno, -⟩)
        · rfl
        · exact absurd ((hwrites _ _ _).mpr ⟨rfl, rfl, rfl⟩) (hno v)
    · rw [hrebinds.elsewhere hi, hf.bindings]
      constructor
      · intro hl
        exact .inr ⟨fun w hw => hi ⟨((hwrites _ _ _).mp hw).1, ((hwrites _ _ _).mp hw).2.1⟩, hl⟩
      · rintro (⟨hs, hname, -⟩ | ⟨-, hl⟩)
        · exact absurd ⟨hs, hname⟩ hi
        · exact hl

theorem Records.perform_assign_of_owner (hf : Records h f) (hh : Valid h)
    (howner : Owner h e name s) (v : Value) :
    f.perform (.assign e name v) = (.ok .done, f.define s name v) := by
  simp only [perform, assign?, (hf.owner?_iff hh).mpr howner, Option.map_some]

theorem Records.perform_assign_of_unowned (hf : Records h f) (hh : Valid h)
    (hno : ¬ ∃ s, Owner h e name s) (v : Value) :
    f.perform (.assign e name v) = (.error (.undefinedVariable name), f) := by
  simp only [perform, assign?, (hf.owner?_eq_none_iff hh).mpr hno, Option.map_none]

theorem perform_get (f : Forest) (e : Nat) (name : String) : f.perform (.get e name)
    = match f.get? e name with
      | some v => (.ok (.value v), f)
      | none => (.error (.undefinedVariable name), f) := rfl

theorem perform_get_state (f : Forest) (e : Nat) (name : String) :
    (f.perform (.get e name)).2 = f := by
  rw [perform_get]
  cases f.get? e name <;> rfl

theorem perform_error_state (f : Forest) {fault : RunFault}
    (hfault : (f.perform op).1 = .error fault) : (f.perform op).2 = f := by
  cases op with
  | create parent? => cases hfault
  | define s name v => cases hfault
  | assign e name v =>
      simp only [Forest.perform] at hfault ⊢
      cases ha : f.assign? e name v with
      | some f' =>
          rw [ha] at hfault
          cases hfault
      | none => rfl
  | get e name => exact perform_get_state f e name

theorem Records.get?_eq_some_iff (hf : Records h f) (hh : Valid h) :
    f.get? e name = some v ↔ ∃ s, Owner h e name s ∧ Latest h s name v := by
  rw [get?, Option.bind_eq_some_iff]
  exact exists_congr fun s => and_congr (hf.owner?_iff hh) hf.bindings

theorem Records.get?_eq_none_iff (hf : Records h f) (hh : Valid h) :
    f.get? e name = none ↔ ¬ ∃ s, Owner h e name s := by
  rw [Option.eq_none_iff_forall_ne_some]
  constructor
  · rintro hnone ⟨s, howner⟩
    obtain ⟨v, hlatest⟩ := exists_latest_iff.mpr howner.choose_spec.choose_spec.2.1
    exact hnone v ((hf.get?_eq_some_iff hh).mpr ⟨s, howner, hlatest⟩)
  · intro hno v hsome
    obtain ⟨s, howner, -⟩ := (hf.get?_eq_some_iff hh).mp hsome
    exact hno ⟨s, howner⟩

theorem Records.get_ok_iff (hf : Records h f) (hh : Valid h) :
    (f.perform (.get e name)).1 = .ok (.value v) ↔ ∃ s, Owner h e name s ∧ Latest h s name v := by
  rw [← hf.get?_eq_some_iff hh, perform_get]
  cases f.get? e name with
  | some w => exact ⟨fun heq => by cases heq; rfl, fun heq => by cases heq; rfl⟩
  | none => exact ⟨nofun, nofun⟩

theorem Records.get_error_iff (hf : Records h f) (hh : Valid h) :
    (f.perform (.get e name)).1 = .error (.undefinedVariable name) ↔ ¬ ∃ s, Owner h e name s := by
  rw [← hf.get?_eq_none_iff hh, perform_get]
  cases f.get? e name with
  | some w => exact ⟨nofun, nofun⟩
  | none => exact ⟨fun _ => rfl, fun _ => rfl⟩

theorem Records.perform (hf : Records h f) (hh : Valid (op :: h)) :
    Records (op :: h) (f.perform op).2 := by
  cases hh with
  | cons hop hh =>
      cases op with
      | create parent? =>
          refine hf.idle ?_ (scope_add f parent?) nofun
          show (f.nodes ++ [_]).map Node.parent? = h.parents ++ [parent?]
          rw [List.map_append, hf.parents]
          rfl
      | define s name v =>
          refine hf.write (hop s rfl) rfl fun i other w => ⟨?_, ?_⟩
          · rintro ⟨⟩
            exact ⟨rfl, rfl, rfl⟩
          · rintro ⟨rfl, rfl, rfl⟩
            exact .define
      | assign e name v =>
          by_cases howned : ∃ s, Owner h e name s
          · obtain ⟨s, howner⟩ := howned
            rw [hf.perform_assign_of_owner hh howner]
            refine hf.write howner.lt_length rfl fun i other w => ⟨?_, ?_⟩
            · rintro (_ | howner')
              have hsome := (hf.owner?_iff hh).mpr howner
              rw [(hf.owner?_iff hh).mpr howner'] at hsome
              exact ⟨Option.some.inj hsome, rfl, rfl⟩
            · rintro ⟨rfl, rfl, rfl⟩
              exact .assign howner
          · rw [hf.perform_assign_of_unowned hh howned]
            refine hf.idle hf.parents (fun _ => rfl) ?_
            rintro s other w (_ | howner)
            exact howned ⟨s, howner⟩
      | get e name =>
          rw [perform_get_state]
          exact hf.idle hf.parents (fun _ => rfl) nofun

end

theorem records_after {h : History} (hh : Valid h) : Records h h.after := by
  induction h with
  | nil =>
      refine ⟨rfl, fun {s name v} => ?_⟩
      constructor
      · exact nofun
      · exact nofun
  | cons op h ih =>
      cases hh with
      | cons hop hh => exact (ih hh).perform (.cons hop hh)

/-! ## The scoped store -/

/-- Scopes are a store whose answers are those of its history.  After any operations on scopes
created before: the owner of a name seen from a scope is the first scope outward in which the name
was defined; reading a name gives the value last written to it in its owner, and fails with the name
exactly when it has no owner, and so does an assignment; an operation that reads or fails changes
nothing; a definition writes one binding of its own scope, and an assignment one of the owner, a
binding that was there before. -/
theorem scoped_store {h : History} (hh : Valid h) :
    let f := h.after
    (∀ e name s, f.owner? e name = some s ↔ Owner h e name s) ∧
    (∀ e name v, (f.perform (.get e name)).1 = .ok (.value v) ↔
      ∃ s, Owner h e name s ∧ Latest h s name v) ∧
    (∀ e name, (f.perform (.get e name)).1 = .error (.undefinedVariable name) ↔
      ¬ ∃ s, Owner h e name s) ∧
    (∀ e name v, (f.perform (.assign e name v)).1 = .error (.undefinedVariable name) ↔
      ¬ ∃ s, Owner h e name s) ∧
    (∀ e name, (f.perform (.get e name)).2 = f) ∧
    (∀ op fault, (f.perform op).1 = .error fault → (f.perform op).2 = f) ∧
    (∀ s name v, s < h.parents.length → (f.perform (.define s name v)).1 = .ok .done ∧
      Rebinds f (f.perform (.define s name v)).2 s name v) ∧
    (∀ e name v s, Owner h e name s → (f.perform (.assign e name v)).1 = .ok .done ∧
      Rebinds f (f.perform (.assign e name v)).2 s name v ∧ (f.scope s).get? name ≠ none) := by
  intro f
  have hf : Records h f := records_after hh
  refine ⟨fun e name s => hf.owner?_iff hh, fun e name v => hf.get_ok_iff hh,
    fun e name => hf.get_error_iff hh, fun e name v => ?_, perform_get_state f,
    fun op fault hfault => perform_error_state f hfault, fun s name v hs => ⟨rfl, ?_⟩,
    fun e name v s howner => ?_⟩
  · by_cases howned : ∃ s, Owner h e name s
    · obtain ⟨s, howner⟩ := howned
      rw [hf.perform_assign_of_owner hh howner]
      exact ⟨nofun, fun hno => absurd ⟨s, howner⟩ hno⟩
    · rw [hf.perform_assign_of_unowned hh howned]
      exact ⟨fun _ => howned, fun _ => rfl⟩
  · exact rebinds_define (hf.length_eq ▸ hs) name v
  · rw [hf.perform_assign_of_owner hh howner]
    refine ⟨rfl, rebinds_define (hf.length_eq ▸ howner.lt_length) name v, ?_⟩
    obtain ⟨_, _, _, hdefined, _⟩ := howner
    exact Option.isSome_iff_ne_none.mp (hf.isSome_iff.mpr hdefined)

/-- Two scopes in one: what is assigned through the first is read through the second, until the
second has a name of its own. -/
theorem scoped_store_siblings :
    let shared : History := [.assign 1 "x" (.boolean true), .create (some 0), .create (some 0),
      .define 0 "x" .nil, .create none]
    let own : History := .define 2 "x" (.string "own") :: shared
    (shared.after.perform (.get 2 "x")).1 = .ok (.value (.boolean true)) ∧
      own.after.owner? 2 "x" = some 2 ∧ own.after.owner? 1 "x" = some 0 := by
  intro shared own
  have hshared : Valid shared := by
    refine .cons ?_ (.cons ?_ (.cons ?_ (.cons ?_ (.cons ?_ .nil)))) <;>
      simp [mentioned?, History.parents]
  have hown : Valid own := .cons (by simp [mentioned?, History.parents, shared]) hshared
  have hbefore : Owner [.create (some 0), .create (some 0), .define 0 "x" .nil, .create none] 1 "x"
      0 := by
    refine ⟨[1], [], .step rfl (.root rfl), ⟨.nil, by simp⟩, ?_⟩
    simp [Defined]
  have howner : Owner shared 2 "x" 0 := by
    refine ⟨[2], [], .step rfl (.root rfl), ⟨.nil, by simp [shared]⟩, ?_⟩
    simp [Defined, shared]
  refine ⟨((scoped_store hshared).2.1 2 "x" _).mpr ⟨0, howner, .write (.assign hbefore)⟩, ?_, ?_⟩
  · refine ((scoped_store hown).1 2 "x" 2).mpr ⟨[], [0], .step rfl (.root rfl), ?_, nofun⟩
    exact ⟨_, List.mem_cons_self⟩
  · refine ((scoped_store hown).1 1 "x" 0).mpr ⟨[1], [], .step rfl (.root rfl), ?_, ?_⟩
    · exact ⟨.nil, by simp [own, shared]⟩
    · simp [Defined, own, shared]

end History

end RoxLang.Forest
