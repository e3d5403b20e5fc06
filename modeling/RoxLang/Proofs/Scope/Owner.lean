/-
# `RoxLang.Proofs.Scope.Owner` — the scope that owns a name

The owner of a name is the first scope of a chain that binds it.  A chain with an owner splits into
the scopes inside of it, none of which binds the name, the owner, and the scopes outside of it.
Reading and assigning a name are told by that split, and where there is none they fail.
-/
import RoxLang.Scope.Basic

namespace RoxLang.Chain

/-- No scope of a chain binds the name. -/
def Unbound (name : String) (c : Chain) : Prop := ∀ s ∈ c, s.get? name = none

theorem Unbound.head {name : String} {s : Scope} {c : Chain} (h : Unbound name (s :: c)) :
    s.get? name = none := h s List.mem_cons_self

theorem Unbound.tail {name : String} {s : Scope} {c : Chain} (h : Unbound name (s :: c)) :
    Unbound name c := fun s' hs' => h s' (List.mem_cons_of_mem s hs')

/-- A name has an owner, or nothing binds it. -/
theorem owned_or_unbound (name : String) : ∀ c : Chain,
    (∃ inner owner outer value, c = inner ++ owner :: outer ∧ Unbound name inner ∧
      owner.get? name = some value) ∨ Unbound name c
  | [] => .inr nofun
  | s :: c => by
      cases hs : s.get? name with
      | some value => exact .inl ⟨[], s, c, value, rfl, nofun, hs⟩
      | none =>
          have hcons {scopes : Chain} (h : Unbound name scopes) : Unbound name (s :: scopes) := by
            rintro s' (_ | ⟨_, hs'⟩)
            · exact hs
            · exact h s' hs'
          rcases owned_or_unbound name c with ⟨inner, owner, outer, value, rfl, hi, ho⟩ | h
          · exact .inl ⟨s :: inner, owner, outer, value, rfl, hcons hi, ho⟩
          · exact .inr (hcons h)

theorem get?_of_unbound {name : String} : ∀ {c : Chain}, Unbound name c → get? name c = none
  | [], _ => rfl
  | s :: c, h => by
      simp only [get?, h.head]
      exact get?_of_unbound h.tail

theorem get?_of_owner {name : String} {owner : Scope} {value : Value} (outer : Chain)
    (ho : owner.get? name = some value) : ∀ {inner : Chain}, Unbound name inner →
      get? name (inner ++ owner :: outer) = some value
  | [], _ => by simp only [List.nil_append, get?, ho]
  | s :: inner, h => by
      simp only [List.cons_append, get?, h.head]
      exact get?_of_owner outer ho h.tail

theorem assign?_of_unbound {name : String} (value : Value) :
    ∀ {c : Chain}, Unbound name c → assign? name value c = none
  | [], _ => rfl
  | s :: c, h => by
      simp only [assign?, h.head, assign?_of_unbound value h.tail, Option.map_none]

theorem assign?_of_owner {name : String} {owner : Scope} {before : Value} (value : Value)
    (outer : Chain) (ho : owner.get? name = some before) : ∀ {inner : Chain}, Unbound name inner →
      assign? name value (inner ++ owner :: outer)
        = some (inner ++ owner.define name value :: outer)
  | [], _ => by simp only [List.nil_append, assign?, ho]
  | s :: inner, h => by
      simp only [List.cons_append, assign?, h.head, assign?_of_owner value outer ho h.tail,
        Option.map_some]

/-! ## Scopes in front that do not bind the name -/

theorem get?_append_of_unbound {name : String} (base : Chain) : ∀ {inner : Chain},
    Unbound name inner → get? name (inner ++ base) = get? name base
  | [], _ => rfl
  | s :: inner, h => by
      simp only [List.cons_append, get?, h.head]
      exact get?_append_of_unbound base h.tail

theorem assign?_append_of_unbound {name : String} (value : Value) (base : Chain) :
    ∀ {inner : Chain}, Unbound name inner →
      assign? name value (inner ++ base) = (assign? name value base).map (inner ++ ·)
  | [], _ => by simp only [List.nil_append, Option.map_id']
  | s :: inner, h => by
      simp only [List.cons_append, assign?, h.head, assign?_append_of_unbound value base h.tail,
        Option.map_map]
      rfl

/-! ## What is in sight after a write -/

/-- A declaration changes what is in sight under its own name alone. -/
theorem get?_define_cons (s : Scope) (outer : Chain) (name other : String) (value : Value) :
    get? other (s.define name value :: outer)
      = if other = name then some value else get? other (s :: outer) := by
  simp only [get?, Scope.get?_define]
  by_cases h : other = name
  · simp only [h, if_true]
  · simp only [h, if_false]

/-- So does an assignment, whichever scope it writes. -/
theorem get?_assign? {name : String} {value : Value} (other : String) :
    ∀ {c after : Chain}, assign? name value c = some after →
      get? other after = if other = name then some value else get? other c
  | [], _, h => nomatch h
  | s :: c, after, h => by
      unfold assign? at h
      cases hs : s.get? name with
      | some before =>
          rw [hs] at h
          obtain rfl := Option.some.inj h
          exact get?_define_cons s c name other value
      | none =>
          rw [hs] at h
          obtain ⟨outer, houter, rfl⟩ := Option.map_eq_some_iff.mp h
          have hrest := get?_assign? other houter
          by_cases hother : other = name
          · subst hother
            simpa only [get?, hs, if_true] using hrest
          · simp only [hother, if_false] at hrest ⊢
            simp only [get?, hrest]

end RoxLang.Chain
