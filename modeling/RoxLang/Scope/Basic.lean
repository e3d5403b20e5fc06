/-
# `RoxLang.Scope.Basic` — scopes, and chains of scopes

A scope binds names to values, each name once.  A chain is the scopes in sight, innermost first.
A name belongs to the first scope of the chain that binds it: there it is read, and there an
assignment writes it.  A declaration always writes the innermost scope, and so may shadow a
binding further out.
-/
import RoxLang.Value

namespace RoxLang

/-- The bindings of a scope, in the order in which their names were first bound. -/
structure Scope where
  bindings : List (String × Value)
deriving DecidableEq, Inhabited

namespace Scope

def empty : Scope := ⟨[]⟩

def names (s : Scope) : List String := s.bindings.map Prod.fst

def get? (s : Scope) (name : String) : Option Value := s.bindings.lookup name

/-- Write a name: in place where it is bound, at the end where it is not. -/
def write (name : String) (value : Value) : List (String × Value) → List (String × Value)
  | [] => [(name, value)]
  | (n, v) :: rest => if n = name then (name, value) :: rest else (n, v) :: write name value rest

/-- The scope with a name bound to a value, whether it was bound before or not. -/
def define (s : Scope) (name : String) (value : Value) : Scope :=
  ⟨write name value s.bindings⟩

/-- The scope with the given definitions, made in order. -/
def ofList (bindings : List (String × Value)) : Scope :=
  bindings.foldl (fun s (name, value) => s.define name value) empty

/-- The bindings sorted by name. -/
def sorted (s : Scope) : List (String × Value) :=
  s.bindings.mergeSort fun a b => decide (a.1 ≤ b.1)

/-! ## What a scope binds after a definition -/

theorem lookup_write_same (name : String) (value : Value) :
    ∀ bs : List (String × Value), (write name value bs).lookup name = some value
  | [] => by simp [write]
  | (n, v) :: bs => by
      by_cases h : n = name
      · simp [write, h]
      · have : (name == n) = false := by simpa using Ne.symm h
        simp [write, h, List.lookup_cons, this, lookup_write_same name value bs]

theorem lookup_write_other {name other : String} (value : Value) (h : other ≠ name) :
    ∀ bs : List (String × Value), (write name value bs).lookup other = bs.lookup other
  | [] => by
      have : (other == name) = false := by simpa using h
      simp [write, List.lookup_cons, this]
  | (n, v) :: bs => by
      by_cases hn : n = name
      · subst hn
        have : (other == n) = false := by simpa using h
        simp [write, List.lookup_cons, this]
      · simp [write, hn, List.lookup_cons, lookup_write_other value h bs]

/-- A definition binds its own name and leaves every other name as it was. -/
theorem get?_define (s : Scope) (name other : String) (value : Value) :
    (s.define name value).get? other = if other = name then some value else s.get? other := by
  by_cases h : other = name
  · subst h; simp [define, get?, lookup_write_same]
  · simp [define, get?, h, lookup_write_other value h]

end Scope

/-- The scopes in sight, innermost first. -/
abbrev Chain := List Scope

namespace Chain

/-- The value of a name: that of the first scope that binds it. -/
def get? (name : String) : Chain → Option Value
  | [] => none
  | s :: outer => match s.get? name with
    | some v => some v
    | none => get? name outer

/-- The chain after an assignment to the first scope that binds the name, if one does. -/
def assign? (name : String) (value : Value) : Chain → Option Chain
  | [] => none
  | s :: outer => match s.get? name with
    | some _ => some (s.define name value :: outer)
    | none => (assign? name value outer).map (s :: ·)

/-- The chain after a declaration in its innermost scope. -/
def define (name : String) (value : Value) : Chain → Chain
  | [] => []
  | s :: outer => s.define name value :: outer

/-- How many scopes enclose the innermost one. -/
def depth (c : Chain) : Nat := c.length - 1

/-- A name can be assigned exactly when it can be read. -/
theorem assign?_isSome (name : String) (value : Value) :
    ∀ c : Chain, (assign? name value c).isSome = (get? name c).isSome
  | [] => rfl
  | s :: outer => by
      simp only [assign?, get?]
      cases s.get? name with
      | some _ => rfl
      | none => simpa using assign?_isSome name value outer

end Chain

end RoxLang
