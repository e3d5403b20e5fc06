/-
# `RoxLang.Scope.Forest` — scopes that share what encloses them

Where several scopes are open at once, two of them may lie in the same third one, and a write
through either is seen by both.  The forest numbers its scopes in the order in which they were
opened; each has at most one enclosing scope, which is older.  A scope's chain is the scope and
everything around it, innermost first, and all operations through a scope are those of its chain.
-/
import RoxLang.Run.Fault
import RoxLang.Scope.Basic
import RoxLang.Text.Layout

namespace RoxLang

/-- A scope and the number of the scope around it. -/
structure Forest.Node where
  scope : Scope
  parent? : Option Nat
deriving DecidableEq, Inhabited

/-- Numbered scopes. -/
structure Forest where
  nodes : List Forest.Node
deriving DecidableEq, Inhabited

namespace Forest

def empty : Forest := ⟨[]⟩

/-- Open a scope; its number is how many there were before. -/
def add (f : Forest) (parent? : Option Nat) : Forest × Nat :=
  (⟨f.nodes ++ [⟨Scope.empty, parent?⟩]⟩, f.nodes.length)

/-- The way outward from a scope, in at most so many steps.  A step leads to an older scope, so
there are no more steps than scopes. -/
def outward (f : Forest) : Nat → Nat → List Nat
  | 0, _ => []
  | n + 1, id => match f.nodes[id]? with
    | none => []
    | some node => id :: match node.parent? with
      | some parent => if parent < id then outward f n parent else []
      | none => []

/-- The numbers of a scope and of those around it, innermost first. -/
def path (f : Forest) (id : Nat) : List Nat := f.outward f.nodes.length id

/-- The scope with the given number. -/
def scope (f : Forest) (id : Nat) : Scope := (f.nodes[id]?.map Node.scope).getD Scope.empty

/-- The scopes in sight from a scope. -/
def chain (f : Forest) (id : Nat) : Chain := (f.path id).map f.scope

/-- The forest with one scope changed. -/
def modify (f : Forest) (id : Nat) (change : Scope → Scope) : Forest :=
  ⟨f.nodes.modify id fun node => { node with scope := change node.scope }⟩

def define (f : Forest) (id : Nat) (name : String) (value : Value) : Forest :=
  f.modify id (·.define name value)

/-- The first scope on the way outward that binds a name. -/
def owner? (f : Forest) (id : Nat) (name : String) : Option Nat :=
  (f.path id).find? fun i => ((f.scope i).get? name).isSome

def get? (f : Forest) (id : Nat) (name : String) : Option Value :=
  (f.owner? id name).bind fun owner => (f.scope owner).get? name

/-- Write a name where it is bound. -/
def assign? (f : Forest) (id : Nat) (name : String) (value : Value) : Option Forest :=
  (f.owner? id name).map fun owner => f.define owner name value

/-- How many scopes lie around a scope. -/
def depth (f : Forest) (id : Nat) : Nat := (f.chain id).depth

/-- A scope in one line: how deep it lies and the names it binds, sorted. -/
def description (f : Forest) (id : Nat) : String :=
  let names := ", ".intercalate ((f.scope id).sorted.map fun (name, _) => Text.quoted name)
  s!"<Environment depth={f.depth id} names=[{names}]>"

/-! ## Operations, one after the other -/

/-- Something done with scopes that have been opened before. -/
inductive Operation where
  | create (parent? : Option Nat)
  | define (scope : Nat) (name : String) (value : Value)
  | assign (scope : Nat) (name : String) (value : Value)
  | get (scope : Nat) (name : String)
deriving DecidableEq, Inhabited

/-- What an operation gives. -/
inductive Answer where
  | created (scope : Nat)
  | done
  | value (v : Value)
deriving DecidableEq, Inhabited

/-- Do one operation. -/
def perform (f : Forest) : Operation → Except RunFault Answer × Forest
  | .create parent? =>
      let (f, scope) := f.add parent?
      (.ok (.created scope), f)
  | .define scope name value => (.ok .done, f.define scope name value)
  | .assign scope name value => match f.assign? scope name value with
    | some f => (.ok .done, f)
    | none => (.error (.undefinedVariable name), f)
  | .get scope name => match f.get? scope name with
    | some v => (.ok (.value v), f)
    | none => (.error (.undefinedVariable name), f)

end Forest

end RoxLang
