/-
# `RoxLang.Run.Machine` — the state of a run, and its single steps

A machine holds the chain of scopes in sight, what has been printed, and the events noted.  A step
changes a machine and either gives a value or stops the run; what was printed, bound and noted
before a stop stays.
-/
import RoxLang.Run.Event
import RoxLang.Run.Fault
import RoxLang.Scope.Basic

namespace RoxLang

/-- The state of a run. -/
structure Machine where
  scopes : Chain
  printed : Array String
  trace : Array Event
  verbosity : Int
deriving Inhabited

namespace Machine

/-- A machine that has printed and noted nothing. -/
def start (scopes : Chain) (verbosity : Int) : Machine := ⟨scopes, #[], #[], verbosity⟩

/-- Everything printed. -/
def output (m : Machine) : String := String.join m.printed.toList

/-- Everything noted, one event a line. -/
def traceText (m : Machine) : String :=
  String.join (m.trace.toList.map fun e => e.message ++ "\n")

/-- Whether events of a level are noted. -/
def notes (m : Machine) (level : Nat) : Bool := decide ((level : Int) ≤ m.verbosity)

/-- Note an event, if its level is noted. -/
def note (e : Event) (m : Machine) : Machine :=
  if m.notes e.level then { m with trace := m.trace.push e } else m

/-- Open a scope. -/
def enter (m : Machine) : Machine :=
  let opened := { m with scopes := Scope.empty :: m.scopes }
  opened.note (.pushed opened.scopes.depth)

/-- Close the innermost scope. -/
def leave (m : Machine) : Machine :=
  let closed := { m with scopes := m.scopes.tail }
  closed.note (.popped closed.scopes.depth)

end Machine

/-- A step of a run: it changes the machine, and gives a value or stops. -/
abbrev Run (α : Type) : Type := ExceptT RunFault (StateM Machine) α

namespace Run

/-- Stop the run. -/
def stop {α : Type} (f : RunFault) : Run α := throw f

/-- A result that needs no machine. -/
def ofResult {α : Type} : Except RunFault α → Run α
  | .ok a => pure a
  | .error f => throw f

def note (e : Event) : Run Unit := modify (·.note e)

/-- Print a text as a line. -/
def printLine (s : String) : Run Unit :=
  modify fun m => { m with printed := m.printed.push (s ++ "\n") }

/-- The value of a name in sight. -/
def read (name : String) : Run Value := do
  match (← get).scopes.get? name with
  | some v => pure v
  | none => throw (.undefinedVariable name)

/-- Write a name where it is bound. -/
def assign (name : String) (value : Value) : Run Unit := do
  match (← get).scopes.assign? name value with
  | some scopes =>
      modify fun m => { m with scopes := scopes }
      note (.assigned name value)
  | none => throw (.undefinedVariable name)

/-- Bind a name in the innermost scope. -/
def declare (name : String) (value : Value) : Run Unit := do
  modify fun m => { m with scopes := m.scopes.define name value }
  note (.declared name value)

/-- Run in a scope of its own, which is closed again however the run ends. -/
def inScope (body : Run Unit) : Run Unit := ExceptT.mk do
  modify Machine.enter
  let outcome ← body.run
  modify Machine.leave
  return outcome

/-- Run from a machine: how the run ends, and the machine it leaves. -/
def on {α : Type} (r : Run α) (m : Machine) : Except RunFault α × Machine :=
  Id.run (StateT.run (ExceptT.run r) m)

/-! ## What runs do to a machine

A run is known by what it does to each machine, and for each way of building runs one law says
what that is.  Nothing else needs to look inside `Run`. -/

@[simp] theorem on_pure {α : Type} (a : α) (m : Machine) : (pure a : Run α).on m = (.ok a, m) :=
  rfl

@[simp] theorem on_throw {α : Type} (f : RunFault) (m : Machine) :
    (throw f : Run α).on m = (.error f, m) := rfl

@[simp] theorem on_get (m : Machine) : (get : Run Machine).on m = (.ok m, m) := rfl

@[simp] theorem on_modify (f : Machine → Machine) (m : Machine) :
    (modify f : Run Unit).on m = (.ok (), f m) := rfl

/-- A run that goes on goes on from the machine left by what came before, unless that stopped. -/
theorem on_bind {α β : Type} (r : Run α) (k : α → Run β) (m : Machine) :
    (r >>= k).on m = match r.on m with
      | (.ok a, m) => (k a).on m
      | (.error f, m) => (.error f, m) := by
  unfold on ExceptT.run StateT.run Id.run
  simp only [bind, ExceptT.bind, ExceptT.mk, StateT.bind]
  cases r m with
  | mk outcome m' => cases outcome <;> rfl

/-- A scope is closed on whatever machine its body leaves, and the body's end is kept. -/
theorem on_inScope (body : Run Unit) (m : Machine) :
    (inScope body).on m = ((body.on m.enter).1, (body.on m.enter).2.leave) := rfl

end Run

end RoxLang
