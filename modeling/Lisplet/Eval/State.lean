import Lisplet.Fault
import Lisplet.Scopes
import Lisplet.Sink

/-!
Evaluation as a computation on bindings, a count of calls and printed text. It
ends in a value or an error, and in both cases the state is what it has left.
The bindings of a session are stacked scopes.
-/
namespace Lisplet

/-- How many calls may be in progress at once. -/
def maxCalls : Nat := 256

structure State (ε : Type := Scopes) where
  scopes : ε
  /-- How many calls are in progress. -/
  calls : Nat := 0
  /-- Where `print` writes. -/
  out : Sink := {}
  deriving Repr

abbrev Run (ε : Type) := ExceptT EvalError (StateM (State ε))

abbrev Eval := Run Scopes

namespace Eval

variable {ε α : Type} [Bindings ε]

def fail (fault : EvalFault) (place : Place) : Run ε α := throw ⟨fault, place⟩

def lookup? (name : String) : Run ε (Option Datum) :=
  return Bindings.lookup? (← get).scopes name

def insert (name : String) (value : Datum) : Run ε Unit :=
  modify fun s => { s with scopes := Bindings.insert s.scopes name value }

/-- Bind a name that no scope binds yet, and tell whether that was so. -/
def insertNew (name : String) (value : Datum) : Run ε Bool := do
  match ← lookup? name with
  | some _ => return false
  | none =>
    insert name value
    return true

/-- Run in a new innermost scope, which is left again however the run ends. -/
def inScope (x : Run ε α) : Run ε α := fun s =>
  let (result, s') := x { s with scopes := Bindings.enter s.scopes }
  (result, { s' with scopes := Bindings.leave s.scopes s'.scopes })

/-- Run as one more call in progress, unless as many as may be are in progress already. The call
is over however the run ends. -/
def inCall (place : Place) (x : Run ε α) : Run ε α := fun s =>
  if s.calls < maxCalls then
    let (result, s') := x { s with calls := s.calls + 1 }
    (result, { s' with calls := s'.calls - 1 })
  else (.error ⟨.tooDeep, place⟩, s)

/-- Print a line. A sink that refuses it makes no difference to the program. -/
def print (line : String) : Run ε Unit :=
  modify fun s => { s with out := s.out.tryLine line }

def depth : Eval Nat := return (← get).scopes.depth

section Runs

variable {β : Type} (s : State ε)

omit [Bindings ε]

@[simp] theorem pure_run (a : α) : (pure a : Run ε α) s = (.ok a, s) := rfl

/-- An error ends a sequence of runs, and the state stays as it was then. -/
theorem bind_run (x : Run ε α) (f : α → Run ε β) :
    (x >>= f) s =
      match x s with
      | (.ok a, s') => f a s'
      | (.error e, s') => (.error e, s') := by
  change (match x s with | (r, s') => ExceptT.bindCont f r s') = _
  rcases x s with ⟨r, s'⟩
  cases r <;> rfl

@[simp] theorem fail_run (fault : EvalFault) (place : Place) :
    (fail fault place : Run ε α) s = (.error ⟨fault, place⟩, s) := rfl
@[simp] theorem print_run (line : String) :
    (print line : Run ε Unit) s = (.ok (), { s with out := s.out.tryLine line }) := rfl

theorem inCall_run (place : Place) (x : Run ε α) :
    inCall place x s =
      if s.calls < maxCalls then
        let p := x { s with calls := s.calls + 1 }
        (p.1, { p.2 with calls := p.2.calls - 1 })
      else (.error ⟨.tooDeep, place⟩, s) := rfl

variable [Bindings ε]

@[simp] theorem lookup?_run (name : String) :
    lookup? name s = (.ok (Bindings.lookup? s.scopes name), s) := rfl
@[simp] theorem insert_run (name : String) (value : Datum) :
    insert name value s = (.ok (), { s with scopes := Bindings.insert s.scopes name value }) := rfl

theorem insertNew_run (name : String) (value : Datum) :
    insertNew name value s =
      if (Bindings.lookup? s.scopes name).isSome then (.ok false, s)
      else (.ok true, { s with scopes := Bindings.insert s.scopes name value }) := by
  rw [insertNew, bind_run, lookup?_run]
  cases Bindings.lookup? s.scopes name <;> rfl

theorem inScope_run (x : Run ε α) :
    inScope x s =
      let p := x { s with scopes := Bindings.enter s.scopes }
      (p.1, { p.2 with scopes := Bindings.leave s.scopes p.2.scopes }) := rfl

end Runs

end Eval
end Lisplet
