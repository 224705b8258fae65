import Lisplet.Datum

/-!
Scopes are stacked, with the top-level scope at the bottom, which is never left.
A name means its innermost binding, and a new binding goes into the innermost
scope. What evaluation needs of them is the interface `Bindings`.
-/
namespace Lisplet

/-- What evaluation needs of the names that are bound. -/
class Bindings (ε : Type) where
  lookup? : ε → String → Option Datum
  insert : ε → String → Datum → ε
  /-- Open a scope. -/
  enter : ε → ε
  /-- What is bound once a scope is closed, from what was before it was opened and what is
  bound at its end. -/
  leave : ε → ε → ε

/-- The bindings of one scope, each name once, in the order in which they were made. -/
structure Scope where
  bindings : List (String × Datum) := []
  deriving Repr

namespace Scope

def get? (name : String) : List (String × Datum) → Option Datum
  | [] => none
  | (k, v) :: rest => if k = name then some v else get? name rest

/-- Replace the value of a name in place, or put a new name last. -/
def put (name : String) (value : Datum) : List (String × Datum) → List (String × Datum)
  | [] => [(name, value)]
  | (k, v) :: rest => if k = name then (k, value) :: rest else (k, v) :: put name value rest

def lookup? (c : Scope) (name : String) : Option Datum := get? name c.bindings

def insert (c : Scope) (name : String) (value : Datum) : Scope := ⟨put name value c.bindings⟩

theorem get?_put_same (name : String) (value : Datum) (bs : List (String × Datum)) :
    get? name (put name value bs) = some value := by
  induction bs with
  | nil => simp [get?, put]
  | cons b bs ih => by_cases h : b.1 = name <;> simp [get?, put, h, ih]

theorem get?_put_other {name x : String} (h : x ≠ name) (value : Datum)
    (bs : List (String × Datum)) : get? x (put name value bs) = get? x bs := by
  induction bs with
  | nil => simp [get?, put, h.symm]
  | cons b bs ih =>
    by_cases hk : b.1 = name
    · simp [get?, put, hk, h.symm]
    · simp [get?, put, hk, ih]

theorem lookup?_insert_same (c : Scope) (name : String) (value : Datum) :
    (c.insert name value).lookup? name = some value := get?_put_same ..

theorem lookup?_insert_other (c : Scope) {name x : String} (h : x ≠ name) (value : Datum) :
    (c.insert name value).lookup? x = c.lookup? x := get?_put_other h ..

end Scope

structure Scopes where
  top : Scope := {}
  /-- The scopes above the top-level one, innermost first. -/
  inner : List Scope := []
  deriving Repr

namespace Scopes

def all (s : Scopes) : List Scope := s.inner ++ [s.top]

def depth (s : Scopes) : Nat := s.inner.length + 1

def lookup? (s : Scopes) (name : String) : Option Datum :=
  s.all.findSome? fun f => f.lookup? name

/-- Bind a name in the innermost scope, in place of a binding it has there. -/
def insert (s : Scopes) (name : String) (value : Datum) : Scopes :=
  match s.inner with
  | [] => { s with top := s.top.insert name value }
  | f :: rest => { s with inner := f.insert name value :: rest }

/-- Bind a name in the top-level scope, whatever scopes are open. -/
def register (s : Scopes) (name : String) (value : Datum) : Scopes :=
  { s with top := s.top.insert name value }

def enter (s : Scopes) : Scopes := { s with inner := {} :: s.inner }

/-- The innermost scope and the scopes around it, unless it is the top-level one. -/
def leave? (s : Scopes) : Option (Scope × Scopes) :=
  match s.inner with
  | [] => none
  | f :: rest => some (f, { s with inner := rest })

def leave (s : Scopes) : Scopes :=
  match s.leave? with
  | none => s
  | some (_, s') => s'

instance : Bindings Scopes where
  lookup? := lookup?
  insert := insert
  enter := enter
  leave _ s := s.leave

@[simp] theorem leave_enter (s : Scopes) : s.enter.leave = s := rfl
@[simp] theorem depth_enter (s : Scopes) : s.enter.depth = s.depth + 1 := rfl
@[simp] theorem depth_insert (s : Scopes) (name : String) (value : Datum) :
    (s.insert name value).depth = s.depth := by
  obtain ⟨top, inner⟩ := s
  cases inner <;> rfl

/-- After a binding is made it is the one that is found. -/
theorem lookup?_insert_same (s : Scopes) (name : String) (value : Datum) :
    (s.insert name value).lookup? name = some value := by
  obtain ⟨top, inner⟩ := s
  cases inner <;> simp [lookup?, insert, all, Scope.lookup?_insert_same]

/-- Binding a name makes no difference to any other. -/
theorem lookup?_insert_other (s : Scopes) {name x : String} (h : x ≠ name) (value : Datum) :
    (s.insert name value).lookup? x = s.lookup? x := by
  obtain ⟨top, inner⟩ := s
  cases inner <;>
    simp [lookup?, insert, all, Scope.lookup?_insert_other _ h, List.findSome?_cons]

def withBuiltins (forms : List Builtin) : Scopes :=
  forms.foldl (fun s b => s.register b.name (.builtin default b)) {}

end Scopes
end Lisplet
