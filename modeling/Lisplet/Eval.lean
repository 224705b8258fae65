import Lisplet.Eval.Form

/-!
Evaluation. A datum evaluates to itself, except that a name is looked up, a
quote loses one level, and a list that is not empty is a call. The head of a
call is evaluated and has to be callable; what becomes of the arguments is up to
what is called. Calls may nest `maxCalls` deep. The evaluator recurses on room
for further calls, so every evaluation ends; with room for `maxCalls` it is the
count of calls alone that sets the limit.
-/
namespace Lisplet

/-- A form of the host: it gets the evaluator, the whole call and the unevaluated arguments. -/
abbrev HostForm (ε : Type := Scopes) := Evaluator ε → Datum → List Datum → Run ε Datum

abbrev Hosts (ε : Type := Scopes) := List (HostForm ε)

namespace Eval

variable {ε α : Type} [Bindings ε]

/-- Evaluate the arguments from left to right and bind each at once, so that an argument sees
the parameters before it. -/
def bindAll (eval : Evaluator ε) : List String → List Datum → Run ε Unit
  | x :: xs, a :: as => do
    Eval.insert x (← eval a)
    bindAll eval xs as
  | _, _ => return ()

def wrongArity (form : Datum) (args : List Datum) (expected : Nat) : Run ε α :=
  fail (.wrongArity args.length expected) form.headPlace

/-- Call a built-in form. The number of arguments is checked before anything else. A key that
no host form has answers the call itself. -/
def callBuiltin (hosts : Hosts ε) (eval : Evaluator ε) (form : Datum) (b : Builtin)
    (args : List Datum) : Run ε Datum :=
  match b.op, args with
  | .unary op, [a] => Form.unary eval form op a
  | .binary op, [a, c] => Form.binary eval form op a c
  | .host key arity, _ =>
    if args.length = arity then (hosts[key]?.getD fun _ call _ => return call) eval form args
    else wrongArity form args arity
  | op, _ => wrongArity form args op.arity

/-- Call a function. Its arguments are evaluated inside the scope that its body runs in. -/
def callFunc (eval : Evaluator ε) (form : Datum) (params : List String) (body : Datum)
    (args : List Datum) : Run ε Datum :=
  if args.length = params.length then
    inScope do
      bindAll eval params args
      eval body
  else wrongArity form args params.length

/-- Call a value with a call form and its arguments; nothing if the value is not callable. -/
def call? (hosts : Hosts ε) (eval : Evaluator ε) (callee form : Datum) (args : List Datum) :
    Option (Run ε Datum) :=
  match callee with
  | .builtin _ b => some (callBuiltin hosts eval form b args)
  | .func _ _ params body => some (callFunc eval form params body args)
  | _ => none

/-- Evaluate an expression with room for `room` more nested calls. -/
def evaluate (hosts : Hosts ε) : Nat → Datum → Run ε Datum
  | _, .ident place x => do
    match ← lookup? x with
    | some value => return value
    | none => fail (.unbound x) place
  | _, .quote _ inner => return inner
  | 0, .list place (_ :: _) => fail .tooDeep place
  | room + 1, .list place (head :: args) => inCall place do
    let callee ← evaluate hosts room head
    match call? hosts (evaluate hosts room) callee (.list place (head :: args)) args with
    | some result => result
    | none => fail (.notCallable callee) head.place
  | _, value => return value

def nested (place : Place) (run : Nat → Run ε α) : Nat → Run ε α
  | 0 => fail .tooDeep place
  | room + 1 => inCall place (run room)

end Eval
end Lisplet
