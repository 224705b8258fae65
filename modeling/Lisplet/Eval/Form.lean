import Lisplet.Datum.Same
import Lisplet.Eval.State
import Lisplet.Word

/-!
What the standard forms do. A form gets the whole call, for its place, and the
arguments unevaluated, and a way to evaluate an expression. Most forms evaluate
every argument from left to right; `set`, `let` and `lambda` take some of them
as names.
-/
namespace Lisplet

/-- How an expression is evaluated as part of another one. -/
abbrev Evaluator (ε : Type := Scopes) := Datum → Run ε Datum

namespace Form

variable {ε α : Type} [Bindings ε]

def mismatch (expected : Atom) (got : Datum) (place : Place) : Run ε α :=
  Eval.fail (.typeMismatch (.atom expected) got.typeOf) place

/-- The integer that an argument evaluates to. A value of another type is reported where the
argument is written and not where its value comes from. -/
def int (eval : Evaluator ε) (arg : Datum) : Run ε Int64 := do
  match ← eval arg with
  | .int _ n => return n
  | value => mismatch .int value arg.place

def bool (eval : Evaluator ε) (arg : Datum) : Run ε Bool := do
  match ← eval arg with
  | .bool _ b => return b
  | value => mismatch .bool value arg.place

def name (arg : Datum) : Run ε String :=
  match arg.ident? with
  | some x => return x
  | none => mismatch .sym arg arg.place

def unary (eval : Evaluator ε) (form : Datum) (op : UnaryOp) (arg : Datum) : Run ε Datum :=
  match op with
  | .not => return .bool form.place (!(← bool eval arg))
  | .print => do
    match ← eval arg with
    | .str _ text => Eval.print text
    | value => Eval.print (toString value)
    return .nil form.place
  | .typeof => return .type form.place (← eval arg).typeOf

/-- Sum, difference and product wrap around. A zero divisor is reported where it is written,
after both operands have been evaluated. -/
def arith (op : ArithOp) (a b : Int64) (divisor : Place) : Run ε Int64 :=
  match op with
  | .add => return a + b
  | .sub => return a - b
  | .mul => return a * b
  | .div => if b = 0 then Eval.fail .divisionByZero divisor else return Word.floorDiv a b
  | .mod => if b = 0 then Eval.fail .divisionByZero divisor else return Word.floorMod a b

def compare (op : CompareOp) (a b : Int64) : Bool :=
  match op with
  | .lt => a < b
  | .gt => a > b
  | .le => a ≤ b
  | .ge => a ≥ b

/-- An anonymous function takes a name; any other value is left as it is. -/
def named (name : String) : Datum → Datum
  | .func place "" params body => .func place name params body
  | value => value

/-- Bind a name that no scope binds yet. That is looked at after the value has been computed. -/
def set (eval : Evaluator ε) (form target arg : Datum) : Run ε Datum := do
  let x ← name target
  let value ← eval arg
  if ← Eval.insertNew x (named x value) then return named x value
  else Eval.fail (.alreadyBound x) form.place

/-- Evaluate a body in a scope of its own. The value of the binding belongs to the outer scope. -/
def bind (eval : Evaluator ε) (form binding body : Datum) : Run ε Datum :=
  match binding.list? with
  | some [] => Eval.inScope (eval body)
  | some [target, arg] => do
    let x ← name target
    let value ← eval arg
    Eval.inScope do
      Eval.insert x value
      eval body
  | _ => Eval.fail (.badForm "let") form.place

def lambda (form params body : Datum) : Run ε Datum :=
  match params.list? with
  | some ps => return .func form.place "" (← ps.mapM name) body
  | none => Eval.fail (.badForm "lambda") form.place

def binary (eval : Evaluator ε) (form : Datum) (op : BinaryOp) (a b : Datum) : Run ε Datum :=
  match op with
  | .arith op => do
    let x ← int eval a
    let y ← int eval b
    return .int form.place (← arith op x y b.place)
  | .compare op => do
    let x ← int eval a
    let y ← int eval b
    return .bool form.place (compare op x y)
  | .eq => do
    let x ← eval a
    let y ← eval b
    return .bool form.place (x == y)
  | .ne => do
    let x ← eval a
    let y ← eval b
    return .bool form.place (x != y)
  | .set => set eval form a b
  | .bind => bind eval form a b
  | .lambda => lambda form a b

end Form
end Lisplet
