/-!
Built-in forms: a name and an operation. The operation fixes how many arguments
the form takes. Besides the standard operations there are those of the host,
which are known by a key.
-/
namespace Lisplet

inductive UnaryOp where
  | not | print | typeof
  deriving DecidableEq, Repr

inductive ArithOp where
  | add | sub | mul | div | mod
  deriving DecidableEq, Repr

inductive CompareOp where
  | lt | gt | le | ge
  deriving DecidableEq, Repr

inductive BinaryOp where
  | arith (op : ArithOp)
  | compare (op : CompareOp)
  | eq
  | ne
  /-- Bind a name in the innermost scope. -/
  | set
  /-- Evaluate a body in a new scope with at most one binding. -/
  | bind
  /-- Make a function from parameters and a body. -/
  | lambda
  deriving DecidableEq, Repr

inductive Op where
  | unary (op : UnaryOp)
  | binary (op : BinaryOp)
  | host (key : Nat) (arity : Nat)
  deriving DecidableEq, Repr

namespace Op

def arity : Op → Nat
  | unary _ => 1
  | binary _ => 2
  | host _ n => n

end Op

structure Builtin where
  name : String
  op : Op
  deriving DecidableEq, Repr

namespace Builtin

def arity (b : Builtin) : Nat := b.op.arity

/-- Two built-in forms are the same value if they agree in name and arity. -/
def same (a b : Builtin) : Bool := a.name = b.name && a.arity = b.arity

/-- The forms that every session starts with. -/
def standard : List Builtin :=
  [⟨"!", .unary .not⟩,
   ⟨"+", .binary (.arith .add)⟩,
   ⟨"-", .binary (.arith .sub)⟩,
   ⟨"*", .binary (.arith .mul)⟩,
   ⟨"/", .binary (.arith .div)⟩,
   ⟨"%", .binary (.arith .mod)⟩,
   ⟨"=", .binary .eq⟩,
   ⟨"!=", .binary .ne⟩,
   ⟨"<", .binary (.compare .lt)⟩,
   ⟨">", .binary (.compare .gt)⟩,
   ⟨"<=", .binary (.compare .le)⟩,
   ⟨">=", .binary (.compare .ge)⟩,
   ⟨"set", .binary .set⟩,
   ⟨"let", .binary .bind⟩,
   ⟨"lambda", .binary .lambda⟩,
   ⟨"print", .unary .print⟩,
   ⟨"typeof", .unary .typeof⟩]

end Builtin
end Lisplet
