import Lisplet.Datum.Print
import Lisplet.Token.Scan

/-!
What can go wrong, stage by stage, and how it is worded. A fault says what
happened; an error is a fault with the place it is reported at.
-/
namespace Lisplet

inductive ReadFault where
  | scan (fault : ScanFault)
  /-- A token of another class was needed. -/
  | expectedKind (wanted : Kind)
  /-- A token of this class was needed, with another text. -/
  | expectedText (wanted : String)
  | expectedType
  /-- A type keyword stands where an expression was needed. -/
  | typeKeyword
  | expectedExpr
  | intOutOfRange (word : String)
  | tooDeep
  deriving DecidableEq, Repr

inductive EvalFault where
  | divisionByZero
  | notCallable (value : Datum)
  | unbound (name : String)
  | alreadyBound (name : String)
  | wrongArity (got expected : Nat)
  | typeMismatch (expected got : Ty)
  | badForm (form : String)
  | tooDeep
  deriving Repr

inductive Fault where
  | read (fault : ReadFault)
  | eval (fault : EvalFault)
  /-- Text follows an expression on its line of the console. -/
  | trailingText
  deriving Repr

abbrev ReadError := Located ReadFault
abbrev EvalError := Located EvalFault
abbrev Error := Located Fault

def ScanFault.message : ScanFault → String
  | unterminatedString => "Unterminated string literal"
  | unknownEscape c => "Unknown escape sequence '\\" ++ c.toString ++ "' in string literal"

def ReadFault.message : ReadFault → String
  | scan fault => fault.message
  | expectedKind wanted => "Expected " ++ wanted.describe ++ " token"
  | expectedText wanted => "Expected text '" ++ wanted ++ "'"
  | expectedType => "Expected a type expression"
  | typeKeyword => "Type keyword found outside type expression"
  | expectedExpr => "Expected an expression"
  | intOutOfRange word => "Integer literal " ++ word ++ " is out of range"
  | tooDeep => "Expression is nested too deeply"

def EvalFault.message : EvalFault → String
  | divisionByZero => "Division by zero"
  | notCallable value => "Cannot call a non-function value (got " ++ toString value ++ ")"
  | unbound name => "Identifier '" ++ name ++ "' does not exist"
  | alreadyBound name => "Cannot set variable '" ++ name ++ "' because it already exists"
  | wrongArity got expected =>
    "Invalid number of arguments to function (got " ++ toString got ++ ", expected "
      ++ toString expected ++ ")"
  | typeMismatch expected got =>
    "Expected a value of type " ++ toString expected ++ " (got " ++ toString got ++ ")"
  | badForm form => "Malformed '" ++ form ++ "' expression"
  | tooDeep => "Maximum call depth exceeded"

def Fault.message : Fault → String
  | read fault => fault.message
  | eval fault => fault.message
  | trailingText => "Unexpected text after expression"

end Lisplet
