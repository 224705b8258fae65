import Lisplet.Text.Place
import Lisplet.Ty

/-!
Tokens. A lexeme is what a token says and a token is a lexeme with the place of
its first character. A bare word is classified as a whole: it is `nil`, a type
keyword, a boolean or a numeral if all of it is one, and a name otherwise.
-/
namespace Lisplet

inductive Lexeme where
  /-- The end of input. -/
  | eof
  /-- A word that names a type: `nil` or a type keyword. -/
  | atom (a : Atom)
  | bool (b : Bool)
  /-- A numeral, kept as written. -/
  | int (word : String)
  /-- A string literal, with its escapes resolved. -/
  | str (text : String)
  | ident (name : String)
  | quote
  | dollar
  | question
  | bar
  | lparen
  | rparen
  | lbracket
  | rbracket
  deriving DecidableEq, Repr

/-- The classes of tokens that a report may name. -/
inductive Kind where
  | eof | nil | typeKeyword | bool | int | str | ident | quote | special | paren
  deriving DecidableEq, Repr

namespace Kind

def describe : Kind → String
  | eof => "an end of file"
  | nil => "a nil"
  | typeKeyword => "a type keyword"
  | bool => "a boolean"
  | int => "an integer"
  | str => "a string"
  | ident => "an identifier"
  | quote => "a quote"
  | special => "a special character"
  | paren => "a parenthesis"

end Kind

namespace Lexeme

/-- Brackets count as parentheses. -/
def kind : Lexeme → Kind
  | eof => .eof
  | atom .nil => .nil
  | atom _ => .typeKeyword
  | bool _ => .bool
  | int _ => .int
  | str _ => .str
  | ident _ => .ident
  | quote => .quote
  | dollar | question | bar => .special
  | lparen | rparen | lbracket | rbracket => .paren

def text? : Lexeme → Option String
  | eof => none
  | atom a => some a.word
  | bool true => some "true"
  | bool false => some "false"
  | int word => some word
  | str text => some text
  | ident name => some name
  | quote => some "'"
  | dollar => some "$"
  | question => some "?"
  | bar => some "|"
  | lparen => some "("
  | rparen => some ")"
  | lbracket => some "["
  | rbracket => some "]"

/-- The characters that are tokens by themselves wherever a token starts. -/
def ofPunctuation? : Char → Option Lexeme
  | '(' => some lparen
  | ')' => some rparen
  | '[' => some lbracket
  | ']' => some rbracket
  | '?' => some question
  | '|' => some bar
  | '$' => some dollar
  | '\x27' => some quote
  | _ => none

def ofWord (cs : List Char) : Lexeme :=
  let word := String.ofList cs
  match Atom.ofWord? word with
  | some a => atom a
  | none =>
    if word = "true" then bool true
    else if word = "false" then bool false
    else if Text.Numeral.isNumeral cs then int word
    else ident word

end Lexeme

structure Token where
  lexeme : Lexeme
  place : Place
  deriving DecidableEq, Repr

namespace Token

def kind (t : Token) : Kind := t.lexeme.kind

end Token
end Lisplet
