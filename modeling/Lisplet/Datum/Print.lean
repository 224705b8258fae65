import Lisplet.Datum
import Lisplet.Text.Numeral

/-!
The written form of a datum. A string is written between quotes with three
characters escaped and all others as they are; a function is written as an
opaque tag, which cannot be read back.
-/
namespace Lisplet.Datum

def escape : Char → List Char
  | '"' => ['\\', '"']
  | '\\' => ['\\', '\\']
  | '\n' => ['\\', 'n']
  | c => [c]

def quoted (text : String) : List Char :=
  '"' :: (text.toList.flatMap escape ++ ['"'])

def tag (name : String) : List Char := "#<func ".toList ++ (name.toList ++ ['>'])

mutual

def chars : Datum → List Char
  | nil _ => "nil".toList
  | type _ ty => '$' :: ty.chars
  | bool _ true => "true".toList
  | bool _ false => "false".toList
  | int _ n => Text.Numeral.write n.toInt
  | str _ text => quoted text
  | ident _ name => name.toList
  | quote _ inner => '\x27' :: chars inner
  | list _ items => '(' :: (charsAll items ++ [')'])
  | builtin _ form => tag form.name
  | func _ name _ _ => if name = "" then "#<lambda>".toList else tag name

def charsAll : List Datum → List Char
  | [] => []
  | [d] => chars d
  | d :: e :: rest => chars d ++ ' ' :: charsAll (e :: rest)

end

instance : ToString Datum := ⟨fun d => String.ofList d.chars⟩

end Lisplet.Datum
