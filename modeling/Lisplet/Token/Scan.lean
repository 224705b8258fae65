import Lisplet.Text.Blank
import Lisplet.Token

/-!
Scanning one token as a machine that takes a character at a time. Between
tokens it passes over blanks and comments; the first other character decides
what the token is. A word goes on to the next blank, which is dropped, or to
the next delimiter, which is held for the token after it. A string goes on to
its closing quote.
-/
namespace Lisplet

inductive ScanFault where
  | unterminatedString
  | unknownEscape (escape : Char)
  deriving DecidableEq, Repr

abbrev ScanError := Located ScanFault

/-- How far the scan of one token has come. Characters seen are kept last first. -/
inductive Scan where
  | gap
  | comment
  | word (start : Place) (seen : List Char)
  | string (start : Place) (seen : List Char)
  /-- After a backslash at `slash` inside a string. -/
  | escape (start : Place) (seen : List Char) (slash : Place)
  deriving DecidableEq, Repr

namespace Scan

inductive Move where
  | go (next : Scan)
  /-- The token is complete and the character is used up. -/
  | done (token : Token)
  /-- The token is complete and the character belongs to the next one. -/
  | hold (token : Token)
  | fail (error : ScanError)
  deriving DecidableEq, Repr

/-- The characters that end a word although they are not blank. -/
def isDelimiter (c : Char) : Bool :=
  c = '(' || c = ')' || c = '[' || c = ']' || c = '?' || c = '|'

def unescape? : Char → Option Char
  | 'n' => some '\n'
  | '\\' => some '\\'
  | '"' => some '"'
  | _ => none

def wordToken (start : Place) (seen : List Char) : Token :=
  ⟨Lexeme.ofWord seen.reverse, start⟩

def stringToken (start : Place) (seen : List Char) : Token :=
  ⟨.str (String.ofList seen.reverse), start⟩

def first (c : Char) (place : Place) : Move :=
  match Lexeme.ofPunctuation? c with
  | some lexeme => .done ⟨lexeme, place⟩
  | none => if c = '"' then .go (.string place []) else .go (.word place [c])

def step (s : Scan) (c : Char) (place : Place) : Move :=
  match s with
  | gap => if Text.isBlank c then .go gap else if c = ';' then .go comment else first c place
  | comment => if c = '\n' then .go gap else .go comment
  | word start seen =>
    if Text.isBlank c then .done (wordToken start seen)
    else if isDelimiter c then .hold (wordToken start seen)
    else .go (word start (c :: seen))
  | string start seen =>
    if c = '"' then .done (stringToken start seen)
    else if c = '\\' then .go (escape start seen place)
    else .go (string start (c :: seen))
  | escape start seen _ =>
    match unescape? c with
    | some d => .go (string start (d :: seen))
    | none => .fail ⟨.unknownEscape c, place⟩

/-- The outcome when input ends at `place`. Only a string suffers from it: the report is
at its opening quote, or at the backslash if that was the last character. -/
def finish (s : Scan) (place : Place) : Except ScanError Token :=
  match s with
  | gap | comment => .ok ⟨.eof, place⟩
  | word start seen => .ok (wordToken start seen)
  | string start _ => .error ⟨.unterminatedString, start⟩
  | escape _ _ slash => .error ⟨.unterminatedString, slash⟩

end Scan
end Lisplet
