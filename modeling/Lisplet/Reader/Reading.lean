import Lisplet.Fault
import Lisplet.Token

/-!
Reading one expression as a machine that takes a token at a time and keeps the
forms that are still open on a stack, innermost first. Each open form is one
level of nesting, in expressions and in types alike. A form may be opened, and
an atom read, only below `maxNesting` open forms; closing a form needs no room.
The first token that cannot go on is where the report points.
-/
namespace Lisplet

/-- The deepest nesting of lists, quotes and types together. -/
def maxNesting : Nat := 128

/-- An expression that waits for more of its parts. -/
inductive OpenForm where
  | quote (place : Place)
  /-- The items so far, the last one first. -/
  | list (place : Place) (items : List Datum)
  deriving Repr

inductive OpenType where
  | quoted
  | listOf
  /-- Parentheses, with the union of the members so far. -/
  | group (members : Option Ty)
  deriving DecidableEq, Repr

/-- What has to come next inside a type literal. -/
inductive TypeGoal where
  | type
  /-- The name of a placeholder. -/
  | name
  /-- The bracket that closes a list type. -/
  | bracket (inner : Ty)
  /-- A bar, or the parenthesis that closes a group. -/
  | paren (members : Ty)
  deriving DecidableEq, Repr

/-- What has to come next: an expression, or a part of the type literal at `dollar`. -/
inductive Goal where
  | expr
  | inType (dollar : Place) (stack : List OpenType) (goal : TypeGoal)
  deriving DecidableEq, Repr

structure Reading where
  stack : List OpenForm
  goal : Goal
  deriving Repr

namespace Reading

def start : Reading := ⟨[], .expr⟩

inductive Move where
  | more (next : Reading)
  | done (d : Datum)
  | fail (error : ReadError)
  deriving Repr

/-- A complete expression fills the innermost open form. -/
def give (d : Datum) : List OpenForm → Move
  | [] => .done d
  | .quote place :: stack => give (.quote place d) stack
  | .list place items :: stack => .more ⟨.list place (d :: items) :: stack, .expr⟩

/-- A complete type fills the innermost open type, or completes its literal. -/
def giveType (stack : List OpenForm) (dollar : Place) (ty : Ty) : List OpenType → Move
  | [] => give (.type dollar ty) stack
  | .quoted :: types => giveType stack dollar (.quoted ty) types
  | .listOf :: types => .more ⟨stack, .inType dollar types (.bracket ty)⟩
  | .group none :: types => .more ⟨stack, .inType dollar types (.paren ty)⟩
  | .group (some left) :: types => .more ⟨stack, .inType dollar types (.paren (.union left ty))⟩

def openExpr (stack : List OpenForm) (t : Token) : Move :=
  match t.lexeme with
  | .atom .nil => give (.nil t.place) stack
  | .atom _ => .fail ⟨.typeKeyword, t.place⟩
  | .bool b => give (.bool t.place b) stack
  | .int word =>
    match Text.Numeral.word64? word.toList with
    | some n => give (.int t.place n) stack
    | none => .fail ⟨.intOutOfRange word, t.place⟩
  | .str text => give (.str t.place text) stack
  | .ident name => give (.ident t.place name) stack
  | .quote => .more ⟨.quote t.place :: stack, .expr⟩
  | .lparen => .more ⟨.list t.place [] :: stack, .expr⟩
  | .dollar => .more ⟨stack, .inType t.place [] .type⟩
  | _ => .fail ⟨.expectedExpr, t.place⟩

/-- A token where an expression or the end of the innermost list may come. -/
def takeExpr (stack : List OpenForm) (t : Token) : Move :=
  match stack, t.lexeme with
  | .list place items :: outer, .rparen => give (.list place items.reverse) outer
  | _, _ => if stack.length < maxNesting then openExpr stack t else .fail ⟨.tooDeep, t.place⟩

def openType (stack : List OpenForm) (dollar : Place) (types : List OpenType) (t : Token) : Move :=
  match t.lexeme with
  | .atom a => giveType stack dollar (.atom a) types
  | .quote => .more ⟨stack, .inType dollar (.quoted :: types) .type⟩
  | .lbracket => .more ⟨stack, .inType dollar (.listOf :: types) .type⟩
  | .lparen => .more ⟨stack, .inType dollar (.group none :: types) .type⟩
  | .question => .more ⟨stack, .inType dollar types .name⟩
  | _ => .fail ⟨.expectedType, t.place⟩

/-- The report of a token that is not the closing one: the class is looked at first. -/
def notClosing (wanted : String) (t : Token) : Move :=
  if t.kind = .paren then .fail ⟨.expectedText wanted, t.place⟩
  else .fail ⟨.expectedKind .paren, t.place⟩

def takeType (stack : List OpenForm) (dollar : Place) (types : List OpenType) (t : Token) :
    TypeGoal → Move
  | .type =>
    if stack.length + 1 + types.length < maxNesting then openType stack dollar types t
    else .fail ⟨.tooDeep, t.place⟩
  | .name =>
    match t.lexeme with
    | .ident name => giveType stack dollar (.infer name) types
    | _ => .fail ⟨.expectedKind .ident, t.place⟩
  | .bracket inner =>
    match t.lexeme with
    | .rbracket => giveType stack dollar (.listOf inner) types
    | _ => notClosing "]" t
  | .paren members =>
    match t.lexeme with
    | .bar => .more ⟨stack, .inType dollar (.group (some members) :: types) .type⟩
    | .rparen => giveType stack dollar members types
    | _ => notClosing ")" t

def take (g : Reading) (t : Token) : Move :=
  match g.goal with
  | .expr => takeExpr g.stack t
  | .inType dollar types goal => takeType g.stack dollar types t goal

/-- No expression goes on past the end of input. -/
theorem take_eof (g : Reading) (place : Place) : ∃ e, g.take ⟨.eof, place⟩ = .fail e := by
  unfold take
  split
  next =>
    unfold takeExpr
    split
    next h => cases h
    next => split <;> exact ⟨_, rfl⟩
  next goal _ =>
    cases goal with
    | type => simp only [takeType]; split <;> exact ⟨_, rfl⟩
    | name => exact ⟨_, rfl⟩
    | bracket inner => exact ⟨_, rfl⟩
    | paren members => exact ⟨_, rfl⟩

theorem lexeme_ne_eof_of_more {g next : Reading} {t : Token} (h : g.take t = .more next) :
    t.lexeme ≠ .eof := by
  intro he
  obtain ⟨lexeme, place⟩ := t
  cases he
  obtain ⟨e, hf⟩ := g.take_eof place
  rw [hf] at h
  cases h

theorem lexeme_ne_eof_of_done {g : Reading} {t : Token} {d : Datum} (h : g.take t = .done d) :
    t.lexeme ≠ .eof := by
  intro he
  obtain ⟨lexeme, place⟩ := t
  cases he
  obtain ⟨e, hf⟩ := g.take_eof place
  rw [hf] at h
  cases h

end Reading
end Lisplet
