import Lisplet.Proofs.Datum.Relocate
import Lisplet.Reader.Reading

/-!
Reading pays no attention to places. The reading machine copies the places of
its tokens and asks for nothing about them, so moving all places before a step
comes to the same as moving them after it.
-/
namespace Lisplet

variable (f : Place → Place)

namespace Token

/-- Move the place of a token. -/
def relocate (t : Token) : Token := ⟨t.lexeme, f t.place⟩

@[simp] theorem lexeme_relocate (t : Token) : (t.relocate f).lexeme = t.lexeme := rfl
@[simp] theorem place_relocate (t : Token) : (t.relocate f).place = f t.place := rfl
@[simp] theorem kind_relocate (t : Token) : (t.relocate f).kind = t.kind := rfl

end Token

/-- Move every place in an open form. -/
def OpenForm.relocate : OpenForm → OpenForm
  | .quote place => .quote (f place)
  | .list place items => .list (f place) (Datum.relocateAll f items)

def Goal.relocate : Goal → Goal
  | .expr => .expr
  | .inType dollar types goal => .inType (f dollar) types goal

namespace Reading

/-- Move every place in a reading. -/
def relocate (g : Reading) : Reading := ⟨g.stack.map (.relocate f), g.goal.relocate f⟩

def Move.relocate : Move → Move
  | .more next => .more (next.relocate f)
  | .done d => .done (d.relocate f)
  | .fail e => .fail ⟨e.what, f e.place⟩

theorem relocateAll_reverse (ds : List Datum) :
    Datum.relocateAll f ds.reverse = (Datum.relocateAll f ds).reverse := by
  rw [Datum.relocateAll_eq_map, Datum.relocateAll_eq_map, List.map_reverse]

theorem give_relocate (d : Datum) (stack : List OpenForm) :
    (give d stack).relocate f = give (d.relocate f) (stack.map (.relocate f)) := by
  induction stack generalizing d with
  | nil => rfl
  | cons form stack ih =>
    cases form with
    | quote place => exact ih (.quote place d)
    | list place items => rfl

theorem giveType_relocate (stack : List OpenForm) (dollar : Place) (ty : Ty)
    (types : List OpenType) :
    (giveType stack dollar ty types).relocate f =
      giveType (stack.map (.relocate f)) (f dollar) ty types := by
  induction types generalizing ty with
  | nil => exact give_relocate f (.type dollar ty) stack
  | cons form types ih =>
    cases form with
    | quoted => exact ih (.quoted ty)
    | listOf => rfl
    | group members => cases members <;> rfl

theorem openExpr_relocate (stack : List OpenForm) (t : Token) :
    (openExpr stack t).relocate f = openExpr (stack.map (.relocate f)) (t.relocate f) := by
  obtain ⟨lexeme, place⟩ := t
  cases lexeme with
  | atom a => cases a <;> first | rfl | exact give_relocate f (.nil place) stack
  | bool b => exact give_relocate f (.bool place b) stack
  | int word =>
    simp only [openExpr, Token.lexeme_relocate]
    cases Text.Numeral.word64? word.toList with
    | some n => exact give_relocate f (.int place n) stack
    | none => rfl
  | str text => exact give_relocate f (.str place text) stack
  | ident name => exact give_relocate f (.ident place name) stack
  | eof | quote | dollar | question | bar | lparen | rparen | lbracket | rbracket => rfl

theorem takeExpr_relocate (stack : List OpenForm) (t : Token) :
    (takeExpr stack t).relocate f = takeExpr (stack.map (.relocate f)) (t.relocate f) := by
  have hopen : (if stack.length < maxNesting then openExpr stack t
      else .fail ⟨.tooDeep, t.place⟩ : Move).relocate f =
      if (stack.map (OpenForm.relocate f)).length < maxNesting
        then openExpr (stack.map (.relocate f)) (t.relocate f)
        else .fail ⟨.tooDeep, f t.place⟩ := by
    rw [List.length_map]
    split
    · exact openExpr_relocate f stack t
    · rfl
  obtain ⟨lexeme, place⟩ := t
  cases stack with
  | nil => exact hopen
  | cons form outer =>
    cases form with
    | quote p => exact hopen
    | list p items =>
      cases lexeme with
      | rparen =>
        have hitems := relocateAll_reverse f items
        simp only [takeExpr, List.map_cons, OpenForm.relocate, Token.lexeme_relocate,
          give_relocate, Datum.relocate, hitems]
      | _ => exact hopen

theorem openType_relocate (stack : List OpenForm) (dollar : Place) (types : List OpenType)
    (t : Token) :
    (openType stack dollar types t).relocate f =
      openType (stack.map (.relocate f)) (f dollar) types (t.relocate f) := by
  obtain ⟨lexeme, place⟩ := t
  cases lexeme with
  | atom a => exact giveType_relocate f stack dollar (.atom a) types
  | _ => rfl

theorem notClosing_relocate (wanted : String) (t : Token) :
    (notClosing wanted t).relocate f = notClosing wanted (t.relocate f) := by
  by_cases h : t.kind = .paren <;> simp [notClosing, h, Move.relocate]

theorem takeType_relocate (stack : List OpenForm) (dollar : Place) (types : List OpenType)
    (t : Token) (goal : TypeGoal) :
    (takeType stack dollar types t goal).relocate f =
      takeType (stack.map (.relocate f)) (f dollar) types (t.relocate f) goal := by
  cases goal with
  | type =>
    simp only [takeType, List.length_map]
    split
    · exact openType_relocate f stack dollar types t
    · rfl
  | name =>
    simp only [takeType, Token.lexeme_relocate]
    split
    · exact giveType_relocate ..
    · rfl
  | bracket inner =>
    simp only [takeType, Token.lexeme_relocate]
    split
    · exact giveType_relocate ..
    · exact notClosing_relocate ..
  | paren members =>
    simp only [takeType, Token.lexeme_relocate]
    split
    · rfl
    · exact giveType_relocate ..
    · exact notClosing_relocate ..

theorem take_relocate (g : Reading) (t : Token) :
    (g.take t).relocate f = (g.relocate f).take (t.relocate f) := by
  obtain ⟨stack, goal⟩ := g
  cases goal with
  | expr => exact takeExpr_relocate f stack t
  | inType dollar types goal => exact takeType_relocate f stack dollar types t goal

/-- What a token does to a reading that is there in two places. -/
inductive Move.Alike : Move → Move → Prop where
  | more {g h : Reading} : g.relocate f = h.relocate f → Alike (.more g) (.more h)
  | done {d e : Datum} : d.relocate f = e.relocate f → Alike (.done d) (.done e)
  | fail {x y : ReadError} : x.what = y.what → f x.place = f y.place → Alike (.fail x) (.fail y)

/-- A token makes the same move of a reading wherever both of them stand. -/
theorem take_alike {g h : Reading} {t u : Token} (hgh : g.relocate f = h.relocate f)
    (htu : t.relocate f = u.relocate f) : Move.Alike f (g.take t) (h.take u) := by
  have heq : (g.take t).relocate f = (h.take u).relocate f := by
    rw [take_relocate, take_relocate, hgh, htu]
  cases hg : g.take t with
  | more g' =>
    rw [hg] at heq
    cases hh : h.take u <;> rw [hh] at heq <;> simp only [Move.relocate, reduceCtorEq] at heq
    exact .more (Move.more.inj heq)
  | done d =>
    rw [hg] at heq
    cases hh : h.take u <;> rw [hh] at heq <;> simp only [Move.relocate, reduceCtorEq] at heq
    exact .done (Move.done.inj heq)
  | fail x =>
    rw [hg] at heq
    cases hh : h.take u <;> rw [hh] at heq <;> simp only [Move.relocate, reduceCtorEq] at heq
    obtain ⟨hwhat, hplace⟩ := Located.mk.inj (Move.fail.inj heq)
    exact .fail hwhat hplace

end Reading
end Lisplet
