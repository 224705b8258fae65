import Lisplet.Reader.Reading

/-!
The grammar of expressions and types, stated without the machine that reads
them. A derivation says that tokens spell a datum, and counts its levels: each
expression and each type inside another one is a level deeper. A union is no
level of its own; its parentheses are one. Every datum carries the place of its
first token.
-/
namespace Lisplet

mutual

inductive SpellsTy : Nat → List Token → Ty → Prop where
  | atom {t : Token} {a : Atom} : t.lexeme = .atom a → SpellsTy 1 [t] (.atom a)
  | quoted {t : Token} {n : Nat} {ts : List Token} {ty : Ty} :
      t.lexeme = .quote → SpellsTy n ts ty → SpellsTy (n + 1) (t :: ts) (.quoted ty)
  | listOf {l r : Token} {n : Nat} {ts : List Token} {ty : Ty} :
      l.lexeme = .lbracket → SpellsTy n ts ty → r.lexeme = .rbracket →
      SpellsTy (n + 1) (l :: (ts ++ [r])) (.listOf ty)
  | infer {q t : Token} {name : String} :
      q.lexeme = .question → t.lexeme = .ident name → SpellsTy 1 [q, t] (.infer name)
  /-- Parentheses around one type are no part of it. -/
  | group {l r : Token} {n : Nat} {ts : List Token} {ty : Ty} :
      l.lexeme = .lparen → SpellsMembers n ts ty → r.lexeme = .rparen →
      SpellsTy (n + 1) (l :: (ts ++ [r])) ty

/-- The tokens between two parentheses spell the union of its members, from the left. -/
inductive SpellsMembers : Nat → List Token → Ty → Prop where
  | one {n : Nat} {ts : List Token} {ty : Ty} : SpellsTy n ts ty → SpellsMembers n ts ty
  | more {b : Token} {m n : Nat} {ts us : List Token} {left right : Ty} :
      SpellsMembers m ts left → b.lexeme = .bar → SpellsTy n us right →
      SpellsMembers (max m n) (ts ++ b :: us) (.union left right)

end

mutual

/-- The tokens spell the datum, with exactly so many levels. -/
inductive Spells : Nat → List Token → Datum → Prop where
  | nil {t : Token} : t.lexeme = .atom .nil → Spells 1 [t] (.nil t.place)
  | bool {t : Token} {b : Bool} : t.lexeme = .bool b → Spells 1 [t] (.bool t.place b)
  | int {t : Token} {word : String} {n : Int64} :
      t.lexeme = .int word → Text.Numeral.word64? word.toList = some n →
      Spells 1 [t] (.int t.place n)
  | str {t : Token} {text : String} : t.lexeme = .str text → Spells 1 [t] (.str t.place text)
  | ident {t : Token} {name : String} :
      t.lexeme = .ident name → Spells 1 [t] (.ident t.place name)
  | quote {t : Token} {n : Nat} {ts : List Token} {d : Datum} :
      t.lexeme = .quote → Spells n ts d → Spells (n + 1) (t :: ts) (.quote t.place d)
  | list {l r : Token} {n : Nat} {ts : List Token} {ds : List Datum} :
      l.lexeme = .lparen → SpellsAll n ts ds → r.lexeme = .rparen →
      Spells (n + 1) (l :: (ts ++ [r])) (.list l.place ds)
  | type {t : Token} {n : Nat} {ts : List Token} {ty : Ty} :
      t.lexeme = .dollar → SpellsTy n ts ty → Spells (n + 1) (t :: ts) (.type t.place ty)

inductive SpellsAll : Nat → List Token → List Datum → Prop where
  | nil : SpellsAll 0 [] []
  | cons {m n : Nat} {ts us : List Token} {d : Datum} {ds : List Datum} :
      Spells m ts d → SpellsAll n us ds → SpellsAll (max m n) (ts ++ us) (d :: ds)

end

/-- One more datum at the end. -/
theorem SpellsAll.concat {m n : Nat} {ts us : List Token} {ds : List Datum} {d : Datum}
    (hs : SpellsAll m ts ds) (h : Spells n us d) :
    SpellsAll (max m n) (ts ++ us) (ds ++ [d]) := by
  induction ds generalizing m ts with
  | nil =>
    cases hs
    simpa using SpellsAll.cons h .nil
  | cons e ds ih =>
    cases hs with
    | cons he hs =>
      rw [List.append_assoc, Nat.max_assoc]
      exact .cons he (ih hs)

/-- Tokens whose lexemes stand between an opening and a closing one. -/
theorem exists_enclosed {ts : List Token} {l r : Lexeme} {ls : List Lexeme}
    (h : ts.map Token.lexeme = l :: (ls ++ [r])) :
    ∃ a us b, ts = a :: (us ++ [b]) ∧ a.lexeme = l ∧ us.map Token.lexeme = ls ∧ b.lexeme = r := by
  obtain ⟨a, ts, rfl, ha, hts⟩ := List.map_eq_cons_iff.1 h
  obtain ⟨us, bs, rfl, hus, hbs⟩ := List.map_eq_append_iff.1 hts
  obtain ⟨b, rfl, hb⟩ := List.map_eq_singleton_iff.1 hbs
  exact ⟨a, us, b, rfl, ha, hus, hb⟩

end Lisplet
