import Lisplet.Proofs.Reading.Accepts

/-!
Where a reading has got to. The open forms of a reading and what it waits for
tell which tokens it has taken: every open form is one opening token and the
parts that are complete. One token keeps this, so a datum that is completed is
spelled by the tokens that were taken for it, within the deepest nesting. These
are the data that the machine accepts, and no others.
-/
namespace Lisplet

def ReadFault.isScan : ReadFault → Bool
  | .scan _ => true
  | _ => false

namespace Reading

/-- The tokens have opened the forms, and filled them with what they hold. -/
inductive Opened : List OpenForm → List Token → Prop where
  | nil : Opened [] []
  | quote {stack : List OpenForm} {ts : List Token} {t : Token} :
      Opened stack ts → t.lexeme = .quote → Opened (.quote t.place :: stack) (ts ++ [t])
  | list {stack : List OpenForm} {ts us : List Token} {t : Token} {n : Nat} {items : List Datum} :
      Opened stack ts → t.lexeme = .lparen → SpellsAll n us items.reverse →
      stack.length + 1 + n ≤ maxNesting → Opened (.list t.place items :: stack) (ts ++ t :: us)

inductive OpenedTypes (base : Nat) : List OpenType → List Token → Prop where
  | nil : OpenedTypes base [] []
  | quoted {types : List OpenType} {ts : List Token} {t : Token} :
      OpenedTypes base types ts → t.lexeme = .quote →
      OpenedTypes base (.quoted :: types) (ts ++ [t])
  | listOf {types : List OpenType} {ts : List Token} {t : Token} :
      OpenedTypes base types ts → t.lexeme = .lbracket →
      OpenedTypes base (.listOf :: types) (ts ++ [t])
  | group {types : List OpenType} {ts : List Token} {t : Token} :
      OpenedTypes base types ts → t.lexeme = .lparen →
      OpenedTypes base (.group none :: types) (ts ++ [t])
  | member {types : List OpenType} {ts us : List Token} {t b : Token} {n : Nat} {ty : Ty} :
      OpenedTypes base types ts → t.lexeme = .lparen → SpellsMembers n us ty →
      b.lexeme = .bar → base + (types.length + 1) + n ≤ maxNesting →
      OpenedTypes base (.group (some ty) :: types) (ts ++ t :: (us ++ [b]))

/-- The tokens taken since the dollar sign, given what has to come next. -/
inductive OpenedGoal (base : Nat) (types : List OpenType) : TypeGoal → List Token → Prop where
  | type {ts : List Token} : OpenedTypes base types ts → OpenedGoal base types .type ts
  | name {ts : List Token} {q : Token} :
      OpenedTypes base types ts → q.lexeme = .question → base + types.length < maxNesting →
      OpenedGoal base types .name (ts ++ [q])
  | bracket {ts us : List Token} {t : Token} {n : Nat} {ty : Ty} :
      OpenedTypes base types ts → t.lexeme = .lbracket → SpellsTy n us ty →
      base + (types.length + 1) + n ≤ maxNesting →
      OpenedGoal base types (.bracket ty) (ts ++ t :: us)
  | paren {ts us : List Token} {t : Token} {n : Nat} {ty : Ty} :
      OpenedTypes base types ts → t.lexeme = .lparen → SpellsMembers n us ty →
      base + (types.length + 1) + n ≤ maxNesting →
      OpenedGoal base types (.paren ty) (ts ++ t :: us)

/-- The tokens have brought a reading from its start to where it is. -/
inductive Reached : Reading → List Token → Prop where
  | expr {stack : List OpenForm} {ts : List Token} : Opened stack ts → Reached ⟨stack, .expr⟩ ts
  | inType {stack : List OpenForm} {ts us : List Token} {t : Token} {types : List OpenType}
      {goal : TypeGoal} :
      Opened stack ts → t.lexeme = .dollar → OpenedGoal (stack.length + 1) types goal us →
      Reached ⟨stack, .inType t.place types goal⟩ (ts ++ t :: us)

def Move.Follows : Move → List Token → Prop
  | .more g, ts => Reached g ts
  | .done d, ts => ∃ n ≤ maxNesting, Spells n ts d
  | .fail e, _ => e.what.isScan = false

/-- A datum fills the innermost form, or is the whole expression. -/
theorem give_follows {stack : List OpenForm} {ts us : List Token} {n : Nat} {d : Datum}
    (hs : Opened stack ts) (h : Spells n us d) (hn : stack.length + n ≤ maxNesting) :
    (give d stack).Follows (ts ++ us) := by
  induction hs generalizing us n d with
  | nil => exact ⟨n, by simpa using hn, h⟩
  | quote hs ht ih =>
    rw [List.append_assoc]
    exact ih (.quote ht h) (by simp only [List.length_cons] at hn; omega)
  | @list stack ts vs t m items hs ht hall hm ih =>
    rw [List.append_assoc, List.cons_append]
    refine .expr (.list hs ht ?_ (n := max m n) ?_)
    · rw [List.reverse_cons]
      exact hall.concat h
    · simp only [List.length_cons] at hn
      omega

/-- A type fills the innermost type, or completes its literal. -/
theorem giveType_follows {stack : List OpenForm} {types : List OpenType}
    {ts us vs : List Token} {t : Token} {n : Nat} {ty : Ty} (hs : Opened stack ts)
    (ht : t.lexeme = .dollar) (htypes : OpenedTypes (stack.length + 1) types us)
    (h : SpellsTy n vs ty) (hn : stack.length + 1 + types.length + n ≤ maxNesting) :
    (giveType stack t.place ty types).Follows (ts ++ t :: (us ++ vs)) := by
  induction htypes generalizing vs n ty with
  | nil =>
    exact give_follows hs (.type ht h) (by simp only [List.length_nil] at hn; omega)
  | quoted htypes hq ih =>
    rw [List.append_assoc]
    exact ih (.quoted hq h) (by simp only [List.length_cons] at hn; omega)
  | listOf htypes hl ih =>
    rw [List.append_assoc]
    exact .inType hs ht (.bracket htypes hl h (by simpa using hn))
  | group htypes hl ih =>
    rw [List.append_assoc]
    exact .inType hs ht (.paren htypes hl (.one h) (by simpa using hn))
  | @member types us ws l b m left htypes hl hms hb hm ih =>
    have he : us ++ l :: (ws ++ [b]) ++ vs = us ++ l :: (ws ++ b :: vs) := by simp
    rw [he]
    refine .inType hs ht (.paren htypes hl (.more hms hb h) ?_)
    simp only [List.length_cons] at hn
    omega

/-- The first token of an expression completes it or opens a form, if there is room. -/
theorem openExpr_follows {stack : List OpenForm} {ts : List Token} {t : Token}
    (hs : Opened stack ts) (hroom : stack.length < maxNesting) :
    (openExpr stack t).Follows (ts ++ [t]) := by
  unfold openExpr
  split
  next ht => exact give_follows hs (.nil ht) hroom
  next => rfl
  next b ht => exact give_follows hs (.bool ht) hroom
  next word ht =>
    split
    next n hw => exact give_follows hs (.int ht hw) hroom
    next => rfl
  next text ht => exact give_follows hs (.str ht) hroom
  next name ht => exact give_follows hs (.ident ht) hroom
  next ht => exact .expr (.quote hs ht)
  next ht => exact .expr (.list hs ht .nil hroom)
  next ht => exact .inType hs ht (.type .nil)
  next => rfl

theorem takeExpr_follows {stack : List OpenForm} {ts : List Token} {t : Token}
    (hs : Opened stack ts) : (takeExpr stack t).Follows (ts ++ [t]) := by
  unfold takeExpr
  split
  next place items outer ht =>
    cases hs with
    | list hs hl hall hn =>
      rw [List.append_assoc, List.cons_append]
      exact give_follows hs (.list hl hall ht) (by omega)
  next =>
    split
    next hroom => exact openExpr_follows hs hroom
    next => rfl

theorem openType_follows {stack : List OpenForm} {types : List OpenType} {ts us : List Token}
    {d t : Token} (hs : Opened stack ts) (hd : d.lexeme = .dollar)
    (htypes : OpenedTypes (stack.length + 1) types us)
    (hroom : stack.length + 1 + types.length < maxNesting) :
    (openType stack d.place types t).Follows (ts ++ d :: (us ++ [t])) := by
  unfold openType
  split
  next a ht => exact giveType_follows hs hd htypes (.atom ht) hroom
  next ht => exact .inType hs hd (.type (.quoted htypes ht))
  next ht => exact .inType hs hd (.type (.listOf htypes ht))
  next ht => exact .inType hs hd (.type (.group htypes ht))
  next ht => exact .inType hs hd (.name htypes ht hroom)
  next => rfl

theorem notClosing_follows (wanted : String) (t : Token) (ts : List Token) :
    (notClosing wanted t).Follows ts := by
  unfold notClosing
  split <;> rfl

/-- Inside a type literal, a token completes a type, opens one, or fails where it should. -/
theorem takeType_follows {stack : List OpenForm} {types : List OpenType} {goal : TypeGoal}
    {ts us : List Token} {d t : Token} (hs : Opened stack ts) (hd : d.lexeme = .dollar)
    (hg : OpenedGoal (stack.length + 1) types goal us) :
    (takeType stack d.place types t goal).Follows (ts ++ d :: (us ++ [t])) := by
  cases hg with
  | type htypes =>
    simp only [takeType]
    split
    next hroom => exact openType_follows hs hd htypes hroom
    next => rfl
  | @name us q htypes hq hroom =>
    simp only [takeType]
    split
    next name ht =>
      rw [List.append_assoc]
      exact giveType_follows hs hd htypes (.infer hq ht) hroom
    next => rfl
  | @bracket us vs l n ty htypes hl h hn =>
    simp only [takeType]
    split
    next ht =>
      rw [List.append_assoc]
      exact giveType_follows hs hd htypes (.listOf hl h ht) (by omega)
    next => exact notClosing_follows ..
  | @paren us vs l n ty htypes hl h hn =>
    simp only [takeType]
    split
    next hb =>
      rw [List.append_assoc]
      exact .inType hs hd (.type (.member htypes hl h hb hn))
    next ht =>
      rw [List.append_assoc]
      exact giveType_follows hs hd htypes (.group hl h ht) (by omega)
    next => exact notClosing_follows ..

/-- One token keeps a reading true to the tokens taken. -/
theorem take_follows {g : Reading} {ts : List Token} (h : Reached g ts) (t : Token) :
    (g.take t).Follows (ts ++ [t]) := by
  cases h with
  | expr hs => exact takeExpr_follows hs
  | inType hs hd hg =>
    rw [List.append_assoc]
    exact takeType_follows hs hd hg

theorem reached_start : Reached start [] := .expr .nil

/-- A whole run keeps it as well, for the tokens it took. -/
theorem feed_follows {m m' : Move} {ts us vs : List Token} (h : m.Follows ts)
    (hf : feed m us = (m', vs)) : ∃ ws, us = ws ++ vs ∧ m'.Follows (ts ++ ws) := by
  induction us generalizing m ts with
  | nil =>
    rw [feed_nil] at hf
    cases hf
    exact ⟨[], rfl, by simpa using h⟩
  | cons t us ih =>
    cases m with
    | more g =>
      obtain ⟨ws, rfl, hw⟩ := ih (take_follows h t) hf
      exact ⟨t :: ws, rfl, by simpa using hw⟩
    | done d =>
      cases hf
      exact ⟨[], rfl, by simpa using h⟩
    | fail e =>
      cases hf
      exact ⟨[], rfl, by simpa using h⟩

/-- The machine completes a datum with exactly the tokens that spell it within the deepest
nesting. -/
theorem feed_start_done_iff {ts rest : List Token} {d : Datum} :
    feed (.more start) (ts ++ rest) = (.done d, rest) ↔ ∃ n ≤ maxNesting, Spells n ts d := by
  constructor
  · intro h
    have hstart : (Move.more start).Follows [] := reached_start
    obtain ⟨us, hus, hd⟩ := feed_follows hstart h
    rw [List.append_cancel_right hus]
    exact hd
  · rintro ⟨n, hn, h⟩
    have hfeed := feed_spells h [] rest (by simpa using hn)
    rwa [give, feed_done] at hfeed

end Reading
end Lisplet
