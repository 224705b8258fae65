import Lisplet.Proofs.Grammar

/-!
What the reading machine accepts. Fed tokens that spell a datum, it completes
that datum, provided the levels of the datum fit below the forms that are open;
if they do not fit, it stops at the token that would be one level too deep.
-/
namespace Lisplet.Reading

/-- Feed tokens to a reading until it is over, and keep the tokens it did not take. -/
def feed : Move → List Token → Move × List Token
  | .more g, t :: ts => feed (g.take t) ts
  | m, ts => (m, ts)

@[simp] theorem feed_more (g : Reading) (t : Token) (ts : List Token) :
    feed (.more g) (t :: ts) = feed (g.take t) ts := rfl
@[simp] theorem feed_nil (m : Move) : feed m [] = (m, []) := by cases m <;> rfl
@[simp] theorem feed_done (d : Datum) (ts : List Token) : feed (.done d) ts = (.done d, ts) := by
  cases ts <;> rfl
@[simp] theorem feed_fail (e : ReadError) (ts : List Token) :
    feed (.fail e) ts = (.fail e, ts) := by
  cases ts <;> rfl

section Accept

variable {stack : List OpenForm} {dollar : Place} {types : List OpenType}

theorem take_type {t : Token} (h : stack.length + 1 + types.length < maxNesting) :
    take ⟨stack, .inType dollar types .type⟩ t = openType stack dollar types t := by
  simp [take, takeType, h]

/-- No expression begins with a closing parenthesis. -/
theorem take_expr {t : Token} (hne : t.lexeme ≠ .rparen) :
    take ⟨stack, .expr⟩ t =
      if stack.length < maxNesting then openExpr stack t else .fail ⟨.tooDeep, t.place⟩ := by
  simp only [take, takeExpr]
  split
  next he => exact absurd he hne
  next => rfl

variable (stack dollar)

mutual

/-- Tokens that spell a type are read as that type. The induction is on how they spell it. -/
theorem feed_spellsTy : ∀ {n : Nat} {ts : List Token} {ty : Ty}, SpellsTy n ts ty →
    ∀ (types : List OpenType) (rest : List Token),
      stack.length + 1 + types.length + n ≤ maxNesting →
      feed (.more ⟨stack, .inType dollar types .type⟩) (ts ++ rest) =
        feed (giveType stack dollar ty types) rest
  | _, _, _, .atom ht, types, rest, hn => by
    have hroom : stack.length + 1 + types.length < maxNesting := by omega
    simp [take_type hroom, openType, ht]
  | _, _, _, .quoted ht h, types, rest, hn => by
    have hroom : stack.length + 1 + types.length < maxNesting := by omega
    have ih := feed_spellsTy h (.quoted :: types) rest (by simp only [List.length_cons]; omega)
    simp [take_type hroom, openType, ht, ih, giveType]
  | _, _, _, .listOf (r := r) hl h hr, types, rest, hn => by
    have hroom : stack.length + 1 + types.length < maxNesting := by omega
    have ih := feed_spellsTy h (.listOf :: types) (r :: rest)
      (by simp only [List.length_cons]; omega)
    simp only [List.cons_append, List.append_assoc, feed_more, take_type hroom, openType, hl]
    simp [ih, giveType, take, takeType, hr]
  | _, _, _, .infer hq ht, types, rest, hn => by
    have hroom : stack.length + 1 + types.length < maxNesting := by omega
    simp only [List.cons_append, List.nil_append, feed_more, take_type hroom, openType, hq]
    simp [take, takeType, ht]
  | _, _, _, .group (r := r) hl h hr, types, rest, hn => by
    have hroom : stack.length + 1 + types.length < maxNesting := by omega
    have ih := feed_spellsMembers h types (r :: rest) (by omega)
    simp only [List.cons_append, List.append_assoc, feed_more, take_type hroom, openType, hl]
    simp [ih, take, takeType, hr]

/-- After its last member a group waits for a bar or its end. -/
theorem feed_spellsMembers : ∀ {n : Nat} {ts : List Token} {ty : Ty}, SpellsMembers n ts ty →
    ∀ (types : List OpenType) (rest : List Token),
      stack.length + 1 + (types.length + 1) + n ≤ maxNesting →
      feed (.more ⟨stack, .inType dollar (.group none :: types) .type⟩) (ts ++ rest) =
        feed (.more ⟨stack, .inType dollar types (.paren ty)⟩) rest
  | _, _, _, .one h, types, rest, hn => feed_spellsTy h (.group none :: types) rest hn
  | _, _, _, @SpellsMembers.more b _ _ _ us left _ hl hb hr, types, rest, hn => by
    have ihl := feed_spellsMembers hl types (b :: (us ++ rest)) (by omega)
    have ihr := feed_spellsTy hr (.group (some left) :: types) rest
      (by simp only [List.length_cons]; omega)
    simp [ihl, take, takeType, hb, ihr, giveType]

end

mutual

/-- Tokens that spell a datum are read as that datum, if there is room for its levels. -/
theorem feed_spells : ∀ {n : Nat} {ts : List Token} {d : Datum}, Spells n ts d →
    ∀ (stack : List OpenForm) (rest : List Token), stack.length + n ≤ maxNesting →
      feed (.more ⟨stack, .expr⟩) (ts ++ rest) = feed (give d stack) rest
  | _, _, _, .nil ht, stack, rest, hn | _, _, _, .bool ht, stack, rest, hn
  | _, _, _, .str ht, stack, rest, hn | _, _, _, .ident ht, stack, rest, hn => by
    have hroom : stack.length < maxNesting := by omega
    simp [take_expr, openExpr, ht, hroom]
  | _, _, _, .int ht hw, stack, rest, hn => by
    have hroom : stack.length < maxNesting := by omega
    simp [take_expr, openExpr, ht, hroom, hw]
  | _, _, _, .quote (t := t) ht h, stack, rest, hn => by
    have hroom : stack.length < maxNesting := by omega
    have ih := feed_spells h (.quote t.place :: stack) rest
      (by simp only [List.length_cons]; omega)
    simp [take_expr, openExpr, ht, hroom, ih, give]
  | _, _, _, .list (l := l) (r := r) hl h hr, stack, rest, hn => by
    have hroom : stack.length < maxNesting := by omega
    have ih := feed_spellsAll h l.place [] stack (r :: rest) (by omega)
    simp [openExpr, hl, hroom, ih, take, takeExpr, hr]
  | _, _, _, .type (t := t) ht h, stack, rest, hn => by
    have hroom : stack.length < maxNesting := by omega
    have ih := feed_spellsTy stack t.place h [] rest
      (by simp only [List.length_nil]; omega)
    simp [take_expr, openExpr, ht, hroom, ih, giveType]

theorem feed_spellsAll : ∀ {n : Nat} {ts : List Token} {ds : List Datum}, SpellsAll n ts ds →
    ∀ (place : Place) (items : List Datum) (stack : List OpenForm) (rest : List Token),
      stack.length + 1 + n ≤ maxNesting →
      feed (.more ⟨.list place items :: stack, .expr⟩) (ts ++ rest) =
        feed (.more ⟨.list place (ds.reverse ++ items) :: stack, .expr⟩) rest
  | _, _, _, .nil, place, items, stack, rest, hn => by simp
  | _, _, _, @SpellsAll.cons _ _ _ us d _ h hs, place, items, stack, rest, hn => by
    have ih := feed_spells h (.list place items :: stack) (us ++ rest)
      (by simp only [List.length_cons]; omega)
    have ihs := feed_spellsAll hs place (d :: items) stack rest (by omega)
    simp [ih, give, ihs]

end

theorem feed_type_full {types : List OpenType}
    (h : stack.length + 1 + types.length = maxNesting) (t : Token) (ts : List Token) :
    ∃ place left, feed (.more ⟨stack, .inType dollar types .type⟩) (t :: ts) =
      (.fail ⟨.tooDeep, place⟩, left) :=
  ⟨t.place, ts, by simp [take, takeType, h]⟩

theorem feed_expr_full {stack : List OpenForm} (h : stack.length = maxNesting) {t : Token}
    (hne : t.lexeme ≠ .rparen) (ts : List Token) :
    ∃ place left, feed (.more ⟨stack, .expr⟩) (t :: ts) = (.fail ⟨.tooDeep, place⟩, left) :=
  ⟨t.place, ts, by simp [take_expr hne, h]⟩

mutual

theorem feed_spellsTy_tooDeep : ∀ {n : Nat} {ts : List Token} {ty : Ty}, SpellsTy n ts ty →
    ∀ (types : List OpenType) (rest : List Token),
      stack.length + 1 + types.length ≤ maxNesting →
      maxNesting < stack.length + 1 + types.length + n →
      ∃ place left, feed (.more ⟨stack, .inType dollar types .type⟩) (ts ++ rest) =
        (.fail ⟨.tooDeep, place⟩, left)
  | _, _, _, .atom _, types, rest, hroom, hn
  | _, _, _, .infer _ _, types, rest, hroom, hn => feed_type_full stack dollar (by omega) _ _
  | _, _, _, .quoted ht h, types, rest, hroom, hn => by
    rcases Nat.lt_or_eq_of_le hroom with hlt | heq
    · simp only [List.cons_append, feed_more, take_type hlt, openType, ht]
      exact feed_spellsTy_tooDeep h (.quoted :: types) rest
        (by simp only [List.length_cons]; omega) (by simp only [List.length_cons]; omega)
    · exact feed_type_full stack dollar heq _ _
  | _, _, _, .listOf hl h _, types, rest, hroom, hn => by
    rcases Nat.lt_or_eq_of_le hroom with hlt | heq
    · simp only [List.cons_append, feed_more, take_type hlt, openType, hl, List.append_assoc]
      exact feed_spellsTy_tooDeep h (.listOf :: types) _
        (by simp only [List.length_cons]; omega) (by simp only [List.length_cons]; omega)
    · exact feed_type_full stack dollar heq _ _
  | _, _, _, .group hl h _, types, rest, hroom, hn => by
    rcases Nat.lt_or_eq_of_le hroom with hlt | heq
    · simp only [List.cons_append, feed_more, take_type hlt, openType, hl, List.append_assoc]
      exact feed_spellsMembers_tooDeep h types _ (by omega) (by omega)
    · exact feed_type_full stack dollar heq _ _

/-- If the last member is not the one that goes too deep, an earlier one is. -/
theorem feed_spellsMembers_tooDeep : ∀ {n : Nat} {ts : List Token} {ty : Ty},
    SpellsMembers n ts ty → ∀ (types : List OpenType) (rest : List Token),
      stack.length + 1 + (types.length + 1) ≤ maxNesting →
      maxNesting < stack.length + 1 + (types.length + 1) + n →
      ∃ place left, feed (.more ⟨stack, .inType dollar (.group none :: types) .type⟩)
        (ts ++ rest) = (.fail ⟨.tooDeep, place⟩, left)
  | _, _, _, .one h, types, rest, hroom, hn =>
    feed_spellsTy_tooDeep h (.group none :: types) rest hroom hn
  | _, _, _, @SpellsMembers.more _ m _ _ _ left _ hl hb hr, types, rest, hroom, hn => by
    rw [List.append_assoc]
    by_cases hm : stack.length + 1 + (types.length + 1) + m ≤ maxNesting
    · rw [feed_spellsMembers stack dollar hl types _ hm]
      simp only [List.cons_append, feed_more, take, takeType, hb]
      exact feed_spellsTy_tooDeep hr (.group (some left) :: types) rest hroom
        (by simp only [List.length_cons]; omega)
    · exact feed_spellsMembers_tooDeep hl types _ hroom (by omega)

end

mutual

/-- Tokens that spell a datum without room for its levels are refused as too deep. -/
theorem feed_spells_tooDeep : ∀ {n : Nat} {ts : List Token} {d : Datum}, Spells n ts d →
    ∀ (stack : List OpenForm) (rest : List Token), stack.length ≤ maxNesting →
      maxNesting < stack.length + n →
      ∃ place left, feed (.more ⟨stack, .expr⟩) (ts ++ rest) = (.fail ⟨.tooDeep, place⟩, left)
  | _, _, _, .nil ht, stack, rest, hroom, hn | _, _, _, .bool ht, stack, rest, hroom, hn
  | _, _, _, .int ht _, stack, rest, hroom, hn | _, _, _, .str ht, stack, rest, hroom, hn
  | _, _, _, .ident ht, stack, rest, hroom, hn => feed_expr_full (by omega) (by simp [ht]) _
  | _, _, _, .quote (t := t) ht h, stack, rest, hroom, hn => by
    rcases Nat.lt_or_eq_of_le hroom with hlt | heq
    · have ih := feed_spells_tooDeep h (.quote t.place :: stack) rest
        (by simp only [List.length_cons]; omega) (by simp only [List.length_cons]; omega)
      simpa [take_expr, openExpr, ht, hlt] using ih
    · exact feed_expr_full heq (by simp [ht]) _
  | _, _, _, .list (l := l) (r := r) hl h _, stack, rest, hroom, hn => by
    rcases Nat.lt_or_eq_of_le hroom with hlt | heq
    · have ih := feed_spellsAll_tooDeep h l.place [] stack (r :: rest) (by omega) (by omega)
      simpa [take_expr, openExpr, hl, hlt] using ih
    · exact feed_expr_full heq (by simp [hl]) _
  | _, _, _, .type (t := t) ht h, stack, rest, hroom, hn => by
    rcases Nat.lt_or_eq_of_le hroom with hlt | heq
    · have ih := feed_spellsTy_tooDeep stack t.place h [] rest
        (by simp only [List.length_nil]; omega) (by simp only [List.length_nil]; omega)
      simpa [take_expr, openExpr, ht, hlt] using ih
    · exact feed_expr_full heq (by simp [ht]) _

theorem feed_spellsAll_tooDeep : ∀ {n : Nat} {ts : List Token} {ds : List Datum},
    SpellsAll n ts ds → ∀ (place : Place) (items : List Datum) (stack : List OpenForm)
      (rest : List Token), stack.length + 1 ≤ maxNesting → maxNesting < stack.length + 1 + n →
      ∃ place' left, feed (.more ⟨.list place items :: stack, .expr⟩) (ts ++ rest) =
        (.fail ⟨.tooDeep, place'⟩, left)
  | _, _, _, .nil, place, items, stack, rest, hroom, hn => absurd hn (by omega)
  | _, _, _, .cons (m := m) (d := d) h hs, place, items, stack, rest, hroom, hn => by
    rw [List.append_assoc]
    by_cases hm : stack.length + 1 + m ≤ maxNesting
    · rw [feed_spells h (.list place items :: stack) _ hm]
      exact feed_spellsAll_tooDeep hs place (d :: items) stack rest hroom (by omega)
    · exact feed_spells_tooDeep h (.list place items :: stack) _ hroom
        (by simp only [List.length_cons]; omega)

end

end Accept

end Lisplet.Reading
