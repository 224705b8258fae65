import Lisplet.Proofs.Reading.Completes

/-!
What a reading refuses. It takes every token of a phrase in turn, whatever is
open around the phrase, unless one of its limits stops it: the deepest nesting,
or a numeral that is no word. So a token that is refused for any other reason
goes on no phrase that the tokens before it begin.
-/
namespace Lisplet

namespace ReadFault

/-- The text is well formed as far as it has been read, but goes past a limit. -/
def isLimit : ReadFault → Bool
  | intOutOfRange _ | tooDeep => true
  | _ => false

/-- A token stands where the grammar has no place for it. -/
def isSyntax : ReadFault → Bool
  | expectedKind _ | expectedText _ | expectedType | typeKeyword | expectedExpr => true
  | _ => false

end ReadFault

namespace Reading

/-- To feed tokens in two portions comes to the same, and what is left over is left over. -/
theorem feed_append (m : Move) (us vs : List Token) :
    feed m (us ++ vs) = feed (feed m us).1 ((feed m us).2 ++ vs) := by
  induction us generalizing m with
  | nil => rw [feed_nil, List.nil_append]
  | cons u us ih =>
    cases m with
    | more g => exact ih (g.take u)
    | done d => simp
    | fail e => simp

/-- A failure comes from one token, and the reading has taken all that stand before it. -/
theorem exists_refused {g : Reading} {ws vs : List Token} {e : ReadError}
    (h : feed (.more g) ws = (.fail e, vs)) :
    ∃ us t g', ws = us ++ t :: vs ∧ feed (.more g) us = (.more g', []) ∧ g'.take t = .fail e := by
  induction ws generalizing g with
  | nil => cases h
  | cons t ws ih =>
    rw [feed_more] at h
    cases hm : g.take t with
    | more next =>
      rw [hm] at h
      obtain ⟨us, u, g', rfl, hus, hu⟩ := ih h
      exact ⟨t :: us, u, g', rfl, by rw [feed_more, hm, hus], hu⟩
    | done d =>
      rw [hm, feed_done] at h
      cases h
    | fail e' =>
      rw [hm, feed_fail] at h
      cases h
      exact ⟨[], t, g, rfl, rfl, hm⟩

/-- The run ends as `y` does, unless a limit has stopped it before. -/
def Unlimited (x y : Move × List Token) : Prop :=
  x = y ∨ ∃ e vs, x = (.fail e, vs) ∧ e.what.isLimit = true

theorem Unlimited.refl (x : Move × List Token) : Unlimited x x := .inl rfl

theorem unlimited_tooDeep (place : Place) (vs : List Token) (y : Move × List Token) :
    Unlimited (.fail ⟨.tooDeep, place⟩, vs) y := .inr ⟨_, vs, rfl, rfl⟩

theorem Unlimited.trans {x y z : Move × List Token} (h : Unlimited x y) (h' : Unlimited y z) :
    Unlimited x z := by
  rcases h with rfl | h
  · exact h'
  · exact .inr h

section Opening

variable (stack : List OpenForm) (dollar : Place) (types : List OpenType)

theorem feed_openExpr (t : Token) (hne : t.lexeme ≠ .rparen) (ts : List Token) :
    Unlimited (feed (.more ⟨stack, .expr⟩) (t :: ts)) (feed (openExpr stack t) ts) := by
  rw [feed_more, take_expr hne]
  by_cases hroom : stack.length < maxNesting
  · rw [if_pos hroom]
    exact .refl _
  · rw [if_neg hroom, feed_fail]
    apply unlimited_tooDeep

theorem feed_openType (t : Token) (ts : List Token) :
    Unlimited (feed (.more ⟨stack, .inType dollar types .type⟩) (t :: ts))
      (feed (openType stack dollar types t) ts) := by
  by_cases hroom : stack.length + 1 + types.length < maxNesting
  · rw [feed_more, take_type hroom]
    exact .refl _
  · have hfails : take ⟨stack, .inType dollar types .type⟩ t = .fail ⟨.tooDeep, t.place⟩ := by
      simp [take, takeType, hroom]
    rw [feed_more, hfails, feed_fail]
    apply unlimited_tooDeep

/-- A value is read at once, unless it is a numeral that is no word. -/
theorem feed_value {t : Token} (h : t.lexeme.isValue = true) (ts : List Token) :
    ∃ d, Unlimited (feed (.more ⟨stack, .expr⟩) (t :: ts)) (feed (give d stack) ts) := by
  have hne : t.lexeme ≠ .rparen := by
    intro he
    rw [he] at h
    cases h
  have hopen := feed_openExpr stack t hne ts
  obtain ⟨lexeme, place⟩ := t
  unfold Lexeme.isValue at h
  split at h
  next hl => cases hl; exact ⟨.nil place, hopen⟩
  next b hl => cases hl; exact ⟨.bool place b, hopen⟩
  next word hl =>
    cases hl
    cases hw : Text.Numeral.word64? word.toList with
    | some n => exact ⟨.int place n, by simpa [openExpr, hw] using hopen⟩
    | none =>
      refine ⟨.nil place, hopen.trans (.inr ⟨⟨.intOutOfRange word, place⟩, ts, ?_, rfl⟩)⟩
      simp [openExpr, hw]
  next text hl => cases hl; exact ⟨.str place text, hopen⟩
  next name hl => cases hl; exact ⟨.ident place name, hopen⟩
  next => cases h

end Opening

/-- Fed to a reading that waits for such a phrase, the tokens complete it, whatever follows and
whatever is open around it. -/
def Taken : Phrase → List Token → Prop
  | .expr, ts => ∀ stack rest, ∃ d,
      Unlimited (feed (.more ⟨stack, .expr⟩) (ts ++ rest)) (feed (give d stack) rest)
  | .exprs, ts => ∀ place items stack rest, ∃ items',
      Unlimited (feed (.more ⟨.list place items :: stack, .expr⟩) (ts ++ rest))
        (feed (.more ⟨.list place items' :: stack, .expr⟩) rest)
  | .type, ts => ∀ stack dollar types rest, ∃ ty,
      Unlimited (feed (.more ⟨stack, .inType dollar types .type⟩) (ts ++ rest))
        (feed (giveType stack dollar ty types) rest)
  | .members, ts => ∀ stack dollar types left rest, ∃ ty,
      Unlimited (feed (.more ⟨stack, .inType dollar (.group left :: types) .type⟩) (ts ++ rest))
        (feed (.more ⟨stack, .inType dollar types (.paren ty)⟩) rest)

/-- A member waits for a bar or for the end of its group. -/
theorem feed_member (stack : List OpenForm) (dollar : Place) (types : List OpenType)
    (left : Option Ty) (ty : Ty) (rest : List Token) :
    ∃ union, feed (giveType stack dollar ty (.group left :: types)) rest =
      feed (.more ⟨stack, .inType dollar types (.paren union)⟩) rest := by
  cases left with
  | none => exact ⟨ty, rfl⟩
  | some left => exact ⟨.union left ty, rfl⟩

namespace Taken

variable {t l r b : Token} {us vs : List Token}

theorem quote (ht : t.lexeme = .quote) (h : Taken .expr us) : Taken .expr (t :: us) := by
  intro stack rest
  obtain ⟨d, hd⟩ := h (.quote t.place :: stack) rest
  have hopen := feed_openExpr stack t (by simp [ht]) (us ++ rest)
  simp only [openExpr, ht] at hopen
  exact ⟨.quote t.place d, hopen.trans hd⟩

theorem list (hl : l.lexeme = .lparen) (hr : r.lexeme = .rparen) (h : Taken .exprs us) :
    Taken .expr (l :: (us ++ [r])) := by
  intro stack rest
  obtain ⟨items, hitems⟩ := h l.place [] stack (r :: rest)
  have hopen := feed_openExpr stack l (by simp [hl]) (us ++ r :: rest)
  simp only [openExpr, hl] at hopen
  refine ⟨.list l.place items.reverse, ?_⟩
  simp only [List.cons_append, List.append_assoc, List.nil_append]
  apply (hopen.trans hitems).trans
  simp only [feed_more, take, takeExpr, hr]
  exact .refl _

theorem literal (ht : t.lexeme = .dollar) (h : Taken .type us) : Taken .expr (t :: us) := by
  intro stack rest
  obtain ⟨ty, hty⟩ := h stack t.place [] rest
  have hopen := feed_openExpr stack t (by simp [ht]) (us ++ rest)
  simp only [openExpr, ht] at hopen
  exact ⟨.type t.place ty, hopen.trans hty⟩

theorem more (h : Taken .expr us) (hs : Taken .exprs vs) : Taken .exprs (us ++ vs) := by
  intro place items stack rest
  obtain ⟨d, hd⟩ := h (.list place items :: stack) (vs ++ rest)
  obtain ⟨items', hitems⟩ := hs place (d :: items) stack rest
  rw [List.append_assoc]
  exact ⟨items', hd.trans hitems⟩

theorem atom {a : Atom} (ht : t.lexeme = .atom a) : Taken .type [t] := by
  intro stack dollar types rest
  have hopen := feed_openType stack dollar types t rest
  simp only [openType, ht] at hopen
  exact ⟨_, hopen⟩

theorem quoted (ht : t.lexeme = .quote) (h : Taken .type us) : Taken .type (t :: us) := by
  intro stack dollar types rest
  obtain ⟨ty, hty⟩ := h stack dollar (.quoted :: types) rest
  have hopen := feed_openType stack dollar types t (us ++ rest)
  simp only [openType, ht] at hopen
  exact ⟨.quoted ty, hopen.trans hty⟩

theorem listOf (hl : l.lexeme = .lbracket) (hr : r.lexeme = .rbracket) (h : Taken .type us) :
    Taken .type (l :: (us ++ [r])) := by
  intro stack dollar types rest
  obtain ⟨ty, hty⟩ := h stack dollar (.listOf :: types) (r :: rest)
  have hopen := feed_openType stack dollar types l (us ++ r :: rest)
  simp only [openType, hl] at hopen
  refine ⟨.listOf ty, ?_⟩
  simp only [List.cons_append, List.append_assoc, List.nil_append]
  apply (hopen.trans hty).trans
  simp only [giveType, feed_more, take, takeType, hr]
  exact .refl _

theorem infer {name : String} (hl : l.lexeme = .question) (ht : t.lexeme = .ident name) :
    Taken .type [l, t] := by
  intro stack dollar types rest
  have hopen := feed_openType stack dollar types l (t :: rest)
  simp only [openType, hl] at hopen
  refine ⟨.infer name, hopen.trans ?_⟩
  simp only [feed_more, take, takeType, ht]
  exact .refl _

theorem group (hl : l.lexeme = .lparen) (hr : r.lexeme = .rparen) (h : Taken .members us) :
    Taken .type (l :: (us ++ [r])) := by
  intro stack dollar types rest
  obtain ⟨ty, hty⟩ := h stack dollar types none (r :: rest)
  have hopen := feed_openType stack dollar types l (us ++ r :: rest)
  simp only [openType, hl] at hopen
  refine ⟨ty, ?_⟩
  simp only [List.cons_append, List.append_assoc, List.nil_append]
  apply (hopen.trans hty).trans
  simp only [feed_more, take, takeType, hr]
  exact .refl _

theorem one (h : Taken .type us) : Taken .members us := by
  intro stack dollar types left rest
  obtain ⟨ty, hty⟩ := h stack dollar (.group left :: types) rest
  obtain ⟨union, hunion⟩ := feed_member stack dollar types left ty rest
  rw [hunion] at hty
  exact ⟨union, hty⟩

theorem bar (h : Taken .type us) (hb : b.lexeme = .bar) (hs : Taken .members vs) :
    Taken .members (us ++ b :: vs) := by
  intro stack dollar types left rest
  obtain ⟨ty, hty⟩ := h stack dollar (.group left :: types) (b :: (vs ++ rest))
  obtain ⟨union, hunion⟩ := feed_member stack dollar types left ty (b :: (vs ++ rest))
  obtain ⟨all, hall⟩ := hs stack dollar types (some union) rest
  rw [hunion, feed_more] at hty
  simp only [take, takeType, hb] at hty
  rw [List.append_assoc, List.cons_append]
  exact ⟨all, hty.trans hall⟩

end Taken

/-- The induction is on the derivation, which says how the tokens are to be cut. -/
theorem taken_of_derives {p : Phrase} {n : Nat} {ls : List Lexeme} (h : Derives p n ls) :
    ∀ {ts : List Token}, ts.map Token.lexeme = ls → Taken p ts := by
  induction h with
  | value hl =>
    intro ts hts stack rest
    obtain ⟨t, rfl, rfl⟩ := List.map_eq_singleton_iff.1 hts
    exact feed_value stack hl rest
  | quote _ ih =>
    intro ts hts
    obtain ⟨t, us, rfl, ht, hus⟩ := List.map_eq_cons_iff.1 hts
    exact .quote ht (ih hus)
  | list _ ih =>
    intro ts hts
    obtain ⟨l, us, r, rfl, hl, hus, hr⟩ := exists_enclosed hts
    exact .list hl hr (ih hus)
  | literal _ ih =>
    intro ts hts
    obtain ⟨t, us, rfl, ht, hus⟩ := List.map_eq_cons_iff.1 hts
    exact .literal ht (ih hus)
  | none =>
    intro ts hts place items stack rest
    obtain rfl := List.map_eq_nil_iff.1 hts
    exact ⟨items, .refl _⟩
  | more _ _ ih ihs =>
    intro ts hts
    obtain ⟨us, vs, rfl, hus, hvs⟩ := List.map_eq_append_iff.1 hts
    exact .more (ih hus) (ihs hvs)
  | atom =>
    intro ts hts
    obtain ⟨t, rfl, ht⟩ := List.map_eq_singleton_iff.1 hts
    exact .atom ht
  | quoted _ ih =>
    intro ts hts
    obtain ⟨t, us, rfl, ht, hus⟩ := List.map_eq_cons_iff.1 hts
    exact .quoted ht (ih hus)
  | listOf _ ih =>
    intro ts hts
    obtain ⟨l, us, r, rfl, hl, hus, hr⟩ := exists_enclosed hts
    exact .listOf hl hr (ih hus)
  | infer =>
    intro ts hts
    obtain ⟨l, us, rfl, hl, hus⟩ := List.map_eq_cons_iff.1 hts
    obtain ⟨t, rfl, ht⟩ := List.map_eq_singleton_iff.1 hus
    exact .infer hl ht
  | group _ ih =>
    intro ts hts
    obtain ⟨l, us, r, rfl, hl, hus, hr⟩ := exists_enclosed hts
    exact .group hl hr (ih hus)
  | one _ ih =>
    intro ts hts
    exact .one (ih hts)
  | bar _ _ ih ihs =>
    intro ts hts
    obtain ⟨us, vs, rfl, hus, hvs⟩ := List.map_eq_append_iff.1 hts
    obtain ⟨b, vs, rfl, hb, hvs⟩ := List.map_eq_cons_iff.1 hvs
    exact .bar (ih hus) hb (ihs hvs)

/-- If no limit has refused the token, no expression begins with the tokens up to it. -/
theorem not_derives_of_refused {g : Reading} {us : List Token} {t : Token} {e : ReadError}
    (hus : feed (.more start) us = (.more g, [])) (ht : g.take t = .fail e)
    (he : e.what.isLimit = false) (n : Nat) (more : List Lexeme) :
    ¬ Derives .expr n ((us ++ [t]).map Token.lexeme ++ more) := by
  intro h
  let vs : List Token := more.map fun l => ⟨l, default⟩
  have hvs : vs.map Token.lexeme = more := by simp [vs, Function.comp_def]
  have hts : (us ++ t :: vs).map Token.lexeme = (us ++ [t]).map Token.lexeme ++ more := by
    simp [hvs]
  have hrefused : feed (.more start) (us ++ t :: vs ++ []) = (.fail e, vs) := by
    rw [List.append_nil, feed_append, hus, List.nil_append, feed_more, ht, feed_fail]
  obtain ⟨d, hd⟩ := taken_of_derives h hts [] []
  change Unlimited (feed (.more start) (us ++ t :: vs ++ [])) _ at hd
  rw [hrefused, give, feed_done] at hd
  rcases hd with hd | ⟨e', vs', hd, he'⟩
  · cases hd
  · cases hd
    rw [he] at he'
    cases he'

end Reading
end Lisplet
