import Lisplet.Proofs.RoundTrip
import Lisplet.Proofs.Session.Discipline

/-!
What a session yields can be written and read again. A value is deeper than what
is evaluated only if it is a type literal: the type of a list is a level deeper
than the empty list, and the dollar sign is one more. But what the form that
makes it is applied to is two levels down at least, the list of the call and the
quote around the value; so the type of the deepest value just fits.
-/
namespace Lisplet

namespace Datum

mutual

theorem functionFree_of_readable : ∀ d : Datum, d.readable = true → d.functionFree = true
  | .nil _, _ | .type .., _ | .bool .., _ | .int .., _ | .str .., _ | .ident .., _ => rfl
  | .quote _ inner, h => functionFree_of_readable inner h
  | .list _ items, h => functionFreeAll_of_readable items h

theorem functionFreeAll_of_readable : ∀ ds : List Datum, readableAll ds = true →
    functionFreeAll ds = true
  | [], _ => rfl
  | d :: ds, h => by
    rw [readableAll, Bool.and_eq_true] at h
    rw [functionFreeAll, functionFree_of_readable d h.1, functionFreeAll_of_readable ds h.2]
    rfl

end

theorem readableAll_iff (ds : List Datum) :
    readableAll ds = true ↔ ∀ d ∈ ds, d.readable = true := by
  induction ds with
  | nil => simp [readableAll]
  | cons d ds ih => simp [readableAll, ih]

theorem levels_lt_list {p : Place} {items : List Datum} {d : Datum} (h : d ∈ items) :
    d.levels < (list p items).levels := by
  rw [levels, Nat.lt_succ_iff]
  induction items with
  | nil => cases h
  | cons e items ih =>
    rw [levelsAll]
    rcases List.mem_cons.1 h with rfl | h
    · exact Nat.le_max_left _ _
    · exact Nat.le_trans (ih h) (Nat.le_max_right _ _)

/-- There are no names in the type of a value, whatever names there are in the value. -/
theorem readable_typeOf : ∀ v : Datum, v.typeOf.readable = true
  | .quote _ inner => readable_typeOf inner
  | .nil _ | .type .. | .bool .. | .int .. | .str .. | .ident .. | .list .. | .builtin ..
  | .func .. => rfl

theorem levels_typeOf_le : ∀ v : Datum, v.typeOf.levels ≤ v.levels + 1
  | .quote _ inner => Nat.succ_le_succ (levels_typeOf_le inner)
  | .list .. => Nat.succ_le_succ (Nat.succ_le_succ (Nat.zero_le _))
  | .nil _ | .type .. | .bool .. | .int .. | .str .. | .ident .. | .builtin .. | .func .. =>
    Nat.succ_le_succ (Nat.zero_le _)

theorem levels_typeOf_of_isConstant {v : Datum} (h : v.isConstant = true) :
    v.typeOf.levels ≤ 2 := by
  cases v with
  | quote => cases h
  | _ => simp [typeOf, Ty.levels]

def Legible (v : Datum) : Prop := v.isCallable = true ∨ v.readable = true ∧ v.levels ≤ 128

structure LegiblyTyped (v : Datum) : Prop where
  readable : v.readable = true
  levels : v.levels ≤ 128
  typeOf : v.typeOf.levels ≤ 127

theorem LegiblyTyped.flat {v : Datum} (hreadable : v.readable = true) (hlevels : v.levels = 1)
    (htype : v.typeOf.levels = 1) : v.LegiblyTyped :=
  ⟨hreadable, by omega, by omega⟩

theorem LegiblyTyped.literal {v : Datum} (p : Place) (h : v.typeOf.levels ≤ 127) :
    (type p v.typeOf).LegiblyTyped :=
  ⟨readable_typeOf v, Nat.succ_le_succ h, Nat.succ_le_succ (Nat.zero_le _)⟩

/-- A function may be bound if its body has room for two levels around it; what is not callable, if
it can be written and read again with its type. -/
def LegiblyBound : Datum → Prop :=
  Bindable (fun e => e.readable = true ∧ e.levels ≤ 126) LegiblyTyped

variable {v : Datum}

theorem LegiblyTyped.bound (h : v.LegiblyTyped) : v.LegiblyBound :=
  bindable_of_functionFree (functionFree_of_readable v h.readable) h

theorem LegiblyBound.legible (h : v.LegiblyBound) : v.Legible := by
  cases v with
  | builtin => exact .inl rfl
  | func => exact .inl rfl
  | _ => exact .inr ⟨h.readable, h.levels⟩

/-- A value of an activation that stands on the given ones. Only that of the whole need not have
room for its type. -/
def LegibleOn (rest : List Activation) (v : Datum) : Prop :=
  v.LegiblyBound ∨ rest = [] ∧ v.Legible

theorem LegibleOn.legible {rest : List Activation} (h : v.LegibleOn rest) : v.Legible := by
  rcases h with h | ⟨-, h⟩
  · exact h.legible
  · exact h

theorem LegibleOn.bound {a : Activation} {rest : List Activation} (h : v.LegibleOn (a :: rest)) :
    v.LegiblyBound :=
  h.resolve_right fun ⟨hnil, _⟩ => List.cons_ne_nil a rest hnil

theorem LegiblyBound.levels_typeOf (h : v.LegiblyBound) : v.typeOf.levels ≤ 127 := by
  cases v with
  | builtin => simp [typeOf, Ty.levels]
  | func => simp [typeOf, Ty.levels]
  | _ => exact h.typeOf

end Datum

/-- What is evaluated can be read, with room for what is around it; so bodies of functions have at
most 126 levels, and quoted values as many. -/
structure Activation.Legible (a : Activation) (rest : List Activation) : Prop where
  readable : a.datum.readable = true
  levels : a.datum.levels + min rest.length 2 ≤ 128

namespace Activation.Legible

variable {a : Activation} {rest : List Activation} {p : Place} {items : List Datum} {d : Datum}

theorem part (h : a.Legible rest) (ha : a.datum = .list p items) (hd : d ∈ items) :
    Legible ⟨d, false⟩ (a :: rest) := by
  obtain ⟨hreadable, hlevels⟩ := h
  have hlt : d.levels < a.datum.levels := ha ▸ Datum.levels_lt_list hd
  rw [ha, Datum.readable, Datum.readableAll_iff] at hreadable
  refine ⟨hreadable d hd, ?_⟩
  simp only [List.length_cons]
  omega

theorem item (h : Legible ⟨.list p items, false⟩ rest) (hd : d ∈ items) :
    Legible ⟨d, false⟩ rest := by
  obtain ⟨hreadable, hlevels⟩ := h
  have hlt : d.levels < (Datum.list p items).levels := Datum.levels_lt_list hd
  rw [Datum.readable, Datum.readableAll_iff] at hreadable
  exact ⟨hreadable d hd, Nat.le_trans (Nat.add_le_add_right (Nat.le_of_lt hlt) _) hlevels⟩

theorem body (hreadable : d.readable = true) (hlevels : d.levels ≤ 126) :
    Legible ⟨d, true⟩ rest :=
  ⟨hreadable, Nat.add_le_add hlevels (Nat.min_le_right _ _)⟩

theorem constant (h : a.Legible rest) (ha : a.datum.isConstant = true) : a.datum.LegiblyTyped := by
  obtain ⟨hreadable, hlevels⟩ := h
  have htype := Datum.levels_typeOf_of_isConstant ha
  exact ⟨hreadable, by omega, by omega⟩

theorem answer (h : a.Legible []) (ha : a.datum = .quote p d) : d.Legible := by
  obtain ⟨hreadable, hlevels⟩ := h
  rw [ha, Datum.levels] at hlevels
  rw [ha] at hreadable
  exact .inr ⟨hreadable, Nat.le_of_succ_le hlevels⟩

/-- A quote that is part of a call leaves room for the type of what it holds. -/
theorem quoted {b : Activation} (h : a.Legible (b :: rest)) (ha : a.datum = .quote p d) :
    d.LegiblyTyped := by
  obtain ⟨hreadable, hlevels⟩ := h
  rw [ha, Datum.levels, List.length_cons] at hlevels
  rw [ha] at hreadable
  have htype := Datum.levels_typeOf_le d
  exact ⟨hreadable, by omega, by omega⟩

/-- Where a function is made inside another form, its body has room for two levels around it. -/
theorem bodied {b c : Activation} (h : a.Legible (b :: c :: rest)) :
    a.datum.readable = true ∧ a.datum.levels ≤ 126 := by
  have hlevels := h.levels
  rw [List.length_cons, List.length_cons, Nat.min_eq_right (Nat.le_add_left 2 _)] at hlevels
  exact ⟨h.readable, Nat.le_of_add_le_add_right hlevels⟩

end Activation.Legible

def Discipline.legible : Discipline where
  stack := Activation.Innermost Activation.Legible
  value := Datum.LegiblyBound
  result := Datum.LegibleOn
  part h ha he := h.part ha he
  item h he := h.item he
  body _ _ he := .body he.1 he.2
  constant h ha := .inl (h.constant ha).bound
  quote {a rest p d} h ha := by
    cases rest with
    | nil =>
      exact .inr ⟨rfl, h.answer ha⟩
    | cons b rest => exact .inl (h.quoted ha).bound
  func {a rest e} p params h := by
    cases rest with
    | nil => exact .inr ⟨rfl, .inl rfl⟩
    | cons b rest => exact .inl h.bodied
  result_of_value _ h := .inl h
  value_of_result h := h.bound
  builtin h := h
  nil _ := .flat rfl rfl rfl
  bool _ _ := .flat rfl rfl rfl
  int _ _ := .flat rfl rfl rfl
  typeOf p h := .literal p h.levels_typeOf
  named name h := h.named name

namespace Session

theorem legible_of_readable {d : Datum} (hreadable : d.readable = true) (hlevels : d.levels ≤ 128) :
    d.standard = true ∧ Discipline.legible.stack [⟨d, false⟩] :=
  ⟨Datum.standard_of_functionFree d (Datum.functionFree_of_readable d hreadable), hreadable,
    by simpa using hlevels⟩

/-- All values in a session that has evaluated what can be read can be written and read again. -/
theorem values_legible {before : List Datum} {d : Datum}
    (hbefore : ∀ e ∈ before, e.readable = true ∧ e.levels ≤ 128)
    (hd : d.readable = true ∧ d.levels ≤ 128) :
    let s := fresh.evalEach before
    let w := Eval.watched d s.state
    ((s.eval d).1 = w.1 ∧ (s.eval d).2.state = w.2.forget) ∧
    (∀ v, (s.eval d).1 = .ok v → v.Legible) ∧ (∀ v ∈ w.2.scopes.values, v.Legible) ∧
    (s.eval d).2.state.scopes.Values Datum.LegiblyBound := by
  intro s w
  obtain ⟨hs, hv⟩ := values_evalEach (D := Discipline.legible) settled_fresh
    (Scopes.values_withBuiltins fun _ hb => hb)
    fun e he => legible_of_readable (hbefore e he).1 (hbefore e he).2
  obtain ⟨hstandard, hstack⟩ := legible_of_readable hd.1 hd.2
  have hends := ends_eval hs hv hstack
  have hwatched := eval_watched hs hstandard
  refine ⟨hwatched, ?_, ?_, ?_⟩
  · intro v hvalue
    exact (hends.ok v (hwatched.1.symm.trans hvalue)).1.legible
  · intro v hv
    exact ((Discipline.within_of_ends hends).values v hv).legible
  · exact values_eval hs hv hstandard hstack

/-- A value that is not callable is written as a text that is read as the same value. -/
theorem readBack_of_legible {v : Datum} (h : v.Legible) : v.isCallable = true ∨
    v.functionFree = true ∧ v.levels ≤ 128 ∧
      ∃ e t, (Reader.ofDatum v).read = (.ok e, t) ∧ (e == v) = true ∧ t.atEnd.1 = .ok true := by
  rcases h with h | ⟨hreadable, hlevels⟩
  · exact .inl h
  · exact .inr ⟨Datum.functionFree_of_readable v hreadable, hlevels,
      Reader.read_ofDatum hreadable hlevels⟩

/-- Whatever is evaluated in a new session, one after another, without functions, with names that
can be read and within the deepest nesting: every value that comes about on the way, that is bound
or that is the answer is callable, or it is written as a text that is read as the same value. -/
theorem values_readBack {before : List Datum} {d : Datum}
    (hbefore : ∀ e ∈ before, e.readable = true ∧ e.levels ≤ 128)
    (hd : d.readable = true ∧ d.levels ≤ 128) :
    let s := fresh.evalEach before
    let w := Eval.watched d s.state
    ((s.eval d).1 = w.1 ∧ (s.eval d).2.state = w.2.forget) ∧
    ∀ v, ((s.eval d).1 = .ok v ∨ v ∈ w.2.scopes.values ∨
        ∃ name, (s.eval d).2.state.scopes.lookup? name = some v) →
      v.isCallable = true ∨ v.functionFree = true ∧ v.levels ≤ 128 ∧
        ∃ e t, (Reader.ofDatum v).read = (.ok e, t) ∧ (e == v) = true ∧ t.atEnd.1 = .ok true := by
  intro s w
  obtain ⟨hwatched, hanswer, hvalues, hbound⟩ := values_legible hbefore hd
  refine ⟨hwatched, ?_⟩
  rintro v (hv | hv | ⟨name, hv⟩)
  · exact readBack_of_legible (hanswer v hv)
  · exact readBack_of_legible (hvalues v hv)
  · exact readBack_of_legible (hbound.lookup? hv).legible

/-- The type of the most deeply quoted list that there is room for just fits. -/
theorem values_readBack_typeof :
    let d : Datum := .list default [.ident default "typeof",
      Nat.repeat (.quote default) 126 (.list default [])]
    let v : Datum := .type default (Nat.repeat .quoted 125 (.listOf (.atom .any)))
    d.levels = 128 ∧ (fresh.eval d).1 = .ok v ∧ v.levels = 128 ∧
      ∃ e t, (Reader.ofDatum v).read = (.ok e, t) ∧ (e == v) = true := by
  intro d v
  have hvalue : (fresh.eval d).1 = .ok v := rfl
  have hd : d.readable = true ∧ d.levels ≤ 128 := by decide +kernel
  have hbefore : ∀ e ∈ ([] : List Datum), e.readable = true ∧ e.levels ≤ 128 := by simp
  obtain ⟨-, hback⟩ := values_readBack hbefore hd
  rcases hback v (.inl hvalue) with hcallable | ⟨-, -, e, t, hread, hsame, -⟩
  · cases hcallable
  · exact ⟨by decide +kernel, hvalue, by decide +kernel, e, t, hread, hsame⟩

end Session
end Lisplet
