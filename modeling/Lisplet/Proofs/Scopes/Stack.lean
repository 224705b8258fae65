import Lisplet.Proofs.Datum.Standard
import Lisplet.Scopes

/-!
Stacked scopes taken apart into the innermost one and those around it. `Keeps`
is what a run may do to them: nothing to the scopes around, and in the innermost
one only new bindings, of names that were bound nowhere. A scope that was opened
for the run is its own, and closing it brings the stack back as it was.
-/
namespace Lisplet

namespace Scope

theorem get?_append (name : String) (bs cs : List (String × Datum)) :
    get? name (bs ++ cs) = (get? name bs).or (get? name cs) := by
  induction bs with
  | nil => rfl
  | cons b bs ih => by_cases h : b.1 = name <;> simp [get?, h, ih]

/-- A name that is not bound yet is put last. -/
theorem put_of_unbound {name : String} {bs : List (String × Datum)} (h : get? name bs = none)
    (value : Datum) : put name value bs = bs ++ [(name, value)] := by
  induction bs with
  | nil => rfl
  | cons b bs ih =>
    by_cases hk : b.1 = name
    · simp [get?, hk] at h
    · simp only [get?, hk, if_false] at h
      simp [put, hk, ih h]

def standard (c : Scope) : Bool := c.bindings.all fun b => b.2.standard

theorem mem_of_get? {name : String} {value : Datum} {bs : List (String × Datum)}
    (h : get? name bs = some value) : (name, value) ∈ bs := by
  induction bs with
  | nil => cases h
  | cons b bs ih =>
    by_cases hk : b.1 = name
    · simp only [get?, hk, if_true, Option.some.injEq] at h
      simp [← hk, ← h]
    · simp only [get?, hk, if_false] at h
      exact List.mem_cons_of_mem _ (ih h)

theorem standard_put (name : String) {value : Datum} {bs : List (String × Datum)}
    (hbs : bs.all (fun b => b.2.standard) = true) (hv : value.standard = true) :
    (put name value bs).all (fun b => b.2.standard) = true := by
  induction bs with
  | nil => simp [put, hv]
  | cons b bs ih =>
    rw [List.all_cons, Bool.and_eq_true] at hbs
    by_cases hk : b.1 = name
    · simp [put, hk, hv, hbs.2]
    · simp only [put, hk, if_false, List.all_cons, hbs.1, ih hbs.2, Bool.and_self]

end Scope

namespace Scopes

def innermost (s : Scopes) : Scope :=
  match s.inner with
  | [] => s.top
  | c :: _ => c

def outer (s : Scopes) : List Scope :=
  match s.inner with
  | [] => []
  | _ :: rest => rest ++ [s.top]

theorem all_eq (s : Scopes) : s.all = s.innermost :: s.outer := by
  obtain ⟨top, inner⟩ := s
  cases inner <;> rfl

theorem depth_eq (s : Scopes) : s.depth = s.outer.length + 1 := by
  obtain ⟨top, inner⟩ := s
  cases inner <;> simp [depth, outer]

@[simp] theorem innermost_enter (s : Scopes) : s.enter.innermost = {} := rfl
@[simp] theorem outer_enter (s : Scopes) : s.enter.outer = s.all := rfl

@[simp] theorem innermost_insert (s : Scopes) (name : String) (value : Datum) :
    (s.insert name value).innermost = s.innermost.insert name value := by
  obtain ⟨top, inner⟩ := s
  cases inner <;> rfl

@[simp] theorem outer_insert (s : Scopes) (name : String) (value : Datum) :
    (s.insert name value).outer = s.outer := by
  obtain ⟨top, inner⟩ := s
  cases inner <;> rfl

/-- Closing a scope gives back the stack that it was opened on. -/
theorem leave_eq {s t : Scopes} (h : t.outer = s.all) : t.leave = s := by
  obtain ⟨top, inner⟩ := t
  obtain ⟨top', inner'⟩ := s
  cases inner with
  | nil => simp [outer, all] at h
  | cons c rest =>
    obtain ⟨rfl, htop⟩ := List.append_inj' (h : rest ++ [top] = inner' ++ [top']) rfl
    simp only [List.cons.injEq, and_true] at htop
    simp [leave, leave?, htop]

theorem lookup?_eq (s : Scopes) (name : String) :
    s.lookup? name = (s.innermost.lookup? name).or (s.outer.findSome? (·.lookup? name)) := by
  rw [lookup?, all_eq, List.findSome?_cons]
  cases s.innermost.lookup? name <;> rfl

/-- Installing a name at top level makes no difference to any other. -/
theorem lookup?_register_other (s : Scopes) {name x : String} (h : x ≠ name) (value : Datum) :
    (s.register name value).lookup? x = s.lookup? x := by
  simp [lookup?, register, all, List.findSome?_append, Scope.lookup?_insert_other _ h]

def standard (s : Scopes) : Bool := s.all.all Scope.standard

theorem standard_enter {s : Scopes} (h : s.standard = true) : s.enter.standard = true := h

theorem standard_leave {s : Scopes} (h : s.standard = true) : s.leave.standard = true := by
  obtain ⟨top, inner⟩ := s
  cases inner with
  | nil => exact h
  | cons c rest =>
    rw [standard, all, List.cons_append, List.all_cons, Bool.and_eq_true] at h
    exact h.2

theorem standard_insert {s : Scopes} (name : String) {value : Datum} (h : s.standard = true)
    (hv : value.standard = true) : (s.insert name value).standard = true := by
  rw [standard, all_eq, List.all_cons, Bool.and_eq_true] at h ⊢
  rw [innermost_insert, outer_insert]
  exact ⟨Scope.standard_put name h.1 hv, h.2⟩

theorem standard_lookup? {s : Scopes} {name : String} {value : Datum} (h : s.standard = true)
    (hl : s.lookup? name = some value) : value.standard = true := by
  obtain ⟨c, hc, hvalue⟩ := List.exists_of_findSome?_eq_some hl
  exact List.all_eq_true.1 (List.all_eq_true.1 h c hc) _ (Scope.mem_of_get? hvalue)

/-- What a run leaves of the scopes `s` that it began with. With `own`, the innermost scope is one
that was opened for the run. -/
structure Keeps (own : Bool) (s t : Scopes) : Prop where
  outer : t.outer = s.outer
  innermost : own = false → ∃ new, t.innermost.bindings = s.innermost.bindings ++ new ∧
    ∀ b ∈ new, s.lookup? b.1 = none

theorem Keeps.refl (own : Bool) (s : Scopes) : Keeps own s s :=
  ⟨rfl, fun _ => ⟨[], by simp, by simp⟩⟩

theorem Keeps.depth {own : Bool} {s t : Scopes} (h : Keeps own s t) : t.depth = s.depth := by
  rw [depth_eq, depth_eq, h.outer]

/-- What was bound before a run is bound to the same value after it. -/
theorem Keeps.lookup? {s t : Scopes} (h : Keeps false s t) {name : String} {value : Datum}
    (hs : s.lookup? name = some value) : t.lookup? name = some value := by
  obtain ⟨new, hnew, hunbound⟩ := h.innermost rfl
  have hname : Scope.get? name new = none := by
    rw [Option.eq_none_iff_forall_ne_some]
    intro v hv
    have hnone := hunbound _ (Scope.mem_of_get? hv)
    simp [hs] at hnone
  have hlookup : t.innermost.lookup? name = s.innermost.lookup? name := by
    simp [Scope.lookup?, hnew, Scope.get?_append, hname]
  rw [lookup?_eq, hlookup, h.outer, ← lookup?_eq, hs]

/-- What two runs keep one after the other, both of them together keep. -/
theorem Keeps.trans {own : Bool} {s t u : Scopes} (hst : Keeps own s t) (htu : Keeps own t u) :
    Keeps own s u := by
  refine ⟨htu.outer.trans hst.outer, ?_⟩
  rintro rfl
  obtain ⟨new, hnew, hunbound⟩ := hst.innermost rfl
  obtain ⟨more, hmore, hunbound'⟩ := htu.innermost rfl
  refine ⟨new ++ more, by rw [hmore, hnew, List.append_assoc], ?_⟩
  intro b hb
  rcases List.mem_append.1 hb with hb | hb
  · exact hunbound b hb
  · -- what is unbound later was unbound before
    rw [Option.eq_none_iff_forall_ne_some]
    intro v hv
    have hnone := hunbound' b hb
    rw [hst.lookup? hv] at hnone
    cases hnone

theorem keeps_insert (s : Scopes) (name : String) (value : Datum) :
    Keeps true s (s.insert name value) := ⟨outer_insert .., fun h => by cases h⟩

/-- A name that no scope binds may be bound, and nothing is lost by it. -/
theorem keeps_insertNew (own : Bool) {s : Scopes} {name : String} (value : Datum)
    (h : s.lookup? name = none) : Keeps own s (s.insert name value) := by
  refine ⟨outer_insert .., ?_⟩
  intro _
  have hinner : Scope.get? name s.innermost.bindings = none := by
    rw [lookup?_eq, Option.or_eq_none_iff] at h
    exact h.1
  refine ⟨[(name, value)], ?_, ?_⟩
  · rw [innermost_insert]
    exact Scope.put_of_unbound hinner value
  · simpa using h

theorem Keeps.leave {s t : Scopes} (h : Keeps true s.enter t) : t.leave = s := leave_eq h.outer

end Scopes
end Lisplet
