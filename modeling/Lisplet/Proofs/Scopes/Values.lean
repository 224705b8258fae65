import Lisplet.Proofs.Scopes.Stack

/-!
A property of all values that are bound, in whatever scope. Every operation on
scopes keeps it that binds only values with the property.
-/
namespace Lisplet

theorem Scope.forall_put {P : Datum → Prop} {name : String} {value : Datum}
    {bs : List (String × Datum)} (hbs : ∀ b ∈ bs, P b.2) (hv : P value) :
    ∀ b ∈ put name value bs, P b.2 := by
  induction bs with
  | nil => simpa [put] using hv
  | cons b bs ih =>
    obtain ⟨hb, hbs⟩ := List.forall_mem_cons.1 hbs
    rw [put]
    split
    · exact List.forall_mem_cons.2 ⟨hv, hbs⟩
    · exact List.forall_mem_cons.2 ⟨hb, ih hbs⟩

namespace Scopes

variable {P : Datum → Prop} {s : Scopes}

def Values (P : Datum → Prop) (s : Scopes) : Prop := ∀ c ∈ s.all, ∀ b ∈ c.bindings, P b.2

theorem Values.enter (h : s.Values P) : s.enter.Values P :=
  List.forall_mem_cons.2 ⟨fun _ hb => absurd hb List.not_mem_nil, h⟩

theorem Values.insert (h : s.Values P) (name : String) {value : Datum} (hv : P value) :
    (s.insert name value).Values P := by
  rw [Values, all_eq, List.forall_mem_cons] at h ⊢
  rw [innermost_insert, outer_insert]
  exact ⟨Scope.forall_put h.1 hv, h.2⟩

theorem Values.leave (h : s.Values P) : s.leave.Values P := by
  obtain ⟨top, inner⟩ := s
  cases inner with
  | nil => exact h
  | cons c rest => exact fun c' hc' => h c' (List.mem_cons_of_mem _ hc')

theorem Values.register (h : s.Values P) (name : String) {value : Datum} (hv : P value) :
    (s.register name value).Values P := by
  rw [Values, all, List.forall_mem_append] at h ⊢
  refine ⟨h.1, ?_⟩
  simpa [Scopes.register, Scope.insert] using Scope.forall_put (by simpa using h.2) hv

/-- At the start of a session nothing is bound but built-in forms. -/
theorem values_withBuiltins {forms : List Builtin}
    (h : ∀ b ∈ forms, P (.builtin default b)) : (withBuiltins forms).Values P := by
  have hfold : ∀ (bs : List Builtin) (s : Scopes), (∀ b ∈ bs, P (.builtin default b)) →
      s.Values P → (bs.foldl (fun s b => s.register b.name (.builtin default b)) s).Values P := by
    intro bs
    induction bs with
    | nil => exact fun _ _ hs => hs
    | cons b bs ih =>
      intro s hbs hs
      obtain ⟨hb, hbs⟩ := List.forall_mem_cons.1 hbs
      exact ih _ hbs (hs.register b.name hb)
  exact hfold forms {} h (by simp [Values, all])

theorem Values.lookup? (h : s.Values P) {name : String} {value : Datum}
    (hl : s.lookup? name = some value) : P value := by
  obtain ⟨c, hc, hvalue⟩ := List.exists_of_findSome?_eq_some hl
  exact h c hc _ (Scope.mem_of_get? hvalue)

theorem standard_iff_values : s.standard = true ↔ s.Values (·.standard = true) := by
  simp only [standard, Scope.standard, Values, List.all_eq_true]

end Scopes
end Lisplet
