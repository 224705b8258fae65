import Lisplet.Proofs.Datum.Relocate
import Lisplet.Proofs.Eval.Correspondence

/-!
Comparing two runs, over bindings of two kinds. A comparison says which data stand
for each other, and which states do; what it owes is told of these alone, one fact
for each operation on a state. Two runs compare if from states that stand for each
other they come to such states again, with results that do. The one exception is a
first run that fails where the second need not. Then there is an aftermath, in
which only the second goes on. Every operation of evaluation respects every
comparison.
-/
namespace Lisplet

/-- What may still come of the second run when the first one has ended: of the first, the error
and what it has printed are left. -/
structure Aftermath (ε δ : Type) [Bindings ε] [Bindings δ] (data : Datum → Datum → Prop) where
  late : EvalError → Sink → State δ → Prop
  lookup {e : EvalError} {out : Sink} {t : State δ} (name : String) : late e out t →
    ∃ v, Option.Rel data v (Bindings.lookup? t.scopes name)
  insert {e : EvalError} {out : Sink} {t : State δ} {c d : Datum} (name : String) :
    late e out t → data c d → late e out { t with scopes := Bindings.insert t.scopes name d }
  enterScope {e : EvalError} {out : Sink} {t : State δ} : late e out t →
    late e out { t with scopes := Bindings.enter t.scopes }
  leaveScope {e : EvalError} {out : Sink} {t : State δ} (outer : δ) : late e out t →
    late e out { t with scopes := Bindings.leave outer t.scopes }
  count {e : EvalError} {out : Sink} {t : State δ} (calls : Nat) : late e out t →
    late e out { t with calls := calls }
  print {e : EvalError} {out : Sink} {t : State δ} (line : String) : late e out t →
    late e out { t with out := t.out.tryLine line }

def Aftermath.never {ε δ : Type} [Bindings ε] [Bindings δ] {data : Datum → Datum → Prop} :
    Aftermath ε δ data where
  late _ _ _ := False
  lookup _ h := h.elim
  insert _ h _ := h
  enterScope h := h
  leaveScope _ h := h
  count _ h := h
  print _ h := h

/-- Which data, errors and states stand for each other, and to what states two runs may come from
such states; `own` says that the innermost scope has been opened for these runs alone. -/
structure Comparison (ε δ : Type) [Bindings ε] [Bindings δ] extends Correspondence where
  errors : EvalError → EvalError → Prop
  states : State ε → State δ → Prop
  reaches : Bool → State ε → State δ → State ε → State δ → Prop
  aftermath : Aftermath ε δ data := .never
  errors_fault {f g : Datum} (fault : EvalFault) : data f g →
    errors ⟨fault, f.place⟩ ⟨fault, g.place⟩
  errors_notCallable {f g d e : Datum} : data f g → data d e →
    errors ⟨.notCallable d, f.place⟩ ⟨.notCallable e, g.place⟩
  refl {own : Bool} {s : State ε} {t : State δ} : states s t → reaches own s t s t
  trans {own : Bool} {s s' s'' : State ε} {t t' t'' : State δ} :
    reaches own s t s' t' → reaches own s' t' s'' t'' → reaches own s t s'' t''
  states_of_reaches {own : Bool} {s s' : State ε} {t t' : State δ} :
    reaches own s t s' t' → states s' t'
  bound {s : State ε} {t : State δ} (name : String) : states s t →
    Option.Rel data (Bindings.lookup? s.scopes name) (Bindings.lookup? t.scopes name)
  binds {own : Bool} {s : State ε} {t : State δ} {d e : Datum} (name : String) : states s t →
    data d e → own = true ∨ Bindings.lookup? s.scopes name = none →
    reaches own s t { s with scopes := Bindings.insert s.scopes name d }
      { t with scopes := Bindings.insert t.scopes name e }
  enterScope {s : State ε} {t : State δ} : states s t →
    states { s with scopes := Bindings.enter s.scopes }
      { t with scopes := Bindings.enter t.scopes }
  leaveScope {own : Bool} {s s' : State ε} {t t' : State δ} : states s t →
    reaches true { s with scopes := Bindings.enter s.scopes }
      { t with scopes := Bindings.enter t.scopes } s' t' →
    reaches own s t { s' with scopes := Bindings.leave s.scopes s'.scopes }
      { t' with scopes := Bindings.leave t.scopes t'.scopes }
  room {s : State ε} {t : State δ} : states s t → s.calls < maxCalls → t.calls < maxCalls
  full {s : State ε} {t : State δ} (place : Place) : states s t → ¬ s.calls < maxCalls →
    t.calls < maxCalls → aftermath.late ⟨.tooDeep, place⟩ s.out t
  enterCall {s : State ε} {t : State δ} : states s t → s.calls < maxCalls →
    states { s with calls := s.calls + 1 } { t with calls := t.calls + 1 }
  leaveCall {own : Bool} {s s' : State ε} {t t' : State δ} : states s t →
    reaches own { s with calls := s.calls + 1 } { t with calls := t.calls + 1 } s' t' →
    reaches own s t { s' with calls := s'.calls - 1 } { t' with calls := t'.calls - 1 }
  prints {own : Bool} {s : State ε} {t : State δ} (line : String) : states s t →
    reaches own s t { s with out := s.out.tryLine line } { t with out := t.out.tryLine line }

namespace Comparison

variable {ε δ : Type} [Bindings ε] [Bindings δ] (C : Comparison ε δ) {α β α' β' : Type}

/-- How a second run ended that went on after the first. Every value is one that `P` relates some
value to. -/
structure GoesOn (P : α → β → Prop) (e : EvalError) (out : Sink)
    (q : Except EvalError β × State δ) : Prop where
  value : ∀ b, q.1 = .ok b → ∃ a, P a b
  late : C.aftermath.late e out q.2

inductive Ends (own : Bool) (P : α → β → Prop) (s : State ε) (t : State δ) :
    Except EvalError α × State ε → Except EvalError β × State δ → Prop where
  | alike {p : Except EvalError α × State ε} {q : Except EvalError β × State δ} :
      SameEnd C.errors P p.1 q.1 → C.reaches own s t p.2 q.2 → Ends own P s t p q
  | late {e : EvalError} {s' : State ε} {q : Except EvalError β × State δ} :
      C.GoesOn P e s'.out q → Ends own P s t (.error e, s') q

/-- Two runs compare by what their values have to be to each other. -/
structure Runs (own : Bool) (P : α → β → Prop) (x : Run ε α) (y : Run δ β) : Prop where
  ends {s : State ε} {t : State δ} : C.states s t → C.Ends own P s t (x s) (y t)
  goesOn {e : EvalError} {out : Sink} {t : State δ} : C.aftermath.late e out t →
    C.GoesOn P e out (y t)

def Exact : Prop := ∀ e out t, ¬ C.aftermath.late e out t

variable {C} {own : Bool} {P : α → β → Prop} {Q : α' → β' → Prop} {x : Run ε α} {y : Run δ β}
  {s s' : State ε} {t t' : State δ}

theorem Ends.exact {p : Except EvalError α × State ε} {q : Except EvalError β × State δ}
    (h : C.Ends own P s t p q) (hC : C.Exact) :
    SameEnd C.errors P p.1 q.1 ∧ C.reaches own s t p.2 q.2 := by
  cases h with
  | alike hresult hreaches => exact ⟨hresult, hreaches⟩
  | late hlate => exact absurd hlate.late (hC _ _ _)

theorem Ends.trans {p : Except EvalError α × State ε} {q : Except EvalError β × State δ}
    (h : C.Ends own P s' t' p q) (hreaches : C.reaches own s t s' t') : C.Ends own P s t p q := by
  cases h with
  | alike hresult hmore => exact .alike hresult (C.trans hreaches hmore)
  | late hlate => exact .late hlate

/-- After the first run has ended, the second one goes on with whatever comes next. -/
theorem GoesOn.bind {e : EvalError} {out : Sink} {f : α → Run ε α'} {g : β → Run δ β'}
    (h : C.GoesOn P e out (y t)) (hfg : ∀ a b, P a b → C.Runs own Q (f a) (g b)) :
    C.GoesOn Q e out ((y >>= g) t) := by
  rw [Eval.bind_run]
  rcases hq : y t with ⟨r, t'⟩
  rw [hq] at h
  cases r with
  | error e' => exact ⟨by rintro _ ⟨⟩, h.late⟩
  | ok b =>
    obtain ⟨a, hab⟩ := h.value b rfl
    exact (hfg a b hab).goesOn h.late

/-- The second run goes on with a call, and with what comes after it. -/
theorem GoesOn.inCall {e : EvalError} {out : Sink} (place : Place)
    (hgoes : ∀ {e out t}, C.aftermath.late e out t → C.GoesOn P e out (y t))
    (hlate : C.aftermath.late e out t) : C.GoesOn P e out (Eval.inCall place y t) := by
  rw [Eval.inCall_run]
  split
  · have hy := hgoes (C.aftermath.count (t.calls + 1) hlate)
    exact ⟨hy.value, C.aftermath.count _ hy.late⟩
  · exact ⟨by rintro _ ⟨⟩, hlate⟩

/-- Where there is room for the call in the second run only, the first one ends before it. -/
theorem Ends.inCall {f g : Datum} (hst : C.states s t) (hfg : C.data f g)
    (hends : s.calls < maxCalls → C.Ends own P { s with calls := s.calls + 1 }
      { t with calls := t.calls + 1 } (x { s with calls := s.calls + 1 })
      (y { t with calls := t.calls + 1 }))
    (hgoes : ∀ {e out t}, C.aftermath.late e out t → C.GoesOn P e out (y t)) :
    C.Ends own P s t (Eval.inCall f.place x s) (Eval.inCall g.place y t) := by
  by_cases hs : s.calls < maxCalls
  · have hxy := hends hs
    rw [Eval.inCall_run, Eval.inCall_run, if_pos hs, if_pos (C.room hst hs)]
    generalize x { s with calls := s.calls + 1 } = p at hxy ⊢
    generalize y { t with calls := t.calls + 1 } = q at hxy ⊢
    cases hxy with
    | alike hresult hreaches => exact .alike hresult (C.leaveCall hst hreaches)
    | late hlate => exact .late ⟨hlate.value, C.aftermath.count _ hlate.late⟩
  · rw [Eval.inCall_run, if_neg hs]
    by_cases ht : t.calls < maxCalls
    · exact .late (.inCall g.place hgoes (C.full f.place hst hs ht))
    · rw [Eval.inCall_run, if_neg ht]
      exact .alike (.error (C.errors_fault .tooDeep hfg)) (C.refl hst)

variable (C)

protected theorem pure {a : α} {b : β} (h : P a b) : C.Runs own P (pure a) (pure b) :=
  ⟨fun hst => .alike (.ok h) (C.refl hst), fun hlate => ⟨by rintro _ ⟨⟩; exact ⟨a, h⟩, hlate⟩⟩

/-- Runs that go on alike from values that stand for each other compare as wholes. If the first part
of the one has failed, the other goes on with both of its parts. -/
protected theorem bind {f : α → Run ε α'} {g : β → Run δ β'} (hxy : C.Runs own P x y)
    (hfg : ∀ a b, P a b → C.Runs own Q (f a) (g b)) : C.Runs own Q (x >>= f) (y >>= g) := by
  refine ⟨?_, fun hlate => (hxy.goesOn hlate).bind hfg⟩
  intro s t hst
  have h := hxy.ends hst
  rw [Eval.bind_run]
  rcases hp : x s with ⟨r, s'⟩
  rw [hp] at h
  cases h with
  | late hlate => exact .late (hlate.bind hfg)
  | alike hresult hreaches =>
    rw [Eval.bind_run]
    rcases hq : y t with ⟨r', t'⟩
    rw [hq] at hresult hreaches
    cases hresult with
    | error he => exact .alike (.error he) hreaches
    | ok hab => exact ((hfg _ _ hab).ends (C.states_of_reaches hreaches)).trans hreaches

theorem throw {fault fault' : EvalFault} {p q : Place} (h : C.errors ⟨fault, p⟩ ⟨fault', q⟩) :
    C.Runs own P (Eval.fail fault p) (Eval.fail fault' q) :=
  ⟨fun hst => .alike (.error h) (C.refl hst), fun hlate => ⟨by rintro _ ⟨⟩, hlate⟩⟩

theorem fail {f g : Datum} (fault : EvalFault) (hfg : C.data f g) :
    C.Runs own P (Eval.fail fault f.place) (Eval.fail fault g.place) :=
  C.throw (C.errors_fault fault hfg)

theorem notCallable {f g d e : Datum} (hfg : C.data f g) (hde : C.data d e) :
    C.Runs own P (Eval.fail (.notCallable d) f.place) (Eval.fail (.notCallable e) g.place) :=
  C.throw (C.errors_notCallable hfg hde)

theorem lookup (name : String) :
    C.Runs own (Option.Rel C.data) (Eval.lookup? name) (Eval.lookup? name) := by
  refine ⟨fun hst => .alike (.ok (C.bound name hst)) (C.refl hst), fun hlate => ⟨?_, hlate⟩⟩
  rintro _ ⟨⟩
  exact C.aftermath.lookup name hlate

theorem insert {d e : Datum} (name : String) (hde : C.data d e) :
    C.Runs true (fun _ _ => True) (Eval.insert name d) (Eval.insert name e) :=
  ⟨fun hst => .alike (.ok trivial) (C.binds name hst hde (.inl rfl)),
    fun hlate => ⟨fun _ _ => ⟨(), trivial⟩, C.aftermath.insert name hlate hde⟩⟩

/-- Both runs find the name bound, or neither does. -/
theorem insertNew {d e : Datum} (name : String) (hde : C.data d e) :
    C.Runs own Eq (Eval.insertNew name d) (Eval.insertNew name e) := by
  constructor
  · intro s t hst
    have hbound := C.bound name hst
    rw [Eval.insertNew_run, Eval.insertNew_run]
    cases hs : Bindings.lookup? s.scopes name with
    | some v =>
      cases ht : Bindings.lookup? t.scopes name with
      | some w => exact .alike (.ok rfl) (C.refl hst)
      | none => rw [hs, ht] at hbound; cases hbound
    | none =>
      cases ht : Bindings.lookup? t.scopes name with
      | some w => rw [hs, ht] at hbound; cases hbound
      | none => exact .alike (.ok rfl) (C.binds name hst hde (.inr hs))
  · intro err out t hlate
    rw [Eval.insertNew_run]
    split
    · exact ⟨fun b _ => ⟨b, rfl⟩, hlate⟩
    · exact ⟨fun b _ => ⟨b, rfl⟩, C.aftermath.insert name hlate hde⟩

/-- The runs inside have the innermost scope for themselves. -/
theorem inScope (h : C.Runs true P x y) : C.Runs own P (Eval.inScope x) (Eval.inScope y) := by
  constructor
  · intro s t hst
    have hxy := h.ends (C.enterScope hst)
    rw [Eval.inScope_run, Eval.inScope_run]
    generalize x { s with scopes := Bindings.enter s.scopes } = p at hxy ⊢
    generalize y { t with scopes := Bindings.enter t.scopes } = q at hxy ⊢
    cases hxy with
    | alike hresult hreaches => exact .alike hresult (C.leaveScope hst hreaches)
    | late hlate => exact .late ⟨hlate.value, C.aftermath.leaveScope _ hlate.late⟩
  · intro e out t hlate
    have hy := h.goesOn (C.aftermath.enterScope hlate)
    exact ⟨hy.value, C.aftermath.leaveScope _ hy.late⟩

theorem inCall {f g : Datum} (hfg : C.data f g) (h : C.Runs own P x y) :
    C.Runs own P (Eval.inCall f.place x) (Eval.inCall g.place y) :=
  ⟨fun hst => .inCall hst hfg (fun hs => h.ends (C.enterCall hst hs)) h.goesOn,
    fun hlate => .inCall g.place h.goesOn hlate⟩

theorem print (line : String) :
    C.Runs own (fun _ _ => True) (Eval.print line) (Eval.print line) :=
  ⟨fun hst => .alike (.ok trivial) (C.prints line hst),
    fun hlate => ⟨fun _ _ => ⟨(), trivial⟩, C.aftermath.print line hlate⟩⟩

end Comparison
end Lisplet
