import Lisplet.Proofs.Eval.Assertion
import Lisplet.Proofs.Eval.Watch
import Lisplet.Proofs.Scopes.Values

/-!
What may be under evaluation at once. A discipline says which activations may
stand on one another and which values there may be. It only has to allow what
one activation does: to begin parts of its call and the body of a function, and
to end with a value. Then every evaluation that begins within the discipline
stays within it, at every moment, however it ends. At every moment, too, all
activations but the innermost one are calls that are counted, so there are never
more of them than the limit has room for; and it is exactly the call for which
there is no room that ends the evaluation with `tooDeep`.
-/
namespace Lisplet

def Activation.isCall (a : Activation) : Bool := a.datum.isCall

/-- The innermost of the activations, if there are any, is such on the ones that it stands on. -/
def Activation.Innermost (P : Activation → List Activation → Prop) : List Activation → Prop
  | [] => True
  | a :: rest => P a rest

def Datum.isConstant : Datum → Bool
  | ident .. | quote .. | list _ (_ :: _) => false
  | _ => true

/-- What is allowed of activations and of values. -/
structure Discipline where
  /-- The activations that may be in progress, the innermost first. -/
  stack : List Activation → Prop
  /-- The values that may be bound. -/
  value : Datum → Prop
  /-- The values with which an activation that stands on the given ones may end. -/
  result : List Activation → Datum → Prop
  part {a : Activation} {rest : List Activation} {p : Place} {items : List Datum} {e : Datum} :
    stack (a :: rest) → a.datum = .list p items → e ∈ items → stack (⟨e, false⟩ :: a :: rest)
  /-- In a part that is a list, as the binding of `let` is, an item may be evaluated. -/
  item {rest : List Activation} {p : Place} {items : List Datum} {e : Datum} :
    stack (⟨.list p items, false⟩ :: rest) → e ∈ items → stack (⟨e, false⟩ :: rest)
  body {a : Activation} {rest : List Activation} {p : Place} {name : String} {params : List String}
    {e : Datum} : stack (a :: rest) → a.isCall = true → value (.func p name params e) →
    stack (⟨e, true⟩ :: a :: rest)
  constant {a : Activation} {rest : List Activation} : stack (a :: rest) →
    a.datum.isConstant = true → result rest a.datum
  quote {a : Activation} {rest : List Activation} {p : Place} {d : Datum} : stack (a :: rest) →
    a.datum = .quote p d → result rest d
  /-- A function is made of what could be evaluated in its place. -/
  func {a : Activation} {rest : List Activation} {e : Datum} (p : Place) (params : List String) :
    stack (⟨e, false⟩ :: a :: rest) → result rest (.func p "" params e)
  result_of_value {v : Datum} (rest : List Activation) : value v → result rest v
  /-- Only the value of the whole need not be one that may be bound. -/
  value_of_result {a : Activation} {rest : List Activation} {v : Datum} :
    result (a :: rest) v → value v
  builtin {p : Place} {b : Builtin} : value (.builtin p b) → b ∈ Builtin.standard
  nil (p : Place) : value (.nil p)
  bool (p : Place) (b : Bool) : value (.bool p b)
  int (p : Place) (n : Int64) : value (.int p n)
  typeOf {v : Datum} (p : Place) : value v → value (.type p v.typeOf)
  named {v : Datum} (name : String) : value v → value (Form.named name v)

namespace Discipline

variable (D : Discipline) (k : Nat)

/-- A stack of activations that is allowed, where `k` calls were in progress already. -/
structure Fits (st : List Activation) : Prop where
  stack : D.stack st
  calls : ∀ a ∈ st.tail, a.isCall = true
  length : st.length + k ≤ maxCalls + 1

def Exceeds (st : List Activation) : Prop :=
  st.length + k = maxCalls + 1 ∧ ∃ a ∈ st.head?, a.isCall = true

/-- So many calls are counted while `active` is in progress, and the record is within the
discipline. -/
structure Within (active : List Activation) (calls : Nat) (s : State (Watched Scopes)) : Prop where
  active : s.scopes.active = active
  calls : s.calls = calls
  bound : s.scopes.bindings.Values D.value
  chains : ∀ st ∈ s.scopes.chains, D.Fits k st
  values : ∀ v ∈ s.scopes.values, D.result [] v
  counts : ∀ n ∈ s.scopes.counts, 0 < n

/-- The error is the one of the latest activation, which was one too many, or it has nothing to do
with the limit. -/
inductive Tells (e : EvalError) : List (List Activation) → Prop where
  | other {chains : List (List Activation)} : e.what ≠ .tooDeep →
      (∀ st ∈ chains, ¬ Exceeds k st) → Tells e chains
  | tooDeep {a : Activation} {rest : List Activation} {chains : List (List Activation)} :
      e = ⟨.tooDeep, a.datum.place⟩ → Exceeds k (a :: rest) → (∀ st ∈ chains, ¬ Exceeds k st) →
      Tells e ((a :: rest) :: chains)

variable {D k} {active : List Activation} {calls : Nat} {s t : State (Watched Scopes)}

theorem not_exceeds_of_isCall_eq_false {a : Activation} {rest : List Activation}
    (h : a.isCall = false) : ¬ Exceeds k (a :: rest) := by
  rintro ⟨-, _, ⟨⟩, hcall⟩
  rw [h] at hcall
  cases hcall

theorem result_nil {rest : List Activation} {v : Datum} (h : D.result rest v) : D.result [] v := by
  cases rest with
  | nil => exact h
  | cons a rest => exact D.result_of_value [] (D.value_of_result h)

/-- An activation may begin if it fits on those in progress. -/
theorem Within.begin {a : Activation} (h : D.Within k active calls s)
    (hfits : D.Fits k (a :: active)) :
    D.Within k (a :: active) calls { s with scopes := s.scopes.begin a } where
  active := by simp [Watched.begin, h.active]
  calls := h.calls
  bound := h.bound
  chains := by
    rw [Watched.begin, h.active]
    exact List.forall_mem_cons.2 ⟨hfits, h.chains⟩
  values := h.values
  counts := h.counts

/-- An activation may end with a value that is allowed of it. -/
theorem Within.finish {a : Activation} (h : D.Within k (a :: active) calls s)
    {value : Option Datum} (hv : ∀ v ∈ value, D.result active v) :
    D.Within k active calls { s with scopes := s.scopes.finish value } where
  active := by simp [Watched.finish, h.active]
  calls := h.calls
  bound := h.bound
  chains := h.chains
  values := by
    intro v hmem
    rcases List.mem_append.1 hmem with hmem | hmem
    · exact result_nil (hv v (Option.mem_toList.1 hmem))
    · exact h.values v hmem
  counts := h.counts

/-- A call ends: its count is noted and taken off. -/
theorem Within.endCall (h : D.Within k active (calls + 1) s) :
    D.Within k active calls { s with
      calls := s.calls - 1
      scopes := { s.scopes with counts := s.calls :: s.scopes.counts } } where
  active := h.active
  calls := by simp [h.calls]
  bound := h.bound
  chains := h.chains
  values := h.values
  counts := List.forall_mem_cons.2 ⟨by rw [h.calls]; exact Nat.succ_pos _, h.counts⟩

/-- What holds in an activation, with `active` in progress around what it does. -/
def during (D : Discipline) (k : Nat) (active : List Activation) :
    Assertion (Watched Scopes) where
  state s := D.Within k active (active.length + k) s ∧ ∀ st ∈ s.scopes.chains, ¬ Exceeds k st
  value := D.value
  failure e s := D.Within k active (active.length + k) s ∧ Tells k e s.scopes.chains
  lookup h hl := h.1.bound.lookup? hl
  insert name h hv := ⟨{ h.1 with
    bound := h.1.bound.insert name hv
    values := List.forall_mem_cons.2 ⟨D.result_of_value [] hv, h.1.values⟩ }, h.2⟩
  enter h := ⟨{ h.1 with bound := h.1.bound.enter }, h.2⟩
  leave _ h := ⟨{ h.1 with bound := h.1.bound.leave }, h.2⟩
  leave_failure _ h := ⟨{ h.1 with bound := h.1.bound.leave }, h.2⟩
  print _ h := ⟨{ h.1 with }, h.2⟩
  fail _ h hfault := ⟨h.1, .other hfault h.2⟩
  nil := D.nil
  bool := D.bool
  int := D.int
  typeOf := D.typeOf
  named := D.named

variable {a : Activation} {rest : List Activation}

structure Finishes (D : Discipline) (k : Nat) (a : Activation) (rest : List Activation)
    (p : Except EvalError Datum × State (Watched Scopes)) : Prop where
  within : D.Within k (a :: rest) (rest.length + k) p.2
  ok : ∀ v, p.1 = .ok v → D.result rest v ∧ ∀ st ∈ p.2.scopes.chains, ¬ Exceeds k st
  error : ∀ e, p.1 = .error e → Tells k e p.2.scopes.chains

theorem Finishes.value {v : Datum} (hs : D.Within k (a :: rest) (rest.length + k) s)
    (hchains : ∀ st ∈ s.scopes.chains, ¬ Exceeds k st) (hv : D.result rest v) :
    Finishes D k a rest (.ok v, s) :=
  ⟨hs, by rintro _ ⟨⟩; exact ⟨hv, hchains⟩, by rintro _ ⟨⟩⟩

/-- Run as an activation, what finishes well ends well for the activations around it. -/
theorem Finishes.ends {x : Run (Watched Scopes) Datum}
    (h : Finishes D k a rest (x { s with scopes := s.scopes.begin a })) :
    (D.during k rest).Ends (D.result rest) (Eval.activation a x s) := by
  rw [Eval.activation_run]
  rcases hx : x { s with scopes := s.scopes.begin a } with ⟨r, t⟩
  rw [hx] at h
  cases r with
  | ok v =>
    obtain ⟨hv, hchains⟩ := h.ok v rfl
    refine ⟨?_, by rintro _ ⟨⟩⟩
    rintro _ ⟨⟩
    exact ⟨hv, h.within.finish (by rintro _ ⟨⟩; exact hv), hchains⟩
  | error e =>
    refine ⟨by rintro _ ⟨⟩, ?_⟩
    rintro _ ⟨⟩
    exact ⟨h.within.finish (by rintro _ ⟨⟩), h.error e rfl⟩

/-- A call ends as its parts make it end, unless there is no room for it. Then its activation is the
latest one, and one too many. -/
theorem finishes_call {x : Run (Watched Scopes) Datum} {chains : List (List Activation)}
    (hs : D.Within k (a :: rest) (rest.length + k) s) (hcall : a.isCall = true)
    (hchains : s.scopes.chains = (a :: rest) :: chains) (hbefore : ∀ st ∈ chains, ¬ Exceeds k st)
    (hmax : rest.length + k ≤ maxCalls)
    (hx : rest.length + k < maxCalls → (D.during k (a :: rest)).Holds (D.result rest) x) :
    Finishes D k a rest (Eval.inCall a.datum.place (Eval.counted x) s) := by
  have hlength : (a :: rest).length + k = rest.length + k + 1 := by
    rw [List.length_cons, Nat.add_right_comm]
  rw [Eval.inCall_run, hs.calls]
  split
  next hroom =>
    have hinner : (D.during k (a :: rest)).state { s with calls := rest.length + k + 1 } := by
      refine ⟨{ hs with calls := hlength.symm }, ?_⟩
      rw [hchains]
      refine List.forall_mem_cons.2 ⟨?_, hbefore⟩
      rintro ⟨hfull, -⟩
      omega
    have hends := (hx hroom).ends _ hinner
    rw [Eval.counted_run]
    rcases hp : x { s with calls := rest.length + k + 1 } with ⟨r, t⟩
    rw [hp] at hends
    cases r with
    | ok v =>
      obtain ⟨hv, ht, hnone⟩ := hends.ok v rfl
      rw [hlength] at ht
      exact .value ht.endCall hnone hv
    | error e =>
      obtain ⟨ht, htells⟩ := hends.error e rfl
      rw [hlength] at ht
      exact ⟨ht.endCall, by rintro _ ⟨⟩, by rintro _ ⟨⟩; exact htells⟩
  next hroom =>
    refine ⟨hs, by rintro _ ⟨⟩, ?_⟩
    rintro _ ⟨⟩
    rw [hchains]
    exact .tooDeep rfl ⟨by simp only [List.length_cons]; omega, a, rfl, hcall⟩ hbefore

/-- What is no call begins no other activation, and so is never one too many. -/
theorem finishes_other {call : Place → Datum → List Datum → Run (Watched Scopes) Datum}
    (hs : D.Within k (a :: rest) (rest.length + k) s) (hcall : a.isCall = false)
    (hstack : D.stack (a :: rest)) (hchains : ∀ st ∈ s.scopes.chains, ¬ Exceeds k st) :
    Finishes D k a rest (Eval.evaluateWith call a.datum s) := by
  obtain ⟨d, isBody⟩ := a
  cases d with
  | ident p x =>
    rw [Eval.evaluateWith, Eval.bind_run, Eval.lookup?_run]
    cases hl : Bindings.lookup? s.scopes x with
    | some v => exact .value hs hchains (D.result_of_value rest (hs.bound.lookup? hl))
    | none => exact ⟨hs, by rintro _ ⟨⟩, by rintro _ ⟨⟩; exact .other (by rintro ⟨⟩) hchains⟩
  | quote p d => exact .value hs hchains (D.quote hstack rfl)
  | list p items =>
    cases items with
    | nil => exact .value hs hchains (D.constant hstack rfl)
    | cons head args => cases hcall
  | _ => exact .value hs hchains (D.constant hstack rfl)

/-- What a call does, given that the activations inside it do well. -/
theorem holds_callParts (hosts : Hosts (Watched Scopes)) {n : Nat} {p : Place} {head : Datum}
    {args : List Datum} (ha : a.datum = .list p (head :: args)) (hstack : D.stack (a :: rest))
    (h : ∀ e isBody, D.stack (⟨e, isBody⟩ :: a :: rest) →
      (D.during k (a :: rest)).Holds (D.result (a :: rest)) (Eval.watch hosts n isBody e)) :
    (D.during k (a :: rest)).Holds (D.result rest)
      (Eval.callParts hosts (Eval.watch hosts n false) (Eval.watch hosts n true) p head args) := by
  have hcall : a.isCall = true := by rw [Activation.isCall, ha]; rfl
  have hpart : ∀ e ∈ head :: args, D.stack (⟨e, false⟩ :: a :: rest) :=
    fun e he => D.part hstack ha he
  have hwatch : ∀ e, D.stack (⟨e, false⟩ :: a :: rest) →
      (D.during k (a :: rest)).Holds D.value (Eval.watch hosts n false e) :=
    fun e he => (h e false he).mono fun _ => D.value_of_result
  refine Assertion.holds_callParts hwatch ?_ ?_ ?_ hosts p (hpart head (by simp))
    (fun e he => hpart e (by simp [he])) ?_ ?_
  · intro _ _ hlist e he
    exact D.item hlist he
  · intro v
    exact D.result_of_value rest
  · intro p params e he
    exact D.func p params he
  · intro _ _
    exact D.builtin
  · intro _ _ _ e he
    refine (h e true (D.body hstack hcall he)).mono ?_
    intro v hv
    exact D.result_of_value rest (D.value_of_result hv)

/-- An activation that may begin does well, on any activations that are calls in progress. The
induction is on the room for activations, of which there is enough for the limit. -/
theorem holds_watch (hosts : Hosts (Watched Scopes)) {n : Nat} {isBody : Bool} {d : Datum}
    (hrest : ∀ a ∈ rest, a.isCall = true) (hmax : rest.length + k ≤ maxCalls)
    (hn : maxCalls < rest.length + k + n) (hstack : D.stack (⟨d, isBody⟩ :: rest)) :
    (D.during k rest).Holds (D.result rest) (Eval.watch hosts n isBody d) := by
  induction n generalizing rest isBody d with
  | zero => omega
  | succ n ih =>
    constructor
    rintro s ⟨hs, hbefore⟩
    have hlength : (⟨d, isBody⟩ :: rest : List Activation).length + k = rest.length + k + 1 := by
      rw [List.length_cons, Nat.add_right_comm]
    have hbegun := hs.begin ⟨hstack, hrest, by omega⟩
    have hchains : (s.scopes.begin ⟨d, isBody⟩).chains = (⟨d, isBody⟩ :: rest) :: s.scopes.chains := by
      rw [Watched.begin, hs.active]
    refine Finishes.ends ?_
    cases hcall : d.isCall with
    | false =>
      refine finishes_other (a := ⟨d, isBody⟩) hbegun hcall hstack ?_
      rw [hchains]
      exact List.forall_mem_cons.2 ⟨not_exceeds_of_isCall_eq_false hcall, hbefore⟩
    | true =>
      obtain ⟨p, head, args, rfl⟩ := Datum.exists_of_isCall hcall
      refine finishes_call (a := ⟨.list p (head :: args), isBody⟩) hbegun hcall hchains hbefore hmax ?_
      intro hroom
      refine holds_callParts hosts rfl hstack ?_
      intro e isBody' he
      refine ih (List.forall_mem_cons.2 ⟨hcall, hrest⟩) ?_ ?_ he
      · omega
      · omega

end Discipline
end Lisplet
