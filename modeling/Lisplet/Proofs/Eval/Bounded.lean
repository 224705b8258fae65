import Lisplet.Proofs.Eval.Discipline

/-!
Evaluation ends, and takes no more activations at once than there is room for.
Standard data keep standard, which is a discipline; so every evaluation of a
standard datum stays within the limit. What is bound may be as recursive as it
likes: a chain of calls that would become too long ends at the call that is one
too many.
-/
namespace Lisplet

/-- Only standard data are evaluated, and so all values are standard. -/
def Discipline.standard : Discipline where
  stack := Activation.Innermost fun a _ => a.datum.standard = true
  value v := v.standard = true
  result _ v := v.standard = true
  part {a rest p items e} h ha he := by
    have hitems : a.datum.standard = true := h
    rw [ha, Datum.standard, Datum.standardAll_iff] at hitems
    exact hitems e he
  item {rest p items e} h he := by
    have hitems : (Datum.list p items).standard = true := h
    rw [Datum.standard, Datum.standardAll_iff] at hitems
    exact hitems e he
  body _ _ he := he
  constant h _ := h
  quote {a rest p d} h ha := by
    have hquote : a.datum.standard = true := h
    rw [ha] at hquote
    exact hquote
  func _ _ h := h
  result_of_value _ h := h
  value_of_result h := h
  builtin h := of_decide_eq_true h
  nil _ := rfl
  bool _ _ := rfl
  int _ _ := rfl
  typeOf _ _ := rfl
  named name h := standard_named name h

namespace Eval

def watched (d : Datum) (s : State) : Except EvalError Datum × State (Watched Scopes) :=
  watch [] (maxCalls + 1) false d s.watched

/-- The evaluator does what it does under watch. -/
theorem evaluate_watched (hosts : Hosts) {d : Datum} {s : State} (hd : d.standard = true)
    (hs : s.scopes.standard = true) (hcalls : s.calls ≤ maxCalls) :
    evaluate hosts maxCalls d s = ((watched d s).1, (watched d s).2.forget) :=
  evaluate_watch (s := s.watched) [] hosts hd hs hcalls (Nat.lt_add_left _ (Nat.lt_succ_self _))

end Eval

namespace Discipline

/-- An empty record is within the discipline. -/
theorem during_watched (D : Discipline) {s : State} (hs : s.scopes.Values D.value) :
    (D.during s.calls []).state s.watched := by
  refine ⟨⟨rfl, (Nat.zero_add _).symm, hs, ?_, ?_, ?_⟩, ?_⟩
  all_goals exact fun _ h => absurd h List.not_mem_nil

/-- An evaluation that may begin ends within the discipline. -/
theorem ends_watched (D : Discipline) {d : Datum} {s : State} (hd : D.stack [⟨d, false⟩])
    (hs : s.scopes.Values D.value) (hcalls : s.calls ≤ maxCalls) :
    (D.during s.calls []).Ends (D.result []) (Eval.watched d s) := by
  refine (D.holds_watch [] (by simp) ?_ ?_ hd).ends s.watched (D.during_watched hs)
  · simpa using hcalls
  · simp only [List.length_nil]
    omega

variable {D : Discipline} {k : Nat} {P : Datum → Prop}
  {p : Except EvalError Datum × State (Watched Scopes)}

/-- However a watched run ends, the record is within the discipline. -/
theorem within_of_ends (h : (D.during k []).Ends P p) : D.Within k [] k p.2 := by
  rcases p with ⟨r, t⟩
  have hzero : ([] : List Activation).length + k = k := Nat.zero_add k
  cases r with
  | ok v =>
    have ht := (h.ok v rfl).2.1
    rwa [hzero] at ht
  | error e =>
    have ht := (h.error e rfl).1
    rwa [hzero] at ht

/-- If it ends with `tooDeep`, then the latest activation was one too many, and at its place. -/
theorem exists_of_tooDeep (h : (D.during k []).Ends P p) {place : Place}
    (hp : p.1 = .error ⟨.tooDeep, place⟩) : ∃ a rest chains,
      p.2.scopes.chains = (a :: rest) :: chains ∧ (a :: rest).length + k = maxCalls + 1 ∧
        a.isCall = true ∧ a.datum.place = place := by
  obtain ⟨-, htells⟩ := h.error _ hp
  generalize p.2.scopes.chains = chains at htells
  cases htells with
  | other hfault => exact absurd rfl hfault
  | @tooDeep a rest chains he hexceeds _ =>
    cases he
    obtain ⟨hfull, _, ⟨⟩, hcall⟩ := hexceeds
    exact ⟨a, rest, chains, rfl, hfull, hcall, rfl⟩

/-- It ends with `tooDeep` exactly if some activation was one too many, and at its place. Only the
latest activation can be. -/
theorem tooDeep_iff (h : (D.during k []).Ends P p) (place : Place) :
    p.1 = .error ⟨.tooDeep, place⟩ ↔ ∃ st ∈ p.2.scopes.chains,
      st.length + k = maxCalls + 1 ∧ ∃ a ∈ st.head?, a.isCall = true ∧ a.datum.place = place := by
  constructor
  · intro hp
    obtain ⟨a, rest, chains, hchains, hfull, hcall, hplace⟩ := exists_of_tooDeep h hp
    exact ⟨a :: rest, by simp [hchains], hfull, a, rfl, hcall, hplace⟩
  · rintro ⟨st, hst, hfull, a, ha, hcall, rfl⟩
    have hexceeds : Exceeds k st := ⟨hfull, a, ha, hcall⟩
    rcases p with ⟨r, t⟩
    cases r with
    | ok v => exact absurd hexceeds ((h.ok v rfl).2.2 st hst)
    | error e =>
      obtain ⟨-, htells⟩ := h.error e rfl
      simp only at hst htells
      generalize t.scopes.chains = chains at htells hst
      cases htells with
      | other _ hnone => exact absurd hexceeds (hnone st hst)
      | tooDeep he _ hnone =>
        rcases List.mem_cons.1 hst with rfl | hst
        · cases ha
          rw [he]
        · exact absurd hexceeds (hnone st hst)

end Discipline

namespace Eval

/-- However often functions call themselves or one another, evaluation ends: unrolled as deep as
there is room for calls, the recursion never gets to what lies beyond. Under watch, which makes no
difference, no more activations are ever in progress, and the evaluation ends with `tooDeep`
exactly if as many were, the innermost of them a call, and then at the place of that call. -/
theorem evaluate_bounded (hosts : Hosts) {d : Datum} {s : State} (hd : d.standard = true)
    (hs : s.scopes.standard = true) (hcalls : s.calls ≤ 256) :
    (∀ (beyond : Evaluator) (n : Nat), 257 ≤ s.calls + n →
      unroll hosts beyond n d s = evaluate hosts maxCalls d s) ∧
    ((evaluate hosts maxCalls d s).1 = (watched d s).1 ∧
      (evaluate hosts maxCalls d s).2 = (watched d s).2.forget) ∧
    (∀ st ∈ (watched d s).2.scopes.chains, st.length ≤ 257 - s.calls) ∧
    ∀ place, (watched d s).1 = .error ⟨.tooDeep, place⟩ ↔
      ∃ st ∈ (watched d s).2.scopes.chains, st.length = 257 - s.calls ∧
        ∃ a ∈ st.head?, a.isCall = true ∧ a.datum.place = place := by
  have hmax : maxCalls = 256 := rfl
  have hends := Discipline.standard.ends_watched (d := d) hd (Scopes.standard_iff_values.1 hs) hcalls
  have hwatch := evaluate_watched hosts hd hs hcalls
  refine ⟨?_, ⟨congrArg Prod.fst hwatch, congrArg Prod.snd hwatch⟩, ?_, ?_⟩
  · intro beyond n hn
    exact unroll_eq_evaluate hosts hosts beyond hd hs hcalls hn
  · intro st hst
    have hlength := ((Discipline.within_of_ends hends).chains st hst).length
    omega
  · intro place
    rw [Discipline.tooDeep_iff hends place]
    have hfull : ∀ st : List Activation,
        st.length + s.calls = maxCalls + 1 ↔ st.length = 257 - s.calls := by omega
    simp only [hfull]

/-- A function that calls itself, with room for six more calls. -/
theorem evaluate_bounded_runaway :
    let f : Datum := .func default "f" [] (.list ⟨0, 17⟩ [.ident ⟨0, 18⟩ "f"])
    let d : Datum := .list ⟨1, 0⟩ [.ident ⟨1, 1⟩ "f"]
    let s : State := { scopes := ⟨⟨[("f", f)]⟩, []⟩, calls := 250 }
    (∀ beyond, unroll [] beyond 7 d s = evaluate [] maxCalls d s) ∧
      (∀ st ∈ (watched d s).2.scopes.chains, st.length ≤ 7) ∧
      (evaluate [] maxCalls d s).1 = .error ⟨.tooDeep, ⟨0, 17⟩⟩ := by
  intro f d s
  obtain ⟨hunroll, ⟨hvalue, -⟩, hlength, hdeep⟩ :=
    evaluate_bounded [] (d := d) (s := s) (by decide) (by decide) (by decide)
  have hresult := (hdeep ⟨0, 17⟩).2 (by decide +kernel)
  exact ⟨fun beyond => hunroll beyond 7 (by decide), hlength, hvalue.trans hresult⟩

end Eval
end Lisplet
