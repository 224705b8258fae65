import Lisplet.Proofs.Eval.Bounded
import Lisplet.Proofs.Session.Kept

/-!
Disciplines of whole sessions. A new session binds the standard forms only; if
these may be bound, and all that is evaluated in it may begin, then whatever is
bound later may be bound as well.
-/
namespace Lisplet

namespace Datum

/-- A built-in that is standard, a function with such a body, or another value that is such. -/
def Bindable (body plain : Datum → Prop) : Datum → Prop
  | builtin _ b => b ∈ Builtin.standard
  | func _ _ _ e => body e
  | v => plain v

variable {body plain : Datum → Prop} {v : Datum}

theorem bindable_of_functionFree (hv : v.functionFree = true) (h : plain v) :
    v.Bindable body plain := by
  cases v with
  | builtin => cases hv
  | func => cases hv
  | _ => exact h

theorem Bindable.named (h : v.Bindable body plain) (name : String) :
    (Form.named name v).Bindable body plain := by
  unfold Form.named
  split
  · exact h
  · exact h

end Datum

namespace Session

def evalEach (s : Session) : List Datum → Session
  | [] => s
  | d :: ds => evalEach (s.eval d).2 ds

variable {D : Discipline} {s : Session}

/-- Under watch, evaluation in a session does what it does. -/
theorem eval_watched {d : Datum} (hs : s.Settled) (hd : d.standard = true) :
    (s.eval d).1 = (Eval.watched d s.state).1 ∧
      (s.eval d).2.state = (Eval.watched d s.state).2.forget := by
  have hcalls : s.state.calls ≤ maxCalls := by rw [hs.calls]; exact Nat.zero_le _
  have h := Eval.evaluate_watched s.hosts hd hs.standard hcalls
  exact ⟨congrArg Prod.fst h, congrArg Prod.snd h⟩

theorem ends_eval {d : Datum} (hs : s.Settled) (hv : s.state.scopes.Values D.value)
    (hd : D.stack [⟨d, false⟩]) : (D.during 0 []).Ends (D.result []) (Eval.watched d s.state) := by
  have h := D.ends_watched hd hv (by rw [hs.calls]; exact Nat.zero_le _)
  rwa [hs.calls] at h

theorem values_eval {d : Datum} (hs : s.Settled) (hv : s.state.scopes.Values D.value)
    (hd : d.standard = true) (hstack : D.stack [⟨d, false⟩]) :
    (s.eval d).2.state.scopes.Values D.value := by
  rw [(eval_watched hs hd).2]
  exact (Discipline.within_of_ends (ends_eval hs hv hstack)).bound

/-- All data may begin, so all that they bind may be bound. The session is settled in between. -/
theorem values_evalEach {ds : List Datum} (hs : s.Settled) (hv : s.state.scopes.Values D.value)
    (hds : ∀ d ∈ ds, d.standard = true ∧ D.stack [⟨d, false⟩]) :
    (s.evalEach ds).Settled ∧ (s.evalEach ds).state.scopes.Values D.value := by
  induction ds generalizing s with
  | nil => exact ⟨hs, hv⟩
  | cons d ds ih =>
    obtain ⟨⟨hd, hstack⟩, hds⟩ := List.forall_mem_cons.1 hds
    exact ih (continues_eval hs hd).settled (values_eval hs hv hd hstack) hds

end Session
end Lisplet
