import Lisplet.Proofs.Eval.Muted
import Lisplet.Proofs.Session.Progress

/-!
Sessions that cannot print. Whatever is run in a session whose sink is broken,
the answer is the one that a session with any other sink gives, and so are the
bindings that are left. The console shows what it shows on a screen of its own,
and shows the same there.
-/
namespace Lisplet

namespace Session

def withOut (s : Session) (o : Sink) : Session := { s with state := s.state.withOut o }

def Standard (s : Session) : Prop := s.state.scopes.standard = true

variable {o : Sink} {s s' : Session} {d : Datum}

theorem Standard.eval (hs : s.Standard) (hd : d.standard = true) : (s.eval d).2.Standard :=
  (Eval.flattens_evaluate s.hosts [] maxCalls hd hs).standard

theorem eval_withOut (ho : o.broken = true) (hs : s.Standard) (hd : d.standard = true) :
    (s.withOut o).eval d = ((s.eval d).1, (s.eval d).2.withOut o) := by
  have h := Eval.evaluate_withOut ho s.hosts maxCalls hd hs
  exact congrArg (fun p => (p.1, { s with state := p.2 })) h

section Runs

variable {σ : Type} [Source σ] {r : Reader σ}

/-- The induction is on the run of the session that can print. -/
theorem evalAll_withOut (ho : o.broken = true) (last : Datum) (hs : s.Standard) (hr : r.Idle) :
    (s.withOut o).evalAll last r =
      ((s.evalAll last r).1, (s.evalAll last r).2.1.withOut o, (s.evalAll last r).2.2) := by
  fun_induction evalAll last s r with
  | case1 last s r e r' hread => rw [evalAll_eq, hread]
  | case2 last s r r' hread => rw [evalAll_eq, hread]
  | case3 last s r d r' hread e s' heval =>
    have hd := (Reader.settles_read? hr).standard d (by rw [hread])
    rw [evalAll_eq, hread]
    simp only [eval_withOut ho hs hd, heval]
  | case4 last s r d r' hread value s' heval ih =>
    have hsettles := Reader.settles_read? hr
    rw [hread] at hsettles
    have hd := hsettles.standard d rfl
    have hs' := hs.eval hd
    rw [heval] at hs'
    rw [evalAll_eq, hread]
    simp only [eval_withOut ho hs hd, heval]
    exact ih hs' hsettles.idle

theorem runAll_withOut (ho : o.broken = true) (hs : s.Standard) (hr : r.Idle) :
    (s.withOut o).runAll r = ((s.runAll r).1, (s.runAll r).2.withOut o) := by
  rw [runAll_eq default, runAll_eq default, evalAll_withOut ho default hs hr]
  rcases s.evalAll default r with ⟨x, s', r'⟩
  cases x <;> rfl

/-- A turn shows the same whether `print` can write or not. -/
theorem turn?_withOut (ho : o.broken = true) (hs : s.Standard) (hr : r.Idle) :
    (s.withOut o).turn? r =
      (s.turn? r).map fun (text, s', r') => (text, s'.withOut o, r') := by
  have hline := Reader.settles_readLine? hr
  unfold turn?
  split
  next => rfl
  next => rfl
  next d r' hread =>
    have hd := hline.standard d (by rw [hread])
    rw [eval_withOut ho hs hd]
    rcases s.eval d with ⟨x, s'⟩
    cases x <;> rfl

theorem Standard.turn? (hs : s.Standard) (hr : r.Idle) {text : String} {r' : Reader σ}
    (h : s.turn? r = some (text, s', r')) : s'.Standard ∧ r'.Idle := by
  have hline := Reader.settles_readLine? hr
  unfold Session.turn? at h
  split at h
  next => cases h
  next =>
    cases h
    exact ⟨hs, rfl, rfl⟩
  next d q hread =>
    rw [hread] at hline
    have hd := hs.eval (hline.standard d rfl)
    split at h
    next heval =>
      cases h
      rw [heval] at hd
      exact ⟨hd, hline.idle⟩
    next heval =>
      cases h
      rw [heval] at hd
      exact ⟨hd, rfl, rfl⟩

/-- The induction is on the turns of the session that can print. -/
theorem console_withOut (ho : o.broken = true) (screen : Sink) (hs : s.Standard) (hr : r.Idle) :
    (s.withOut o).console screen r =
      { s.console screen r with session := (s.console screen r).session.withOut o } := by
  fun_induction console s screen r with
  | case1 s screen r hturn =>
    have hmuted := turn?_withOut ho hs hr
    rw [hturn] at hmuted
    exact console_of_end hmuted
  | case2 s screen r text s' r' hturn hwrite =>
    have hmuted := turn?_withOut ho hs hr
    rw [hturn] at hmuted
    rw [console_of_turn? hmuted, hwrite]
  | case3 s screen r text s' r' hturn screen' hwrite ih =>
    have hmuted := turn?_withOut ho hs hr
    rw [hturn] at hmuted
    obtain ⟨hs', hr'⟩ := hs.turn? hr hturn
    rw [console_of_turn? hmuted, hwrite]
    exact ih hs' hr'

end Runs

/-- A broken sink in place of any other changes no answer and no binding: not of an expression, of a
text or of a script, nor on the console, which shows the same. -/
theorem runs_withOut (ho : o.broken = true) :
    (∀ (hosts : Hosts) (room : Nat) (d : Datum) (s : State), d.standard = true →
      s.scopes.standard = true →
      Eval.evaluate hosts room d (s.withOut o) =
        ((Eval.evaluate hosts room d s).1, (Eval.evaluate hosts room d s).2.withOut o)) ∧
    ∀ s : Session, s.Standard →
      (∀ text, (s.withOut o).evalText text =
        ((s.evalText text).1, (s.evalText text).2.withOut o)) ∧
      (∀ text, (s.withOut o).runScript text =
        ((s.runScript text).1, (s.runScript text).2.withOut o)) ∧
      ∀ (σ : Type) [Source σ] (screen : Sink) (r : Reader σ), r.Idle →
        (s.withOut o).console screen r =
          { s.console screen r with session := (s.console screen r).session.withOut o } := by
  refine ⟨fun hosts room d s hd hs => Eval.evaluate_withOut ho hosts room hd hs, ?_⟩
  intro s hs
  refine ⟨fun text => ?_, fun text => runAll_withOut ho hs (Reader.idle_ofSource _), ?_⟩
  · have h := evalAll_withOut ho (.nil default) hs
      (Reader.idle_ofSource (LineReader.ofText text))
    exact congrArg (fun p => (p.1, p.2.1)) h
  · intro σ _ screen r hr
    exact console_withOut ho screen hs hr

/-- A line is printed or is lost, and what is bound to the answer is the same. -/
theorem runs_withOut_lost :
    let o : Sink := ⟨"", true⟩
    let text := "(set x (print 1))\n(/ x 2)"
    let r := Reader.ofSource (LineReader.ofText text)
    ((fresh.withOut o).evalText text).1 = (fresh.evalText text).1 ∧
      ((fresh.withOut o).evalText text).2.state.scopes = (fresh.evalText text).2.state.scopes ∧
      (fresh.evalText text).2.state.out.text = "1\n" ∧
      ((fresh.withOut o).evalText text).2.state.out.text = "" ∧
      ((fresh.withOut o).console {} r).screen.text =
        "nil\n2:4: error: Expected a value of type int (got nil)\n(/ x 2)\n   ^\n" := by
  intro o text r
  obtain ⟨-, hsession⟩ := runs_withOut (o := o) rfl
  obtain ⟨htext, -, hconsole⟩ := hsession fresh settled_fresh.standard
  rw [htext text, hconsole LineReader {} r (Reader.idle_ofSource _)]
  exact ⟨rfl, rfl, by decide +kernel, rfl, by decide +kernel⟩

end Session
end Lisplet
