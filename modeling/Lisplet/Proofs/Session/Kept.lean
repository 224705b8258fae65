import Lisplet.Proofs.Eval.Flat
import Lisplet.Proofs.Reader.Pending
import Lisplet.Session.Console

/-!
What a session keeps. Evaluation leaves the stack of scopes as deep as it was,
ends every call that it began, and adds to the innermost scope only names that
were bound nowhere. So between two uses of a session only the top-level scope is
there and no call is in progress, and a name that is bound there stays bound to
the same value, whatever goes wrong. Only a form of the host that is installed
replaces a binding, the one of its own name.
-/
namespace Lisplet

namespace Reader

variable {σ : Type} [Source σ]

/-- An answer of an idle reader: it is idle again, and a datum that it has read is standard. -/
structure Settles {ε : Type} (p : Except ε (Option Datum) × Reader σ) : Prop where
  idle : p.2.Idle
  standard : ∀ d, p.1 = .ok (some d) → d.standard = true

theorem standard_of_read {r s : Reader σ} {d : Datum} (h : r.Idle) (hr : r.read = (.ok d, s)) :
    d.standard = true := by
  have hends := ends_read h
  rw [hr] at hends
  obtain ⟨-, n, -, ts, hspells, -⟩ := hends
  exact hspells.standard

/-- To read leaves a reader idle, and what is read is standard. -/
theorem settles_read? {r : Reader σ} (h : r.Idle) : Settles r.read? := by
  have hend := idle_atEnd h
  unfold read?
  split
  next hp => exact ⟨by rwa [hp] at hend, fun d hd => by cases hd⟩
  next hp => exact ⟨by rwa [hp] at hend, fun d hd => by cases hd⟩
  next s hp =>
    rw [hp] at hend
    have hread := idle_read hend
    split
    next hr => exact ⟨by rwa [hr] at hread, fun d hd => by cases hd⟩
    next d' s' hr =>
      refine ⟨by rwa [hr] at hread, ?_⟩
      rintro d ⟨⟩
      exact standard_of_read hend hr

theorem settles_readLine? {r : Reader σ} (h : r.Idle) : Settles r.readLine? := by
  have hread := settles_read? h
  unfold readLine?
  split
  next hp => exact ⟨by rw [hp] at hread; exact hread.idle, fun d hd => by cases hd⟩
  next hp => exact ⟨by rw [hp] at hread; exact hread.idle, fun d hd => by cases hd⟩
  next d s hp =>
    rw [hp] at hread
    split
    next => exact ⟨hread.idle, fun _ hd => by cases hd; exact hread.standard d rfl⟩
    next =>
      have hpeek := idle_peek hread.idle
      split
      next hq => exact ⟨by rwa [hq] at hpeek, fun d hd => by cases hd⟩
      next hq => exact ⟨by rwa [hq] at hpeek, fun d hd => by cases hd⟩

end Reader

namespace Session

structure Settled (s : Session) : Prop where
  standard : s.state.scopes.standard = true
  depth : s.state.scopes.depth = 1
  calls : s.state.calls = 0

theorem settled_fresh : fresh.Settled := ⟨by decide, rfl, rfl⟩

structure Continues (s t : Session) : Prop where
  settled : t.Settled
  bound : ∀ name value, s.state.scopes.lookup? name = some value →
    t.state.scopes.lookup? name = some value

theorem Settled.continues {s : Session} (h : s.Settled) : s.Continues s := ⟨h, fun _ _ hl => hl⟩

theorem Continues.trans {s t u : Session} (hst : s.Continues t) (htu : t.Continues u) :
    s.Continues u :=
  ⟨htu.settled, fun name value hl => htu.bound name value (hst.bound name value hl)⟩

theorem continues_eval {s : Session} {d : Datum} (h : s.Settled) (hd : d.standard = true) :
    s.Continues (s.eval d).2 := by
  obtain ⟨-, hstandard, hcalls, hkeeps⟩ :=
    Eval.flattens_evaluate s.hosts [] maxCalls hd h.standard
  exact ⟨⟨hstandard, hkeeps.depth.trans h.depth, hcalls.trans h.calls⟩,
    fun name value hl => hkeeps.lookup? hl⟩

variable {σ : Type} [Source σ]

/-- A session goes on after all that is left to read, however it ends. -/
theorem continues_evalAll (last : Datum) {s : Session} {r : Reader σ} (h : s.Settled)
    (hr : r.Idle) : s.Continues (s.evalAll last r).2.1 := by
  fun_induction evalAll last s r with
  | case1 => exact h.continues
  | case2 => exact h.continues
  | case3 last s r d r' hread e s' heval =>
    have hs := continues_eval h ((Reader.settles_read? hr).standard d (by rw [hread]))
    rwa [heval] at hs
  | case4 last s r d r' hread value s' heval ih =>
    have hsettles := Reader.settles_read? hr
    rw [hread] at hsettles
    have hs := continues_eval h (hsettles.standard d rfl)
    rw [heval] at hs
    exact hs.trans (ih hs.settled hsettles.idle)

theorem continues_evalNext {s : Session} {r : Reader σ} (h : s.Settled) (hr : r.Idle) :
    s.Continues (s.evalNext r).2.1 ∧ (s.evalNext r).2.2.Idle := by
  have hread := Reader.idle_read hr
  unfold evalNext
  split
  next hp => rw [hp] at hread; exact ⟨h.continues, hread⟩
  next d r' hp =>
    rw [hp] at hread
    have hs := continues_eval h (Reader.standard_of_read hr hp)
    split
    all_goals
      next he => rw [he] at hs; exact ⟨hs, hread⟩

theorem continues_runAll {s : Session} {r : Reader σ} (h : s.Settled) (hr : r.Idle) :
    s.Continues (s.runAll r).2 := by
  fun_induction runAll s r with
  | case1 => exact h.continues
  | case2 => exact h.continues
  | case3 s r r' hend e s' r'' heval =>
    have hidle := Reader.idle_atEnd hr
    rw [hend] at hidle
    have hs := continues_evalNext h hidle
    rw [heval] at hs
    exact hs.1
  | case4 s r r' hend value s' r'' heval ih =>
    have hidle := Reader.idle_atEnd hr
    rw [hend] at hidle
    have hs := continues_evalNext h hidle
    rw [heval] at hs
    exact hs.1.trans (ih hs.1.settled hs.2)

/-- A session goes on after a turn of the console. -/
theorem continues_turn? {s s' : Session} {r r' : Reader σ} {text : String} (h : s.Settled)
    (hr : r.Idle) (ht : s.turn? r = some (text, s', r')) : s.Continues s' ∧ r'.Idle := by
  have hline := Reader.settles_readLine? hr
  unfold turn? at ht
  split at ht
  next => cases ht
  next hp =>
    cases ht
    exact ⟨h.continues, ⟨rfl, rfl⟩⟩
  next d r'' hp =>
    rw [hp] at hline
    have hs := continues_eval h (hline.standard d rfl)
    split at ht
    next heval =>
      cases ht
      rw [heval] at hs
      exact ⟨hs, hline.idle⟩
    next heval =>
      cases ht
      rw [heval] at hs
      exact ⟨hs, ⟨rfl, rfl⟩⟩

theorem continues_console {s : Session} {screen : Sink} {r : Reader σ} (h : s.Settled)
    (hr : r.Idle) : s.Continues (s.console screen r).session := by
  fun_induction console s screen r with
  | case1 => exact h.continues
  | case2 s screen r text s' r' ht => exact (continues_turn? h hr ht).1
  | case3 s screen r text s' r' ht screen' hscreen ih =>
    obtain ⟨hs, hr'⟩ := continues_turn? h hr ht
    exact hs.trans (ih hs.settled hr')

/-- The ways to run something in a session. A reader may have been used before. -/
inductive Use (σ : Type) where
  | text (text : String)
  | script (text : String)
  | next (r : Reader σ) (idle : r.Idle)
  | console (screen : Sink) (r : Reader σ) (idle : r.Idle)

def use (s : Session) : Use σ → Session
  | .text text => (s.evalText text).2
  | .script text => (s.runScript text).2
  | .next r _ => (s.evalNext r).2.1
  | .console screen r _ => (s.console screen r).session

def useAll (s : Session) (uses : List (Use σ)) : Session := uses.foldl use s

theorem continues_use {s : Session} (h : s.Settled) (use : Use σ) : s.Continues (s.use use) := by
  cases use with
  | text text => exact continues_evalAll _ h (Reader.idle_ofSource _)
  | script text => exact continues_runAll h (Reader.idle_ofSource _)
  | next r idle => exact (continues_evalNext h idle).1
  | console screen r idle => exact continues_console h idle

theorem continues_useAll {s : Session} (h : s.Settled) (uses : List (Use σ)) :
    s.Continues (s.useAll uses) := by
  induction uses generalizing s with
  | nil => exact h.continues
  | cons use uses ih =>
    have hs := continues_use h use
    exact hs.trans (ih hs.settled)

/-- Evaluation has a stack discipline and binds every name at most once. So does every sequence
of uses of a session that is settled, as a new one is; and a form of the host that is installed
replaces the binding of its own name only. -/
theorem bindings_kept :
    (∀ (hosts : Hosts) (room : Nat) (d : Datum) (s : State),
      d.standard = true → s.scopes.standard = true →
      let t := (Eval.evaluate hosts room d s).2
      t.scopes.depth = s.scopes.depth ∧ t.calls = s.calls ∧ t.scopes.outer = s.scopes.outer ∧
        ∃ new, t.scopes.innermost.bindings = s.scopes.innermost.bindings ++ new ∧
          ∀ b ∈ new, s.scopes.lookup? b.1 = none) ∧
    (fresh.Settled ∧ ∀ (σ : Type) [Source σ] (s : Session) (uses : List (Use σ)), s.Settled →
      let t := s.useAll uses
      t.Settled ∧ t.state.scopes.depth = 1 ∧ t.state.calls = 0 ∧
        ∀ name value, s.state.scopes.lookup? name = some value →
          t.state.scopes.lookup? name = some value) ∧
    (∀ (s : Session) (name : String) (arity : Nat) (form : HostForm),
      let t := s.register name arity form
      t.state.scopes.depth = s.state.scopes.depth ∧ t.state.calls = s.state.calls ∧
        ∀ x, x ≠ name → t.state.scopes.lookup? x = s.state.scopes.lookup? x) := by
  refine ⟨?_, ⟨settled_fresh, ?_⟩, ?_⟩
  · intro hosts room d s hd hs t
    have h := Eval.flattens_evaluate hosts [] room hd hs
    exact ⟨h.keeps.depth, h.calls, h.keeps.outer, h.keeps.innermost rfl⟩
  · intro σ _ s uses hs t
    have h := continues_useAll hs uses
    exact ⟨h.settled, h.settled.depth, h.settled.calls, h.bound⟩
  · intro s name arity form t
    refine ⟨rfl, rfl, ?_⟩
    intro x hx
    exact Scopes.lookup?_register_other _ hx _

/-- A new session binds a name, fails to bind it again, stops inside a list, and goes on. -/
theorem bindings_kept_fresh :
    let d : Datum := .list default [.ident default "set", .ident default "x", .int default 1]
    let uses : List (Use LineReader) := [.text "(set x 1)", .script "(set x 2)",
      .next (.ofSource (.ofText "(+ x")) (Reader.idle_ofSource _)]
    let t := (Eval.evaluate [] maxCalls d fresh.state).2
    (t.scopes.depth = 1 ∧ t.calls = 0 ∧ t.scopes.outer = []) ∧
      ((fresh.useAll uses).state.scopes.depth = 1 ∧ (fresh.useAll uses).state.calls = 0) ∧
      (fresh.register "x" 0 fun _ call _ => pure call).state.scopes.lookup? "set" =
        fresh.state.scopes.lookup? "set" := by
  intro d uses t
  obtain ⟨heval, ⟨hfresh, huses⟩, hregister⟩ := bindings_kept
  obtain ⟨hdepth, hcalls, houter, -⟩ := heval [] maxCalls d fresh.state (by decide) (by decide)
  obtain ⟨-, hdepth', hcalls', -⟩ := huses LineReader fresh uses hfresh
  obtain ⟨-, -, hset⟩ := hregister fresh "x" 0 fun _ call _ => pure call
  exact ⟨⟨hdepth, hcalls, houter⟩, ⟨hdepth', hcalls'⟩, hset "set" (by decide)⟩

end Session
end Lisplet
