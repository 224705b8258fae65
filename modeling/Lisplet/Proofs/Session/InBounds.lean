import Lisplet.Proofs.Eval.Checked
import Lisplet.Proofs.Reader.Descent
import Lisplet.Proofs.Scopes.Frames
import Lisplet.Proofs.Session.Discipline
import Lisplet.Proofs.Session.Script
import Lisplet.Proofs.Text.Buffer
import Lisplet.Proofs.Word

/-!
Nothing is ever out of bounds. The current line can be a buffer with a position,
the pending tokens and the scopes can be arrays with their ends at an index, the
arguments can be looked up by number, the open forms and calls can be counted up
and down, and a quotient can be lowered: each of these checks passes, whatever
is read, evaluated or called in a session with the standard forms.
-/
namespace Lisplet

namespace TokenStream

/-- The source of the second stream is what the source of the first comes to when it is used. -/
def Uses (ts us : TokenStream LineReader) : Prop := ∃ asked, us.source = (ts.source.asks asked).2

variable {ts us vs : TokenStream LineReader}

theorem Uses.refl (ts : TokenStream LineReader) : ts.Uses ts := ⟨[], rfl⟩

theorem Uses.trans (h : ts.Uses us) (h' : us.Uses vs) : ts.Uses vs := by
  obtain ⟨asked, hasked⟩ := h
  obtain ⟨more, hmore⟩ := h'
  exact ⟨asked ++ more, by rw [LineReader.asks_append, ← hasked, hmore]⟩

theorem uses_pull? {c : Char} {place : Place} (h : ts.pull? = some (c, place, us)) :
    ts.Uses us := by
  unfold pull? at h
  split at h
  next => cases h; exact ⟨[], rfl⟩
  next =>
    split at h
    next c source hnext =>
      cases h
      have hnext' : ts.source.next? = some (c, source) := hnext
      exact ⟨[.next], by simp [LineReader.asks, LineReader.ask_of_char hnext']⟩
    next => cases h

theorem uses_scan (s : Scan) (ts : TokenStream LineReader) : ts.Uses (scan s ts).2 := by
  fun_induction scan s ts with
  | case1 s ts h => exact .refl ts
  | case2 s ts c place ts' h next _ ih => exact (uses_pull? h).trans ih
  | case3 s ts c place ts' h => exact uses_pull? h
  | case4 s ts c place ts' h =>
    obtain ⟨asked, hasked⟩ := uses_pull? h
    exact ⟨asked, hasked⟩
  | case5 s ts c place ts' h => exact uses_pull? h

/-- Whatever is done with a stream, its source is only ever used. -/
theorem Reaches.uses (h : ts.Reaches us) : ts.Uses us := by
  induction h with
  | refl => exact .refl ts
  | next _ ih => exact ih.trans (uses_scan .gap _)
  | skipLine _ ih => exact ih.trans ⟨[.skipLine], rfl⟩

end TokenStream

namespace Session

/-- Nothing that is looked up is out of bounds, nothing is taken off a count that is not on it, and
no quotient is lowered below the least word. With all checks, each step does what it does without.
The steps are taken from any state there can be; where that matters, it is said what a source is
used for and how a session is left by any use. -/
structure ChecksPass : Prop where
  /-- However a buffer of lines is used, it has a character at every position that is looked up. -/
  lines : ∀ lines, (LineBuffer.ofLines lines).Serves (LineReader.ofLines lines)
  text : ∀ text, (LineBuffer.ofText text).Serves (LineReader.ofText text)
  stream : ∀ ts us : TokenStream LineReader, ts.Reaches us → ts.Uses us
  /-- A text that is evaluated or run as a script is read as one stream. -/
  script : ∀ (last : Datum) (s : Session) (r : Reader LineReader),
    r.tokens.Reaches (s.evalAll last r).2.2.tokens ∧ s.runAll r = scriptOf (s.evalAll last r)
  /-- The lines of the console are one stream, too. -/
  console : ∀ (s t : Session) (r q : Reader LineReader), Turns s r t q → r.tokens.Reaches q.tokens
  /-- A token is put back whenever the last one is looked up. -/
  peek : ∀ (σ : Type) [Source σ] (r : Reader σ) (n : Nat),
    Parser.peek (.ofReader r n) = some (r.peek.1, .ofReader r.peek.2 n)
  /-- Whatever is read, each form that ends is on the count, each mark is within the tokens that are
  consumed, and in the end nothing is left of either. -/
  forms : ∀ (σ : Type) [Source σ] (r : Reader σ) (room : Nat), r.Idle → maxNesting ≤ room →
    Parser.parseExpr room (.ofReader r 0) = some (r.read.1, .ofReader r.read.2 0) ∧ r.read.2.Idle
  /-- There is a first scope whenever a form is installed in it. -/
  scopes : ∀ (s : Scopes) (name : String) (value : Datum),
    s.frames.register? name value = some (s.register name value).frames ∧
      s.frames.insert name value = (s.insert name value).frames ∧
      s.frames.push = s.enter.frames ∧ s.frames.pop = s.leave.frames
  /-- A form has all the arguments that it looks up. -/
  arguments : ∀ (hosts : Hosts) (eval : Evaluator) (form : Datum) (b : Builtin) (args : List Datum),
    Eval.callBuiltin? hosts eval form b args = some (Eval.callBuiltin hosts eval form b args)
  arithmetic : ∀ (op : ArithOp) (a b : Int64) (divisor : Place),
    (Form.arith? op a b divisor : Option (Eval Int64)) = some (Form.arith op a b divisor)
  /-- Each call that ends in an evaluation is on the count. -/
  evaluation : ∀ (hosts : Hosts) (s : State) (d : Datum), s.scopes.standard = true → s.calls ≤ 256 →
    d.standard = true →
    Eval.evaluate hosts maxCalls d s = ((Eval.watched d s).1, (Eval.watched d s).2.forget) ∧
      ∀ n ∈ (Eval.watched d s).2.scopes.counts, 0 < n
  /-- So is each call that ends in a direct one, whatever the form and the arguments are. -/
  call : ∀ (hosts : Hosts) (s : State) (callee form : Datum) (args : List Datum),
    s.scopes.standard = true → s.calls ≤ 256 → callee.standard = true →
    (∀ a ∈ args, a.standard = true) →
    (Eval.call? hosts (Eval.evaluate hosts maxCalls) callee form args).map (fun x => x s) =
        (Eval.watchedCall? callee form args s).map (fun p => (p.1, p.2.forget)) ∧
      ∀ p ∈ Eval.watchedCall? callee form args s, ∀ n ∈ p.2.scopes.counts, 0 < n
  /-- Any use leaves a new session with standard values and with no call in progress. -/
  session : ∀ (σ : Type) [Source σ] (uses : List (Use σ)), (fresh.useAll uses).Settled
  standard : ∀ (σ : Type) [Source σ] (r r' : Reader σ) (d : Datum), r.Idle → r.read = (.ok d, r') →
    d.standard = true

/-- Whatever is read, evaluated or called in a session with the standard forms, all checks pass. -/
theorem checks_pass : ChecksPass where
  lines lines := (LineBuffer.represents_ofLines lines).serves
  text text := (LineBuffer.represents_ofText text).serves
  stream _ _ h := h.uses
  script last s r := ⟨reaches_evalAll last .refl, runAll_eq last s r⟩
  console _ _ _ _ h := h.reaches
  peek _ _ := Parser.peek_ofReader
  forms _ _ _ _ hidle hroom := ⟨Parser.parseExpr_ofReader hidle hroom, Reader.idle_read hidle⟩
  scopes s name value := ⟨s.register?_frames name value, s.insert_frames name value, s.push_frames,
    s.pop_frames⟩
  arguments := Eval.callBuiltin?_eq
  arithmetic := Form.arith?_eq
  evaluation hosts _ _ hs hcalls hd :=
    ⟨Eval.evaluate_watched hosts hd hs hcalls, Eval.counts_watched hd hs hcalls⟩
  call hosts _ _ _ _ hs hcalls hcallee hargs := ⟨Eval.call?_watched hosts hcallee hargs hs hcalls,
    fun _ hp => Eval.counts_watchedCall? hcallee hargs hs hcalls hp⟩
  session _ _ uses := (continues_useAll settled_fresh uses).settled
  standard _ _ _ _ _ hidle hread := Reader.standard_of_read hidle hread

/-- A text that stops inside two lists, and a function that is called directly and calls itself as
often as there is room for six more calls. -/
theorem checks_pass_runaway :
    let f : Datum := .func default "f" [] (.list ⟨0, 17⟩ [.ident ⟨0, 18⟩ "f"])
    let s : State := { scopes := ⟨⟨[("f", f)]⟩, []⟩, calls := 250 }
    let r : Reader LineReader := .ofSource (.ofText "((")
    (r.Idle ∧ Parser.parseExpr maxNesting (.ofReader r 0) = some (r.read.1, .ofReader r.read.2 0)) ∧
      (f.standard = true ∧ s.scopes.standard = true ∧ s.calls ≤ 256) ∧
      ∃ p, Eval.watchedCall? f (.nil default) [] s = some p ∧
        p.2.scopes.counts = [251, 252, 253, 254, 255, 256] ∧ ∀ n ∈ p.2.scopes.counts, 0 < n := by
  intro f s r
  have hpass := checks_pass
  have hidle : r.Idle := Reader.idle_ofSource _
  have hf : f.standard = true := by decide
  have hs : s.scopes.standard = true := by decide
  obtain ⟨-, hpos⟩ := hpass.call [] s f (.nil default) [] hs (by decide) hf (by simp)
  cases hp : Eval.watchedCall? f (.nil default) [] s with
  | none => cases hp
  | some p =>
    have hcounts : (Eval.watchedCall? f (.nil default) [] s).map (fun p => p.2.scopes.counts) =
        some [251, 252, 253, 254, 255, 256] := by decide +kernel
    rw [hp] at hcounts
    exact ⟨⟨hidle, (hpass.forms LineReader r maxNesting hidle (Nat.le_refl _)).1⟩,
      ⟨hf, hs, by decide⟩, p, rfl, Option.some.inj hcounts, hpos p hp⟩

end Session
end Lisplet
