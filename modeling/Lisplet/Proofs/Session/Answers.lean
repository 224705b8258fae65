import Lisplet.Proofs.Session.Alike

/-!
What the console answers. A turn has a value or an error for its answer, and
shows a text made from it. The console is known by its answers, as long as it
can write them, and in sessions and readers that are alike it answers alike,
turn by turn.
-/
namespace Lisplet

variable {σ τ : Type}

/-- A value or an error, and the reader as it was when this was known. -/
structure Answer (σ : Type) where
  result : Except Error Datum
  reader : Reader σ

namespace Answer

variable [Source σ] [Source τ]

def text (a : Answer σ) : String :=
  match a.result with
  | .ok value => toString value
  | .error e => Report.render e a.reader.source

/-- What is left to read. An error costs the rest of the line on which it was found. -/
def rest (a : Answer σ) : Reader σ :=
  match a.result with
  | .ok _ => a.reader
  | .error _ => a.reader.skipLine

structure Alike (f : Place → Place) (T : TokenStream σ → TokenStream τ → Prop) (a : Answer σ)
    (b : Answer τ) : Prop where
  result : SameEnd (Located.Alike f (Fault.Alike f)) (Datum.Alike f) a.result b.result
  readers : Reader.InStep f T a.reader b.reader

theorem Alike.rest {f : Place → Place} {T : TokenStream σ → TokenStream τ → Prop} {a : Answer σ}
    {b : Answer τ} (hT : Reader.KeepsLines f T) (h : Alike f T a b) :
    Reader.InStep f T a.rest b.rest := by
  obtain ⟨⟨x, r⟩, ⟨y, q⟩⟩ := a, b
  obtain ⟨hresult, hreaders⟩ := h
  cases hresult with
  | error => exact ⟨hreaders.lockstep.skipLine hT, ⟨rfl, rfl⟩, ⟨rfl, rfl⟩⟩
  | ok => exact hreaders

end Answer

namespace Session

variable [Source σ] [Source τ]

/-- The answer of one turn and the session after it, or nothing at the end of input. -/
def answer? (s : Session) (r : Reader σ) : Option (Answer σ × Session) :=
  match r.readLine? with
  | (.ok none, _) => none
  | (.error e, q) => some (⟨.error e, q⟩, s)
  | (.ok (some d), q) =>
    match s.eval d with
    | (.ok value, s') => some (⟨.ok value, q⟩, s')
    | (.error e, s') => some (⟨.error (e.map .eval), q⟩, s')

/-- A turn shows the answer and goes on with what the answer leaves. -/
theorem turn?_eq_answer? (s : Session) (r : Reader σ) :
    s.turn? r = (s.answer? r).map fun (a, s') => (a.text, s', a.rest) := by
  unfold turn? answer?
  rcases r.readLine? with ⟨x, q⟩
  cases x with
  | error e => rfl
  | ok x =>
    cases x with
    | none => rfl
    | some d =>
      rcases hs : s.eval d with ⟨v, s'⟩
      cases v <;> simp only [hs] <;> rfl

theorem turn?_of_answer? {s s' : Session} {r : Reader σ} {a : Answer σ}
    (h : s.answer? r = some (a, s')) : s.turn? r = some (a.text, s', a.rest) := by
  rw [turn?_eq_answer?, h, Option.map_some]

def answers (s : Session) (r : Reader σ) : List (Answer σ) × Session :=
  match _h : s.answer? r with
  | none => ([], s)
  | some (a, s') =>
    let (later, t) := answers s' a.rest
    (a :: later, t)
termination_by r.left
decreasing_by exact left_turn?_lt (turn?_of_answer? _h)

theorem answers_of_none {s : Session} {r : Reader σ} (h : s.answer? r = none) :
    s.answers r = ([], s) := by
  rw [answers]
  split
  next => rfl
  next h' => rw [h] at h'; cases h'

theorem answers_of_some {s s' : Session} {r : Reader σ} {a : Answer σ}
    (h : s.answer? r = some (a, s')) :
    s.answers r = (a :: (s'.answers a.rest).1, (s'.answers a.rest).2) := by
  rw [answers]
  split
  next h' => rw [h] at h'; cases h'
  next h' => rw [h] at h'; cases h'; rfl

/-- On a screen that can be written to, the console shows its answers, one after the other. -/
theorem console_eq_answers {s : Session} {screen : Sink} {r : Reader σ}
    (hscreen : screen.broken = false) :
    s.console screen r =
      ⟨(s.answers r).2, ((s.answers r).1.map Answer.text).foldl Sink.tryLine screen, true⟩ := by
  fun_induction console s screen r with
  | case1 s screen r hturn =>
    have hanswer : s.answer? r = none := by
      rw [turn?_eq_answer?, Option.map_eq_none_iff] at hturn
      exact hturn
    rw [answers_of_none hanswer]
    rfl
  | case2 s screen r text s' r' hturn hwrite =>
    simp [Sink.writeLine?, Sink.write?, hscreen] at hwrite
  | case3 s screen r text s' r' hturn screen' hwrite ih =>
    rw [turn?_eq_answer?, Option.map_eq_some_iff] at hturn
    obtain ⟨⟨a, t⟩, hanswer, heq⟩ := hturn
    cases heq
    have hscreen' : screen'.broken = false := by
      simp only [Sink.writeLine?, Sink.write?, hscreen] at hwrite
      cases hwrite
      rfl
    rw [ih hscreen', answers_of_some hanswer, List.map_cons, List.foldl_cons, Sink.tryLine, hwrite]
    rfl

variable {f : Place → Place} {T : TokenStream σ → TokenStream τ → Prop} {s t : Session}
  {r : Reader σ} {q : Reader τ}

/-- Both answer, or both are at the end of input. -/
theorem Alike.answer? (hT : Reader.KeepsLines f T) (h : Alike f s t) (hrq : Reader.InStep f T r q) :
    Option.Rel (fun x y => Answer.Alike f T x.1 y.1 ∧ GoesAlike f s t x.2 y.2) (s.answer? r)
      (t.answer? q) := by
  unfold Session.answer?
  rcases hr : r.readLine? with ⟨x, r'⟩
  obtain ⟨y, q', hq, hxy, hreaders⟩ := hrq.exists_readLine? hT hr
  rw [hq]
  cases hxy with
  | error he => exact .some ⟨⟨.error he, hreaders⟩, h.goes⟩
  | ok hde =>
    cases hde with
    | none => exact .none
    | @some d e hde =>
      rcases hs : s.eval d with ⟨v, s'⟩
      obtain ⟨w, t', ht, hvw, hgoes⟩ := h.exists_eval hde hs
      simp only [hs, ht]
      cases hvw with
      | error he => exact .some ⟨⟨.error he.eval, hreaders⟩, hgoes⟩
      | ok hvw => exact .some ⟨⟨.ok hvw, hreaders⟩, hgoes⟩

/-- The induction is on the turns of the first session; the second one answers with it. -/
theorem Alike.answers (hT : Reader.KeepsLines f T) (h : Alike f s t)
    (hrq : Reader.InStep f T r q) :
    List.Forall₂ (Answer.Alike f T) (s.answers r).1 (t.answers q).1 ∧
      GoesAlike f s t (s.answers r).2 (t.answers q).2 := by
  fun_induction Session.answers s r generalizing t q with
  | case1 s r hanswer =>
    have hrel := h.answer? hT hrq
    rw [hanswer] at hrel
    generalize hb : t.answer? q = y at hrel
    cases hrel
    rw [answers_of_none hb]
    exact ⟨.nil, h.goes⟩
  | case2 s r a s' hanswer later u hlater ih =>
    have hrel := h.answer? hT hrq
    rw [hanswer] at hrel
    generalize hb : t.answer? q = y at hrel
    cases hrel with
    | @some _ x hx =>
      obtain ⟨b, t'⟩ := x
      obtain ⟨hab, hgoes⟩ := hx
      obtain ⟨hanswers, hgoes'⟩ := ih hgoes.sessions (hab.rest hT)
      rw [answers_of_some hb]
      rw [hlater] at hanswers hgoes'
      exact ⟨.cons hab hanswers, hgoes.trans hgoes'⟩

end Session
end Lisplet
