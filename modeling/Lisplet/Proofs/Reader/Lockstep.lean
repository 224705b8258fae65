import Lisplet.Proofs.Reading.Relocate
import Lisplet.Reader

/-!
Two readers in lockstep. If two token streams yield tokens and errors that
differ in places only, as long as they are asked for any, then so do readers of
them: whatever they are asked, their answers are alike and they stay in step.
-/
namespace Lisplet

variable {σ τ : Type} {f : Place → Place} {T : TokenStream σ → TokenStream τ → Prop}

namespace Reader

/-- The readers have come equally far, in streams that are related. -/
structure Lockstep (f : Place → Place) (T : TokenStream σ → TokenStream τ → Prop) (r : Reader σ)
    (q : Reader τ) : Prop where
  tokens : T r.tokens q.tokens
  pending : r.pending.map (Token.relocate f) = q.pending.map (Token.relocate f)
  taken : r.taken.map (Token.relocate f) = q.taken.map (Token.relocate f)
  reading : r.reading.relocate f = q.reading.relocate f

structure AnswerAlike {ε ε' α β : Type} (f : Place → Place)
    (T : TokenStream σ → TokenStream τ → Prop) (E : ε → ε' → Prop) (P : α → β → Prop)
    (x : Except ε α × Reader σ) (y : Except ε' β × Reader τ) : Prop where
  answer : SameEnd E P x.1 y.1
  readers : Lockstep f T x.2 y.2

theorem lockstep_ofSource {source : σ} {source' : τ} (h : T { source } { source := source' }) :
    Lockstep f T (ofSource source) (ofSource source') := ⟨h, rfl, rfl, rfl⟩

variable {r : Reader σ} {q : Reader τ}

theorem Lockstep.giveBack (h : Lockstep f T r q) : Lockstep f T r.giveBack q.giveBack := by
  refine ⟨h.tokens, ?_, rfl, rfl⟩
  simp only [Reader.giveBack, List.map_append, List.map_reverse, h.taken, h.pending]

theorem Lockstep.settle (h : Lockstep f T r q) : Lockstep f T r.settle q.settle :=
  ⟨h.tokens, h.pending, rfl, rfl⟩

end Reader

variable [Source σ] [Source τ]

abbrev ScansAlike (f : Place → Place) :
    Except ScanError Token → Except ScanError Token → Prop :=
  SameEnd (Located.Alike f Eq) fun t u => t.relocate f = u.relocate f

/-- A relation of streams that is kept as they yield tokens and errors, which are alike. -/
def KeepsAlike (f : Place → Place) (T : TokenStream σ → TokenStream τ → Prop) : Prop :=
  ∀ ⦃ts : TokenStream σ⦄ ⦃us : TokenStream τ⦄, T ts us →
    ScansAlike f ts.next.1 us.next.1 ∧ T ts.next.2 us.next.2

namespace Reader

variable {r : Reader σ} {q : Reader τ}

section Calls

variable (hT : KeepsAlike f T)
include hT

/-- Without pending tokens both readers scan one. -/
theorem Lockstep.peek (h : Lockstep f T r q) :
    AnswerAlike f T (Located.Alike f Eq) (fun t u => t.relocate f = u.relocate f) r.peek q.peek := by
  have hstep := h
  obtain ⟨htokens, hpending, htaken, hreading⟩ := h
  unfold Reader.peek
  cases hr : r.pending with
  | cons t pending =>
    rw [hr, List.map_cons] at hpending
    obtain ⟨u, pending', hq, hu, -⟩ := List.map_eq_cons_iff.1 hpending.symm
    rw [hq]
    exact ⟨.ok hu.symm, hstep⟩
  | nil =>
    rw [hr, List.map_nil] at hpending
    have hq : q.pending = [] := List.map_eq_nil_iff.1 hpending.symm
    obtain ⟨hscan, hstreams⟩ := hT htokens
    rw [hq]
    rcases hts : r.tokens.next with ⟨x', ts⟩
    rcases hus : q.tokens.next with ⟨y', us⟩
    rw [hts, hus] at hscan hstreams
    cases hscan with
    | error he =>
      exact ⟨.error ⟨congrArg ReadFault.scan he.what, he.place⟩, hstreams, rfl, htaken,
        hreading⟩
    | ok htu => exact ⟨.ok htu, hstreams, by simp [htu], htaken, hreading⟩

/-- Readers in lockstep take tokens that are alike, or report errors that are. -/
theorem Lockstep.exists_next (h : Lockstep f T r q) {x : Except ReadError Token} {s : Reader σ}
    (hnext : r.next = (x, s)) : ∃ y s', q.next = (y, s') ∧
      SameEnd (Located.Alike f Eq) (fun t u => t.relocate f = u.relocate f) x y ∧
      Lockstep f T s s' := by
  have hpeek := h.peek hT
  rcases hr : r.peek with ⟨x', s₁⟩
  rcases hq : q.peek with ⟨y', s₁'⟩
  rw [hr, hq] at hpeek
  obtain ⟨hanswer, hreaders⟩ := hpeek
  cases hanswer with
  | error he =>
    cases (next_of_peek_error hr).symm.trans hnext
    exact ⟨_, _, next_of_peek_error hq, .error he, hreaders⟩
  | ok htu =>
    cases (next_of_peek hr).symm.trans hnext
    have hpending := congrArg List.tail hreaders.pending
    rw [← List.map_tail, ← List.map_tail] at hpending
    exact ⟨_, _, next_of_peek hq, .ok htu, hreaders.tokens, hpending,
      by simp [htu, hreaders.taken], hreaders.reading⟩

/-- The induction is on the attempt of the first reader; the second one makes every step with it. -/
theorem Lockstep.resume (h : Lockstep f T r q) :
    AnswerAlike f T (Located.Alike f Eq) (fun d e => d.relocate f = e.relocate f) r.resume q.resume := by
  fun_induction Reader.resume r generalizing q with
  | case1 r e s hn =>
    obtain ⟨_, s', hq, he | _, hreaders⟩ := h.exists_next hT hn
    rw [resume_of_error hq]
    exact ⟨.error he, hreaders.giveBack⟩
  | case2 r t s hn g hg ih =>
    obtain ⟨_, s', hq, _ | htu, hreaders⟩ := h.exists_next hT hn
    have hmove := Reading.take_alike f h.reading htu
    rw [resume_of_token hq]
    rw [hg] at hmove
    generalize q.reading.take _ = m at hmove ⊢
    cases hmove with
    | more hgh => exact ih ⟨hreaders.tokens, hreaders.pending, hreaders.taken, hgh⟩
  | case3 r t s hn d hd =>
    obtain ⟨_, s', hq, _ | htu, hreaders⟩ := h.exists_next hT hn
    have hmove := Reading.take_alike f h.reading htu
    rw [resume_of_token hq]
    rw [hd] at hmove
    generalize q.reading.take _ = m at hmove ⊢
    cases hmove with
    | done hde => exact ⟨.ok hde, hreaders.settle⟩
  | case4 r t s hn e he =>
    obtain ⟨_, s', hq, _ | htu, hreaders⟩ := h.exists_next hT hn
    have hmove := Reading.take_alike f h.reading htu
    rw [resume_of_token hq]
    rw [he] at hmove
    generalize q.reading.take _ = m at hmove ⊢
    cases hmove with
    | fail hwhat hplace => exact ⟨.error ⟨hwhat, hplace⟩, hreaders.giveBack⟩

theorem Lockstep.atEnd (h : Lockstep f T r q) :
    AnswerAlike f T (Located.Alike f Eq) Eq r.atEnd q.atEnd := by
  have hpeek := h.peek hT
  unfold Reader.atEnd
  rcases hr : r.peek with ⟨x, s⟩
  rcases hq : q.peek with ⟨y, s'⟩
  rw [hr, hq] at hpeek
  obtain ⟨hanswer, hreaders⟩ := hpeek
  cases hanswer with
  | error he => exact ⟨.error he, hreaders⟩
  | ok htu =>
    have hlexeme := congrArg Token.lexeme htu
    simp only [Token.lexeme_relocate] at hlexeme
    exact ⟨.ok (by rw [hlexeme]), hreaders⟩

/-- Both expect an expression and both find one, or neither does. -/
theorem Lockstep.read? (h : Lockstep f T r q) :
    AnswerAlike f T (Located.Alike f Eq) (Option.Rel fun d e => d.relocate f = e.relocate f)
      r.read? q.read? := by
  have hend := h.atEnd hT
  unfold Reader.read?
  rcases hr : r.atEnd with ⟨x, s⟩
  rcases hq : q.atEnd with ⟨y, s'⟩
  rw [hr, hq] at hend
  obtain ⟨hanswer, hreaders⟩ := hend
  cases hanswer with
  | error he => exact ⟨.error he, hreaders⟩
  | @ok b _ hb =>
    subst hb
    cases b with
    | true => exact ⟨.ok .none, hreaders⟩
    | false =>
      obtain ⟨hanswer, hreaders⟩ := hreaders.resume hT
      rcases hs : s.resume with ⟨x', s₁⟩
      rcases hs' : s'.resume with ⟨y', s₁'⟩
      rw [hs, hs'] at hanswer hreaders
      simp only [Reader.read, hs, hs']
      cases hanswer with
      | error he => exact ⟨.error he, hreaders⟩
      | ok hde => exact ⟨.ok (.some hde), hreaders⟩

end Calls

/-- Moreover the streams see the ends of the same lines, and stay related when lines are given up. -/
structure KeepsLines (f : Place → Place) (T : TokenStream σ → TokenStream τ → Prop) : Prop where
  next : KeepsAlike f T
  atLineEnd : ∀ ⦃ts us⦄, T ts us → ts.atLineEnd = us.atLineEnd
  skipLine : ∀ ⦃ts us⦄, T ts us → T ts.skipLine us.skipLine

theorem Lockstep.skipLine (hT : KeepsLines f T) (h : Lockstep f T r q) :
    Lockstep f T r.skipLine q.skipLine := ⟨hT.skipLine h.tokens, rfl, rfl, rfl⟩

theorem Lockstep.atLineEnd (hT : KeepsLines f T) (h : Lockstep f T r q) :
    r.atLineEnd = q.atLineEnd := by
  have hpending := congrArg List.isEmpty h.pending
  simp only [List.isEmpty_map] at hpending
  rw [Reader.atLineEnd, Reader.atLineEnd, hpending, hT.atLineEnd h.tokens]

/-- Readers in lockstep read console lines alike, if their streams see the same ends of lines. -/
theorem Lockstep.readLine? (hT : KeepsLines f T) (h : Lockstep f T r q) :
    AnswerAlike f T (Located.Alike f (Fault.Alike f))
      (Option.Rel fun d e => d.relocate f = e.relocate f) r.readLine? q.readLine? := by
  have hread := h.read? hT.next
  unfold Reader.readLine?
  rcases hr : r.read? with ⟨x, s⟩
  rcases hq : q.read? with ⟨y, s'⟩
  rw [hr, hq] at hread
  obtain ⟨hanswer, hreaders⟩ := hread
  have hend := hreaders.atLineEnd hT
  simp only at hend
  cases hanswer with
  | error he => exact ⟨.error he.read, hreaders⟩
  | ok hde =>
    cases hde with
    | none => exact ⟨.ok .none, hreaders⟩
    | some hde =>
      simp only [hend]
      split
      · exact ⟨.ok (.some hde), hreaders⟩
      · have hpeek := hreaders.peek hT.next
        simp only at hpeek
        rcases hs : s.peek with ⟨x', s₁⟩
        rcases hs' : s'.peek with ⟨y', s₁'⟩
        rw [hs, hs'] at hpeek
        obtain ⟨hanswer, hreaders⟩ := hpeek
        cases hanswer with
        | error he => exact ⟨.error ⟨.trailingText, he.place⟩, hreaders⟩
        | ok htu => exact ⟨.error ⟨.trailingText, congrArg Token.place htu⟩, hreaders⟩

end Reader
end Lisplet
