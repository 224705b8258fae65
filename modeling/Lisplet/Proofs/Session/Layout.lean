import Lisplet.Proofs.Session.Alike
import Lisplet.Proofs.Token.Drained

/-!
Layout has no meaning. Texts with the same tokens are evaluated to equal values,
or end in the same error, however blanks, comments and line ends are set in
them. This holds between sessions with equal bindings, and leaves equal bindings.
-/
namespace Lisplet.Session

def SameBindings (s t : Session) : Prop :=
  ∀ name, Option.Rel (fun v w => (v == w) = true) (s.state.scopes.lookup? name)
    (t.state.scopes.lookup? name)

variable {s t : Session} {f : Place → Place}

theorem Alike.sameBindings (h : Alike f s t) : SameBindings s t := by
  intro name
  have hname := h.bound name
  cases hs : s.state.scopes.lookup? name <;> cases ht : t.state.scopes.lookup? name <;>
    rw [hs, ht] at hname <;> cases hname
  · exact .none
  next hvw => exact .some hvw.beq

/-- Equal bindings are alike wherever they stand. -/
theorem SameBindings.alike (h : SameBindings s t) (hs : s.Settled) (ht : t.Settled) :
    Alike Datum.nowhere s t := by
  refine ⟨hs, ht, fun name => ?_⟩
  have hname := h name
  cases hl : s.state.scopes.lookup? name <;> cases hl' : t.state.scopes.lookup? name <;>
    rw [hl, hl'] at hname <;> cases hname
  · exact .none
  next hvw =>
    exact .some ((Datum.alike_iff (Scopes.standard_lookup? hs.standard hl)
      (Scopes.standard_lookup? ht.standard hl')).2 hvw)

theorem Settled.sameBindings (h : s.Settled) : SameBindings s s :=
  (h.alike : Alike id s s).sameBindings

/-- Two texts without malformed strings, of which the tokens have the same classes and texts one by
one, in settled sessions with equal bindings: the answers are equal values, or errors that differ in
places only, the same lines are printed, and the bindings are equal again. -/
theorem evalText_sameTokens (s t : Session) (text text' : String) (toks toks' : List Token)
    (hs : s.Settled) (ht : t.Settled) (hbindings : SameBindings s t)
    (htext : ({ source := LineReader.ofText text } : TokenStream LineReader).drain = toks.map .ok)
    (htext' : ({ source := LineReader.ofText text' } : TokenStream LineReader).drain =
      toks'.map .ok)
    (htoks : toks.map (fun t => (t.kind, t.lexeme.text?)) =
      toks'.map fun t => (t.kind, t.lexeme.text?)) :
    SameEnd (fun e e' => Fault.Same e.what e'.what) (fun v w => (v == w) = true)
        (s.evalText text).1 (t.evalText text').1 ∧
      Sink.SamePrinted s.state.out t.state.out (s.evalText text).2.state.out
        (t.evalText text').2.state.out ∧
      (s.evalText text).2.Settled ∧ (t.evalText text').2.Settled ∧
      SameBindings (s.evalText text).2 (t.evalText text').2 := by
  have hdrain := TokenStream.drainAlike_of_tokens htext htext' htoks
  obtain ⟨hanswer, hsessions, hprinted⟩ := (hbindings.alike hs ht).evalAll
    (TokenStream.keepsAlike_drainAlike Datum.nowhere) (.refl rfl : Datum.Alike _ (.nil default) _)
    (Reader.inStep_ofSource hdrain)
  refine ⟨?_, hprinted, hsessions.left, hsessions.right, hsessions.sameBindings⟩
  simp only [evalText]
  generalize (s.evalAll (.nil default) (Reader.ofSource (LineReader.ofText text))).1 = x at hanswer ⊢
  generalize (t.evalAll (.nil default) (Reader.ofSource (LineReader.ofText text'))).1 = y
    at hanswer ⊢
  cases hanswer with
  | error he => exact .error he.what.same
  | ok hvw => exact .ok hvw.beq

/-- A call on one line and over three, the second time with comments. -/
theorem evalText_sameTokens_call :
    let text := "(set x (/ 1 0))"
    let text' := "( set x ; a name\n(/ 1 ; a dividend\n0 ))"
    SameEnd (fun e e' => Fault.Same e.what e'.what) (fun v w => (v == w) = true)
        (fresh.evalText text).1 (fresh.evalText text').1 ∧
      SameBindings (fresh.evalText text).2 (fresh.evalText text').2 := by
  intro text text'
  let toks (places : List Place) : List Token :=
    List.zipWith Token.mk [.lparen, .ident "set", .ident "x", .lparen, .ident "/", .int "1", .int "0",
      .rparen, .rparen, .eof] places
  have hsame := evalText_sameTokens fresh fresh text text'
    (toks [⟨0, 0⟩, ⟨0, 1⟩, ⟨0, 5⟩, ⟨0, 7⟩, ⟨0, 8⟩, ⟨0, 10⟩, ⟨0, 12⟩, ⟨0, 13⟩, ⟨0, 14⟩, ⟨1, 0⟩])
    (toks [⟨0, 0⟩, ⟨0, 2⟩, ⟨0, 6⟩, ⟨1, 0⟩, ⟨1, 1⟩, ⟨1, 3⟩, ⟨2, 0⟩, ⟨2, 2⟩, ⟨2, 3⟩, ⟨3, 0⟩])
    settled_fresh settled_fresh settled_fresh.sameBindings (by decide +kernel)
    (by decide +kernel) (by decide)
  exact ⟨hsame.1, hsame.2.2.2.2⟩

end Lisplet.Session
