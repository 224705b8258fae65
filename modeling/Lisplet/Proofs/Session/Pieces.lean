import Lisplet.Proofs.Reader.Onward
import Lisplet.Proofs.Session.Resync

/-!
A text in two pieces. Expressions are read and evaluated one by one, from lines
that are taken when they are needed. So a text does to a session what its first
lines do, and then what the others do in the session that these have left; and
if an expression of the first lines fails, the others make no difference at all.
-/
namespace Lisplet

/-- A line feed parts a text into lines, with an empty one if the text before it ends a line. -/
theorem splitLines_go_append (acc cs ds : List Char) :
    ∃ blank, (blank = [] ∨ blank = [⟨[]⟩]) ∧
      splitLines.go acc (cs ++ '\n' :: ds) =
        splitLines.go acc cs ++ blank ++ splitLines.go [] ds := by
  induction cs generalizing acc with
  | nil =>
    by_cases hacc : acc = []
    · exact ⟨[⟨[]⟩], .inr rfl, by simp [splitLines.go, hacc]⟩
    · exact ⟨[], .inl rfl, by simp [splitLines.go, hacc]⟩
  | cons c cs ih =>
    by_cases hc : c = '\n'
    · obtain ⟨blank, hblank, hgo⟩ := ih []
      exact ⟨blank, hblank, by simp [splitLines.go, hc, hgo]⟩
    · obtain ⟨blank, hblank, hgo⟩ := ih (c :: acc)
      exact ⟨blank, hblank, by simp [splitLines.go, hc, hgo]⟩

/-- The lines of two texts with a line feed between them. If the first one ends in a line feed
already, or is empty, the line feed makes an empty line. -/
theorem splitLines_append (t₁ t₂ : String) :
    ∃ blank, (blank = [] ∨ blank = [⟨[]⟩]) ∧
      splitLines (t₁ ++ "\n" ++ t₂) = splitLines t₁ ++ blank ++ splitLines t₂ := by
  obtain ⟨blank, hblank, hgo⟩ := splitLines_go_append [] t₁.toList t₂.toList
  refine ⟨blank, hblank, ?_⟩
  simpa [splitLines] using hgo

/-- Scanning the text yields nothing but the end of input. -/
def Bare (text : String) : Prop :=
  ({ source := LineReader.ofText text } : TokenStream LineReader).drain.length = 1

instance (text : String) : Decidable (Bare text) := inferInstanceAs (Decidable (_ = 1))

namespace Reader

variable {σ : Type} [Source σ] {r s : Reader σ}

theorem read?_of_eof {t : Token} {ts : TokenStream σ} (hr : r.pending = [])
    (hnext : r.tokens.next = (.ok t, ts)) (he : t.lexeme = .eof) :
    r.read? = (.ok none, { r with tokens := ts, pending := [t] }) := by
  simp [read?, atEnd, peek, hr, hnext, he]

/-- Nothing is read of blanks and comments. -/
theorem read?_of_gap (hr : r.pending = []) (hgap : Gap r.tokens.chars) :
    ∃ s, r.read? = (.ok none, s) :=
  ⟨_, read?_of_eof hr (Prod.ext (TokenStream.next_eof_of_gap hgap) rfl) rfl⟩

theorem Ready.read? {r s : Reader LineReader} {d : Datum} (h : r.Ready)
    (hread : r.read? = (.ok (some d), s)) : s.Ready := by
  have hends := endsLine_read? h
  rw [hread] at hends
  exact ⟨pending_read? h.pending hread, hends⟩

theorem drain_ne_nil (ts : TokenStream σ) : ts.drain ≠ [] := by
  obtain ⟨t, -, -, hdrain, -⟩ | ⟨-, hdrain⟩ := ts.drain_cases <;> simp [hdrain]

/-- A new reader reads nothing exactly if its source yields nothing but the end of input. -/
theorem read?_none_iff (source : σ) :
    (∃ s, (ofSource source).read? = (.ok none, s)) ↔
      ({ source } : TokenStream σ).drain.length = 1 := by
  have hcases := TokenStream.drain_cases ({ source } : TokenStream σ)
  constructor
  · rintro ⟨s, hread⟩
    obtain ⟨t, hnext, he⟩ := next_of_read?_none rfl hread
    obtain ⟨u, -, -, hdrain, -⟩ | ⟨hne, -⟩ := hcases
    · rw [hdrain]
      rfl
    · exact absurd he (hne t (congrArg Prod.fst hnext))
  · intro hlength
    obtain ⟨t, hnext, he, -⟩ | ⟨-, hdrain⟩ := hcases
    · exact ⟨_, read?_of_eof rfl (Prod.ext hnext rfl) he⟩
    · rw [hdrain, List.length_cons, Nat.add_eq_right, List.length_eq_zero_iff] at hlength
      exact absurd hlength (drain_ne_nil _)

theorem bare_iff {text : String} :
    Bare text ↔ ∃ s, (ofSource (LineReader.ofText text)).read? = (.ok none, s) :=
  (read?_none_iff _).symm

end Reader

namespace Session

variable {s s' : Session} {last v : Datum} {r r' : Reader LineReader} (more : List Line)

/-- Nothing is evaluated of blanks and comments. -/
theorem evalAll_of_gap (hr : r.pending = []) (hgap : Gap r.tokens.chars) (s : Session)
    (last : Datum) : ∃ q, s.evalAll last r = (.ok last, s, q) := by
  obtain ⟨q, hread⟩ := Reader.read?_of_gap hr hgap
  exact ⟨q, by rw [evalAll_eq, hread]⟩

/-- After an error in evaluation nothing is read, so more lines make no difference. -/
theorem evalAll_extend_of_error {fault : EvalFault} {p : Place} (hready : r.Ready) (hidle : r.Idle)
    (h : s.evalAll last r = (.error ⟨.eval fault, p⟩, s', r')) :
    s.evalAll last (r.extend more) = (.error ⟨.eval fault, p⟩, s', r'.extend more) := by
  fun_induction evalAll last s r with
  | case1 => cases h
  | case2 => cases h
  | case3 last s r d q hread e t heval =>
    rw [evalAll_eq, Reader.read?_extend more hready.line hread]
    simp only [heval]
    cases h
    rfl
  | case4 last s r d q hread value t heval ih =>
    have hsettles := Reader.settles_read? hidle
    rw [hread] at hsettles
    rw [evalAll_eq, Reader.read?_extend more hready.line hread]
    simp only [heval]
    exact ih (hready.read? hread) hsettles.idle h

/-- After a success all lines have been read, and evaluation goes on with those that there are
more. -/
theorem evalAll_extend_of_ok (hready : r.Ready) (hidle : r.Idle)
    (h : s.evalAll last r = (.ok v, s', r')) :
    r'.source.rest = [] ∧ r'.source.feed = [] ∧
      s.evalAll last (r.extend more) = s'.evalAll v (.ofSource (r'.source.extend more)) := by
  fun_induction evalAll last s r with
  | case1 => cases h
  | case2 last s r q hread =>
    cases h
    obtain ⟨hrest, hfeed, hmore⟩ := Reader.read?_extend_of_end more hready hidle hread
    exact ⟨hrest, hfeed, by rw [evalAll_eq, hmore, ← evalAll_eq]⟩
  | case3 => cases h
  | case4 last s r d q hread value t heval ih =>
    have hsettles := Reader.settles_read? hidle
    rw [hread] at hsettles
    obtain ⟨hrest, hfeed, hmore⟩ := ih (hready.read? hread) hsettles.idle h
    refine ⟨hrest, hfeed, ?_⟩
    rw [evalAll_eq, Reader.read?_extend more hready.line hread]
    simp only [heval]
    exact hmore

theorem ofText_append (t₁ t₂ : String) :
    ∃ blank, (blank = [] ∨ blank = [⟨[]⟩]) ∧ LineReader.ofText (t₁ ++ "\n" ++ t₂) =
      (LineReader.ofText t₁).extend (blank ++ splitLines t₂) := by
  obtain ⟨blank, hblank, hlines⟩ := splitLines_append t₁ t₂
  refine ⟨blank, hblank, ?_⟩
  rw [LineReader.ofText, hlines, List.append_assoc]
  rfl

/-- An empty line between two pieces makes no difference. -/
theorem evalAll_blank {source : LineReader} {blank : List Line} (hrest : source.rest = [])
    (hfeed : source.feed = []) (hblank : blank = [] ∨ blank = [⟨[]⟩]) (s : Session) (v : Datum) :
    ∃ r, s.evalAll v (.ofSource (source.extend blank)) = (.ok v, s, r) := by
  have hgap : Gap (Reader.ofSource (source.extend blank)).tokens.chars := by
    rw [TokenStream.chars_eq_lineRest]
    obtain rfl | rfl := hblank
    · simpa [Reader.ofSource, TokenStream.lineRest, LineReader.lineRest, hrest, hfeed] using Gap.nil
    · simpa [Reader.ofSource, TokenStream.lineRest, LineReader.lineRest, hrest, hfeed, Line.chars]
        using gap_singleton (by decide : Text.isBlank '\n' = true)
  exact evalAll_of_gap rfl hgap s v

/-- If the first piece succeeds, the whole text goes on with the lines of the second one, in the
session that the first one has left. -/
theorem evalAll_append_of_ok {s₁ : Session} {t₁ : String} (t₂ : String)
    (h : s.evalText t₁ = (.ok v, s₁)) :
    ∃ source : LineReader, source.rest = [] ∧ source.feed = splitLines t₂ ∧
      s.evalAll (.nil default) (.ofSource (LineReader.ofText (t₁ ++ "\n" ++ t₂))) =
        s₁.evalAll v (.ofSource source) := by
  obtain ⟨blank, hblank, htext⟩ := ofText_append t₁ t₂
  rcases hfirst : s.evalAll (.nil default) (.ofSource (LineReader.ofText t₁)) with ⟨x, s', r⟩
  simp only [evalText, hfirst, Prod.mk.injEq] at h
  obtain ⟨rfl, rfl⟩ := h
  have hready : (Reader.ofSource (LineReader.ofText t₁)).Ready := Reader.ready_ofSource rfl
  obtain ⟨hrest, hfeed, hmore⟩ :=
    evalAll_extend_of_ok (blank ++ splitLines t₂) hready (Reader.idle_ofSource _) hfirst
  obtain ⟨q, hq⟩ := evalAll_blank hrest hfeed hblank s' v
  have hready' : (Reader.ofSource (r.source.extend blank)).Ready := Reader.ready_ofSource hrest
  obtain ⟨hrest', hfeed', hmore'⟩ :=
    evalAll_extend_of_ok (splitLines t₂) hready' (Reader.idle_ofSource _) hq
  refine ⟨q.source.extend (splitLines t₂), hrest', by simp [hfeed'], ?_⟩
  have hextend : Reader.ofSource (r.source.extend (blank ++ splitLines t₂)) =
      (Reader.ofSource (r.source.extend blank)).extend (splitLines t₂) := by
    simp [Reader.ofSource, Reader.extend, TokenStream.extend, LineReader.extend]
  rw [hextend, hmore'] at hmore
  rw [htext]
  exact hmore

/-- If an expression of the first piece fails, the whole text fails with it. -/
theorem evalText_append_of_error {s₁ : Session} {t₁ : String} (t₂ : String) {fault : EvalFault}
    {p : Place} (h : s.evalText t₁ = (.error ⟨.eval fault, p⟩, s₁)) :
    s.evalText (t₁ ++ "\n" ++ t₂) = (.error ⟨.eval fault, p⟩, s₁) := by
  obtain ⟨blank, -, htext⟩ := ofText_append t₁ t₂
  rcases hfirst : s.evalAll (.nil default) (.ofSource (LineReader.ofText t₁)) with ⟨x, s', r⟩
  simp only [evalText, hfirst, Prod.mk.injEq] at h
  obtain ⟨rfl, rfl⟩ := h
  have hmore := evalAll_extend_of_error (blank ++ splitLines t₂)
    (Reader.ready_ofSource rfl) (Reader.idle_ofSource _) hfirst
  have hextend : Reader.ofSource ((LineReader.ofText t₁).extend (blank ++ splitLines t₂)) =
      (Reader.ofSource (LineReader.ofText t₁)).extend (blank ++ splitLines t₂) := rfl
  simp only [evalText, htext, hextend, hmore]

/-- What came before matters to the value of a text only if the text is bare. -/
theorem evalAll_last (s : Session) (text : String) (last : Datum) :
    let r := Reader.ofSource (LineReader.ofText text)
    s.evalAll last r =
      (if Bare text then .ok last else (s.evalText text).1, (s.evalAll (.nil default) r).2) := by
  intro r
  have htext : (s.evalText text).1 = (s.evalAll (.nil default) r).1 := rfl
  rw [htext, evalAll_eq, evalAll_eq (.nil default)]
  rcases hread : r.read? with ⟨x, q⟩
  have hbare : Bare text ↔ ∃ s, r.read? = (.ok none, s) := Reader.bare_iff
  rw [hread] at hbare
  cases x with
  | error e => simp [hbare]
  | ok d =>
    cases d with
    | none => simp [hbare]
    | some d =>
      simp only [hbare, Prod.mk.injEq, Except.ok.injEq, reduceCtorEq, false_and, exists_false,
        if_false]

theorem settled_evalText {s₁ : Session} {text : String} (hs : s.Settled)
    (h : s.evalText text = (.ok v, s₁)) : v.standard = true ∧ s₁.Settled := by
  have hstep : Reader.InStep Place.onFirstLine (TokenStream.LinesAlike Place.onFirstLine)
      (.ofSource (LineReader.ofText text)) (.ofSource (LineReader.ofText text)) :=
    Reader.inStep_ofSource ⟨rfl, rfl, fun _ => rfl, rfl⟩
  obtain ⟨hresult, hgoes⟩ := hs.alike.evalAll
    (TokenStream.keepsLines_linesAlike TokenStream.keepsColumns_onFirstLine).next
    (.refl rfl : Datum.Alike _ (.nil default) _) hstep
  obtain ⟨hvalue, rfl⟩ := Prod.mk.inj h
  rw [hvalue] at hresult
  cases hresult with
  | ok hv => exact ⟨hv.left, hgoes.sessions.left⟩

/-- A text that succeeds, and then another one. Run as one text with a line feed between them, they
print the same, leave equal bindings, and have the same value, which is that of the first text if
the second one is bare; or they end in the same error, in the same column. If the first text ends in
an error of evaluation, the second one is not run, whatever it is: the result is the same error at
the same place, and the same session. -/
theorem evalText_append (s s₁ : Session) (t₁ t₂ : String) :
    (∀ v, s.Settled → s.evalText t₁ = (.ok v, s₁) →
      let whole := s.evalText (t₁ ++ "\n" ++ t₂)
      let second := s₁.evalText t₂
      SameEnd (fun e e' => Fault.Same e.what e'.what ∧ e.place.col = e'.place.col)
          (fun w w' => (w == if Bare t₂ then v else w') = true) whole.1 second.1 ∧
        whole.2.state.out = second.2.state.out ∧ whole.2.Settled ∧ second.2.Settled ∧
        SameBindings whole.2 second.2) ∧
    ∀ fault p, s.evalText t₁ = (.error ⟨.eval fault, p⟩, s₁) →
      s.evalText (t₁ ++ "\n" ++ t₂) = (.error ⟨.eval fault, p⟩, s₁) := by
  refine ⟨?_, fun fault p h => evalText_append_of_error t₂ h⟩
  intro v hs h whole second
  obtain ⟨hv, hs₁⟩ := settled_evalText hs h
  obtain ⟨source, hrest, hfeed, hwhole⟩ := evalAll_append_of_ok t₂ h
  have hwhole₁ : whole.1 = (s₁.evalAll v (.ofSource source)).1 := congrArg Prod.fst hwhole
  have hwhole₂ : whole.2 = (s₁.evalAll v (.ofSource source)).2.1 := congrArg (·.2.1) hwhole
  have hstep : Reader.InStep Place.onFirstLine (TokenStream.LinesAlike Place.onFirstLine)
      (.ofSource source) (.ofSource (LineReader.ofText t₂)) :=
    Reader.inStep_ofSource ⟨rfl, hrest, fun hne => absurd hrest hne, hfeed⟩
  obtain ⟨hresult, hsessions, printed, hout, hout'⟩ := hs₁.alike.evalAll
    (TokenStream.keepsLines_linesAlike TokenStream.keepsColumns_onFirstLine).next (.refl hv) hstep
  rw [evalAll_last s₁ t₂ v] at hresult hsessions hout'
  rw [hwhole₂]
  refine ⟨?_, hout.trans hout'.symm, hsessions.left, hsessions.right, hsessions.sameBindings⟩
  rw [← hwhole₁] at hresult
  have hbare : Bare t₂ → second.1 = .ok (.nil default) := by
    intro hbare
    obtain ⟨q, hread⟩ := Reader.bare_iff.1 hbare
    have hsecond : second.1 =
        (s₁.evalAll (.nil default) (.ofSource (LineReader.ofText t₂))).1 := rfl
    rw [hsecond, evalAll_eq, hread]
  split
  next hb =>
    rw [if_pos hb] at hresult
    rw [hbare hb]
    generalize whole.1 = x at hresult ⊢
    cases hresult with
    | ok hw => exact .ok hw.beq
  next hb =>
    rw [if_neg hb] at hresult
    change SameEnd _ _ whole.1 second.1 at hresult
    generalize whole.1 = x at hresult ⊢
    generalize second.1 = y at hresult ⊢
    cases hresult with
    | error he => exact .error ⟨he.what.same, (Place.mk.inj he.place).2⟩
    | ok hw => exact .ok hw.beq

/-- A comment ends the first piece, and the line feed between the pieces ends the comment. Behind a
division by zero nothing is read, not even a parenthesis that is left over. -/
theorem evalText_append_comment :
    (∃ v s₁, fresh.evalText "(set x 2) ; two" = (.ok v, s₁) ∧
      let whole := fresh.evalText ("(set x 2) ; two" ++ "\n" ++ "(+ x y)")
      let second := s₁.evalText "(+ x y)"
      SameEnd (fun e e' => Fault.Same e.what e'.what ∧ e.place.col = e'.place.col)
          (fun w w' => (w == if Bare "(+ x y)" then v else w') = true) whole.1 second.1 ∧
        SameBindings whole.2 second.2) ∧
    ∃ fault p s₁, fresh.evalText "(/ 1 0)" = (.error ⟨.eval fault, p⟩, s₁) ∧
      fresh.evalText ("(/ 1 0)" ++ "\n" ++ ")") = (.error ⟨.eval fault, p⟩, s₁) := by
  have hok : (fresh.evalText "(set x 2) ; two").1.isOk = true := by decide +kernel
  let r := Reader.ofSource (LineReader.ofText "(/ 1 0)")
  have hfails : ((r.read?.1.toOption.bind id).map fun d => (fresh.eval d).1.toOption.isNone) =
      some true := by
    decide +kernel
  constructor
  · rcases h : fresh.evalText "(set x 2) ; two" with ⟨_ | v, s₁⟩
    · rw [h] at hok
      cases hok
    obtain ⟨hresult, -, -, -, hbindings⟩ :=
      (evalText_append fresh s₁ "(set x 2) ; two" "(+ x y)").1 v settled_fresh h
    exact ⟨v, s₁, rfl, hresult, hbindings⟩
  · obtain ⟨d, r', hread⟩ := Reader.exists_of_read? (r := r) (by decide +kernel)
    rw [hread] at hfails
    rcases heval : fresh.eval d with ⟨⟨fault, p⟩ | v, s₁⟩
    · have hall : fresh.evalAll (.nil default) r = (.error ⟨.eval fault, p⟩, s₁, r') := by
        rw [evalAll_eq, hread]
        simp only [heval]
        rfl
      have h : fresh.evalText "(/ 1 0)" = (.error ⟨.eval fault, p⟩, s₁) :=
        congrArg (fun x => (x.1, x.2.1)) hall
      exact ⟨fault, p, s₁, h, (evalText_append fresh s₁ "(/ 1 0)" ")").2 fault p h⟩
    · simp [heval, Except.toOption] at hfails

end Session
end Lisplet
