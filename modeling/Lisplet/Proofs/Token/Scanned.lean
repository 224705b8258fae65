import Lisplet.Token.Stream

/-!
Scanning as a function of the characters ahead. A source is finite, so it has a
list of all characters it will hand out, each with its place, and a place at
which it ends. What a token stream yields depends on nothing else. All of it, up
to the end of input, is found by taking one token or error after another.
-/
namespace Lisplet

section Ahead

variable {σ : Type} [Source σ]

/-- The characters that a source will hand out, each with its place. -/
def Source.chars (s : σ) : List (Char × Place) :=
  match _h : Source.next? s with
  | none => []
  | some (c, s') => (c, Source.place s) :: Source.chars s'
termination_by Source.left s
decreasing_by exact Source.left_next? _h

def Source.endPlace (s : σ) : Place :=
  match _h : Source.next? s with
  | none => Source.place s
  | some (_, s') => Source.endPlace s'
termination_by Source.left s
decreasing_by exact Source.left_next? _h

theorem Source.chars_of_end {s : σ} (h : Source.next? s = none) : Source.chars s = [] := by
  rw [Source.chars]
  split <;> simp_all

theorem Source.chars_of_char {s s' : σ} {c : Char} (h : Source.next? s = some (c, s')) :
    Source.chars s = (c, Source.place s) :: Source.chars s' := by
  rw [Source.chars]
  split <;> simp_all

theorem Source.endPlace_of_end {s : σ} (h : Source.next? s = none) :
    Source.endPlace s = Source.place s := by
  rw [Source.endPlace]
  split <;> simp_all

theorem Source.endPlace_of_char {s s' : σ} {c : Char} (h : Source.next? s = some (c, s')) :
    Source.endPlace s = Source.endPlace s' := by
  rw [Source.endPlace]
  split <;> simp_all

namespace TokenStream

def chars (ts : TokenStream σ) : List (Char × Place) := ts.held.toList ++ Source.chars ts.source

def endPlace (ts : TokenStream σ) : Place := Source.endPlace ts.source

theorem chars_of_end {ts : TokenStream σ} (h : ts.pull? = none) :
    ts.chars = [] ∧ Source.place ts.source = ts.endPlace := by
  unfold pull? at h
  split at h
  next => cases h
  next hh =>
    split at h
    next => cases h
    next hn => simp [chars, hh, Source.chars_of_end hn, endPlace, Source.endPlace_of_end hn]

theorem chars_of_char {ts ts' : TokenStream σ} {c : Char} {place : Place}
    (h : ts.pull? = some (c, place, ts')) :
    ts.chars = (c, place) :: ts'.chars ∧ ts.endPlace = ts'.endPlace := by
  unfold pull? at h
  split at h
  next c' p hh => cases h; simp [chars, hh, endPlace]
  next hh =>
    split at h
    next hn =>
      cases h
      simp [chars, hh, Source.chars_of_char hn, endPlace, Source.endPlace_of_char hn]
    next => cases h

end TokenStream
end Ahead

namespace Scan

def consume (final : Place) : Scan → List (Char × Place) → Except ScanError Token × List (Char × Place)
  | s, [] => (s.finish final, [])
  | s, (c, place) :: cs =>
    match s.step c place with
    | .go next => consume final next cs
    | .done token => (.ok token, cs)
    | .hold token => (.ok token, (c, place) :: cs)
    | .fail error => (.error error, cs)

end Scan

namespace TokenStream

variable {σ : Type} [Source σ]

/-- A scan of the stream is a scan of the characters ahead. -/
theorem scan_eq_consume (s : Scan) (ts : TokenStream σ) :
    s.consume ts.endPlace ts.chars = ((scan s ts).1, (scan s ts).2.chars) ∧
      (scan s ts).2.endPlace = ts.endPlace := by
  fun_induction scan s ts with
  | case1 s ts h =>
    obtain ⟨hc, hp⟩ := chars_of_end h
    simp [hc, hp, Scan.consume]
  | case2 s ts c place ts' h next hstep ih =>
    obtain ⟨hc, hp⟩ := chars_of_char h
    rw [hc, hp]
    simpa [Scan.consume, hstep] using ih
  | case3 s ts c place ts' h token hstep =>
    obtain ⟨hc, hp⟩ := chars_of_char h
    simp [hc, hp, Scan.consume, hstep]
  | case4 s ts c place ts' h token hstep =>
    obtain ⟨hc, hp⟩ := chars_of_char h
    have hh := held_pull? h
    refine ⟨?_, hp.symm⟩
    simp only [hc, Scan.consume, hstep]
    simp [chars, hh]
  | case5 s ts c place ts' h error hstep =>
    obtain ⟨hc, hp⟩ := chars_of_char h
    simp [hc, hp, Scan.consume, hstep]

theorem next_of_consume {ts : TokenStream σ} {x : Except ScanError Token}
    {rest : List (Char × Place)} (h : Scan.gap.consume ts.endPlace ts.chars = (x, rest)) :
    ∃ ts', ts.next = (x, ts') ∧ ts'.chars = rest ∧ ts'.endPlace = ts.endPlace := by
  obtain ⟨hconsume, hend⟩ := scan_eq_consume .gap ts
  rw [h, Prod.mk.injEq] at hconsume
  exact ⟨(scan .gap ts).2, Prod.ext hconsume.1.symm rfl, hconsume.2.symm, hend⟩

/-- The tokens and errors up to the end of input, which is the last token. Scanning goes on after
an error. -/
def drain (ts : TokenStream σ) : List (Except ScanError Token) :=
  match _h : ts.next with
  | (.error e, ts') => .error e :: drain ts'
  | (.ok t, ts') => if _he : t.lexeme = .eof then [.ok t] else .ok t :: drain ts'
termination_by ts.left
decreasing_by
  · rcases left_next ts with hlt | ⟨place, hn⟩
    · rwa [_h] at hlt
    · rw [hn] at _h
      cases _h
  · have ht : ts.next.1 = .ok t := by rw [_h]
    have hlt := left_next_lt ht _he
    rwa [_h] at hlt

theorem drain_of_error {ts ts' : TokenStream σ} {e : ScanError} (h : ts.next = (.error e, ts')) :
    ts.drain = .error e :: ts'.drain := by
  rw [drain]
  split <;> simp_all

theorem drain_of_eof {ts ts' : TokenStream σ} {t : Token} (h : ts.next = (.ok t, ts'))
    (he : t.lexeme = .eof) : ts.drain = [.ok t] := by
  rw [drain]
  split <;> simp_all

theorem drain_of_token {ts ts' : TokenStream σ} {t : Token} (h : ts.next = (.ok t, ts'))
    (he : t.lexeme ≠ .eof) : ts.drain = .ok t :: ts'.drain := by
  rw [drain]
  split <;> simp_all

end TokenStream
end Lisplet
