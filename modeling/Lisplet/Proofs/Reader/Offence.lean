import Lisplet.Proofs.Reader.Language
import Lisplet.Proofs.Reader.Places
import Lisplet.Proofs.Reading.Refuses

/-!
Where a syntax error is reported. The tokens in front of the place begin some
expression, and with the token at the place they begin none: it is the first
token at which the text can be seen not to be an expression. For this the
grammar is taken without its limit on nesting and for numerals of any size, and
the end of input is a token that goes on nothing.
-/
namespace Lisplet

def Viable (ts : List Token) : Prop :=
  ∃ n more, more ≠ [] ∧ Derives .expr n (ts.map Token.lexeme ++ more)

/-- No expression begins with the tokens, or is all of them. -/
def BeginsNone (ts : List Token) : Prop :=
  ∀ n more, ¬ Derives .expr n (ts.map Token.lexeme ++ more)

namespace Reading

theorem viable_of_feed {g : Reading} {ts : List Token} (h : feed (.more start) ts = (.more g, [])) :
    Viable ts := by
  obtain ⟨ws, hws, hreached⟩ := feed_follows (m := .more start) reached_start h
  obtain rfl : ws = ts := by simpa using hws.symm
  exact Reached.completable hreached

/-- After the end of input a reading is over. -/
theorem feed_ne_more_of_eof {g : Reading} {ts : List Token} {t : Token} (ht : t ∈ ts)
    (heof : t.lexeme = .eof) : feed (.more start) ts ≠ (.more g, []) := by
  intro hfeed
  obtain ⟨n, more, -, hn⟩ := viable_of_feed hfeed
  apply hn.eof_not_mem
  exact List.mem_append_left _ (List.mem_map.2 ⟨t, ht, heof⟩)

/-- What is left open has taken every token. -/
theorem feed_more_rest {m : Move} {g : Reading} {ts rest : List Token}
    (h : feed m ts = (.more g, rest)) : rest = [] := by
  induction ts generalizing m with
  | nil =>
    rw [feed_nil] at h
    cases h
    rfl
  | cons t ts ih =>
    cases m with
    | more g' => exact ih h
    | done d => cases h
    | fail e => cases h

/-- The report of a syntax error is at the first token that goes on no expression. -/
theorem refused_at_first {ts rest : List Token} {e : ReadError}
    (h : feed (.more start) ts = (.fail e, rest)) (he : e.what.isSyntax = true) :
    ∃ us t, ts = us ++ t :: rest ∧ e.place = t.place ∧ Viable us ∧ BeginsNone (us ++ [t]) := by
  obtain ⟨us, t, g, rfl, hus, ht⟩ := exists_refused h
  have hplace := take_failsAt g t
  rw [ht] at hplace
  have hlimit : e.what.isLimit = false := by
    cases hw : e.what <;> simp_all [ReadFault.isSyntax, ReadFault.isLimit]
  exact ⟨us, t, rfl, hplace, viable_of_feed hus, not_derives_of_refused hus ht hlimit⟩

end Reading

namespace Reader

variable {σ : Type} [Source σ]

/-- Where the text is all tokens, an attempt ends as a reading does that is fed all of them with the
end of input. -/
theorem read_endsAs_drain {source : σ} {ts : List Token} {final : Place}
    (h : ({ source } : TokenStream σ).drain = (ts ++ [(⟨.eof, final⟩ : Token)]).map .ok) :
    ∃ rest, EndsAs rest (ofSource source).read
      (Reading.feed (.more .start) (ts ++ [⟨.eof, final⟩])) := by
  obtain ⟨rest, hahead⟩ := ahead_of_drain h
  exact ⟨rest, resume_endsAs hahead⟩

/-- Where the text is all tokens, a syntax error has the place of one of these, the end of input
being one: those before it begin an expression that goes on after them, and together with it they
begin none. -/
theorem place_of_syntaxError (source : σ) {ts : List Token} {final : Place} {e : ReadError}
    {s : Reader σ}
    (h : ({ source } : TokenStream σ).drain = (ts ++ [(⟨.eof, final⟩ : Token)]).map .ok)
    (hread : (ofSource source).read = (.error e, s)) (he : e.what.isSyntax = true) :
    ∃ us t vs, ts ++ [⟨.eof, final⟩] = us ++ t :: vs ∧ e.place = t.place ∧
      (∃ n more, more ≠ [] ∧ Derives .expr n (us.map Token.lexeme ++ more)) ∧
      ∀ n more, ¬ Derives .expr n ((us ++ [t]).map Token.lexeme ++ more) := by
  obtain ⟨rest, hends⟩ := read_endsAs_drain h
  rw [hread] at hends
  rcases hfeed : Reading.feed (.more .start) (ts ++ [⟨.eof, final⟩]) with ⟨m, vs⟩
  rw [hfeed] at hends
  cases m with
  | more g =>
    obtain rfl := Reading.feed_more_rest hfeed
    exact absurd hfeed (Reading.feed_ne_more_of_eof (t := ⟨.eof, final⟩) (by simp) rfl)
  | done d =>
    obtain ⟨s', hs', -⟩ := hends
    cases hs'
  | fail e' =>
    obtain ⟨s', hs'⟩ := hends
    cases hs'
    obtain ⟨us, t, hts, hplace, hviable, hnone⟩ := Reading.refused_at_first hfeed he
    exact ⟨us, t, vs, hts, hplace, hviable, hnone⟩

/-- Inside a group of types a bar has to be followed by a type. -/
theorem place_of_syntaxError_bar :
    let source := LineReader.ofText "(f $(int | ) x"
    let ts : List Token := [⟨.lparen, ⟨0, 0⟩⟩, ⟨.ident "f", ⟨0, 1⟩⟩, ⟨.dollar, ⟨0, 3⟩⟩,
      ⟨.lparen, ⟨0, 4⟩⟩, ⟨.atom .int, ⟨0, 5⟩⟩, ⟨.bar, ⟨0, 9⟩⟩, ⟨.rparen, ⟨0, 11⟩⟩,
      ⟨.ident "x", ⟨0, 13⟩⟩]
    ({ source } : TokenStream LineReader).drain = (ts ++ [(⟨.eof, ⟨1, 0⟩⟩ : Token)]).map .ok ∧
      (ofSource source).read.1 = .error ⟨.expectedType, ⟨0, 11⟩⟩ ∧
      ∃ us t vs, ts ++ [⟨.eof, ⟨1, 0⟩⟩] = us ++ t :: vs ∧ t.place = ⟨0, 11⟩ ∧
        ∀ n more, ¬ Derives .expr n ((us ++ [t]).map Token.lexeme ++ more) := by
  intro source ts
  have hdrain : ({ source } : TokenStream LineReader).drain =
      (ts ++ [(⟨.eof, ⟨1, 0⟩⟩ : Token)]).map .ok := by decide +kernel
  have hfails : (match (ofSource source).read.1 with
      | .error e => decide (e = ⟨.expectedType, ⟨0, 11⟩⟩)
      | .ok _ => false) = true := by decide +kernel
  rcases hread : (ofSource source).read with ⟨x, s⟩
  rw [hread] at hfails
  cases x with
  | ok d => cases hfails
  | error e =>
    obtain rfl : e = ⟨.expectedType, ⟨0, 11⟩⟩ := of_decide_eq_true hfails
    obtain ⟨us, t, vs, hts, hplace, -, hnone⟩ := place_of_syntaxError source hdrain hread rfl
    exact ⟨hdrain, rfl, us, t, vs, hts, hplace.symm, hnone⟩

end Reader
end Lisplet
