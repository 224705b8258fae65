import Lisplet.Proofs.Reader.Lockstep
import Lisplet.Proofs.Token.Extent

/-!
Streams with the same tokens. All that a stream yields is known once it has been
drained, since only the end of input comes after that, again and again. So two
streams of which the drained tokens have the same classes and texts stay alike
for ever.
-/
namespace Lisplet

/-- A token is known by its class and its text. -/
theorem Lexeme.eq_of_kind_text {l m : Lexeme} (hkind : l.kind = m.kind) (htext : l.text? = m.text?) :
    l = m := by
  have hatom : ∀ a b : Atom, a.word = b.word → a = b := by
    intro a b hab
    have hword := Atom.ofWord?_word a
    rw [hab, Atom.ofWord?_word] at hword
    exact (Option.some.inj hword).symm
  cases l with
  | atom a =>
    cases m with
    | atom b => rw [hatom a b (Option.some.inj htext)]
    | _ => cases a <;> cases hkind
  | bool a =>
    cases m with
    | atom b => cases b <;> cases hkind
    | bool b => cases a <;> cases b <;> first | rfl | exact absurd htext (by decide)
    | _ => cases hkind
  | _ =>
    cases m with
    | atom b => cases b <;> cases hkind
    | _ => first | rfl | exact absurd htext (by decide) | (cases htext; rfl) | cases hkind

/-- A token that is complete is not the end of input. -/
theorem Scan.ne_eof_of_step {s : Scan} {c : Char} {place : Place} {t : Token}
    (h : s.step c place = .done t ∨ s.step c place = .hold t) : t.lexeme ≠ .eof := by
  have hword : ∀ start seen, (wordToken start seen).lexeme ≠ .eof := fun start seen =>
    (classifies_ofWord seen.reverse).ne_eof
  cases s with
  | gap =>
    rcases h with h | h
    · simp only [step] at h
      split at h
      next => cases h
      next =>
        split at h
        next => cases h
        next =>
          unfold first at h
          split at h
          next hl => cases h; exact ofPunctuation?_ne_eof hl
          next => split at h <;> cases h
    · exact absurd h (TokenStream.step_gap_ne_hold c place t)
  | comment => rcases h with h | h <;> simp only [step] at h <;> split at h <;> cases h
  | word start seen =>
    rcases h with h | h
    all_goals
      simp only [step] at h
      split at h
      next => cases h <;> exact hword _ _
      next => split at h <;> cases h <;> exact hword _ _
  | string start seen =>
    rcases h with h | h
    all_goals
      simp only [step] at h
      split at h
      next => cases h <;> simp [stringToken]
      next => split at h <;> cases h
  | escape start seen slash => rcases h with h | h <;> simp only [step] at h <;> split at h <;> cases h

namespace TokenStream

variable {σ τ : Type} [Source σ] [Source τ]

/-- Input has ended where a stream says so. -/
theorem pull?_of_eof {s : Scan} {ts : TokenStream σ} {t : Token} (h : (scan s ts).1 = .ok t)
    (he : t.lexeme = .eof) :
    (scan s ts).2.pull? = none ∧ t = ⟨.eof, Source.place (scan s ts).2.source⟩ := by
  fun_induction scan s ts with
  | case1 s ts hpull =>
    refine ⟨hpull, ?_⟩
    cases s with
    | gap | comment => cases h; rfl
    | word start seen => cases h; exact absurd he (classifies_ofWord seen.reverse).ne_eof
    | string | escape => cases h
  | case2 s ts c place ts' hpull next hstep ih => exact ih h
  | case3 s ts c place ts' hpull token hstep =>
    cases h
    exact absurd he (Scan.ne_eof_of_step (.inl hstep))
  | case4 s ts c place ts' hpull token hstep =>
    cases h
    exact absurd he (Scan.ne_eof_of_step (.inr hstep))
  | case5 => cases h

/-- What is drained is the next token or error, and then all of the rest; but the end of input is
not used up. -/
theorem drain_cases (ts : TokenStream σ) :
    (∃ t, ts.next.1 = .ok t ∧ t.lexeme = .eof ∧ ts.drain = [.ok t] ∧ ts.next.2.drain = [.ok t]) ∨
      ((∀ t, ts.next.1 = .ok t → t.lexeme ≠ .eof) ∧ ts.drain = ts.next.1 :: ts.next.2.drain) := by
  rcases hnext : ts.next with ⟨x, ts'⟩
  cases x with
  | error e => exact .inr ⟨by simp, drain_of_error hnext⟩
  | ok t =>
    by_cases he : t.lexeme = .eof
    · obtain ⟨hpull, ht⟩ := pull?_of_eof (s := .gap) (congrArg Prod.fst hnext) he
      rw [show scan .gap ts = (.ok t, ts') from hnext] at hpull ht
      have hagain : ts'.next = (.ok t, ts') := by
        rw [ht]
        exact scan_of_end hpull .gap
      exact .inl ⟨t, rfl, he, drain_of_eof hnext he, drain_of_eof hagain he⟩
    · refine .inr ⟨?_, drain_of_token hnext he⟩
      rintro _ ⟨⟩
      exact he

/-- The end of input is like nothing else. -/
theorem ScansAlike.eof_iff {f : Place → Place} {x y : Except ScanError Token}
    (h : ScansAlike f x y) :
    (∃ t, x = .ok t ∧ t.lexeme = .eof) ↔ ∃ u, y = .ok u ∧ u.lexeme = .eof := by
  cases h with
  | error he => simp
  | ok htu =>
    have hlexeme : _ = _ := congrArg Token.lexeme htu
    simp only [Token.lexeme_relocate] at hlexeme
    simp [hlexeme]

def DrainAlike (f : Place → Place) (ts : TokenStream σ) (us : TokenStream τ) : Prop :=
  List.Forall₂ (ScansAlike f) ts.drain us.drain

/-- Streams that are drained alike yield tokens and errors that are alike, and go on so. -/
theorem keepsAlike_drainAlike (f : Place → Place) :
    KeepsAlike f (DrainAlike f : TokenStream σ → TokenStream τ → Prop) := by
  intro ts us h
  unfold DrainAlike at h ⊢
  rcases drain_cases ts with ⟨t, ht, hteof, hts, hts'⟩ | ⟨htne, hts⟩ <;>
    rcases drain_cases us with ⟨u, hu, hueof, hus, hus'⟩ | ⟨hune, hus⟩ <;>
    rw [hts, hus, List.forall₂_cons] at h
  · rw [ht, hu, hts', hus']
    exact ⟨h.1, .cons h.1 .nil⟩
  · obtain ⟨u, hu, hueof⟩ := (ScansAlike.eof_iff h.1).1 ⟨t, rfl, hteof⟩
    exact absurd hueof (hune u hu)
  · obtain ⟨t, ht, hteof⟩ := (ScansAlike.eof_iff h.1).2 ⟨u, rfl, hueof⟩
    exact absurd hteof (htne t ht)
  · exact h

/-- Tokens with the same classes and texts are alike, wherever they stand. -/
theorem drainAlike_of_tokens {ts : TokenStream σ} {us : TokenStream τ} {toks toks' : List Token}
    (hts : ts.drain = toks.map .ok) (hus : us.drain = toks'.map .ok)
    (h : toks.map (fun t => (t.kind, t.lexeme.text?)) =
      toks'.map fun t => (t.kind, t.lexeme.text?)) : DrainAlike Datum.nowhere ts us := by
  unfold DrainAlike
  rw [hts, hus]
  clear hts hus
  induction toks generalizing toks' with
  | nil =>
    obtain rfl := List.map_eq_nil_iff.1 h.symm
    exact .nil
  | cons t toks ih =>
    obtain ⟨u, toks', rfl, hu, htoks⟩ := List.map_eq_cons_iff.1 h.symm
    have hlexeme : t.lexeme = u.lexeme :=
      Lexeme.eq_of_kind_text (congrArg Prod.fst hu).symm (congrArg Prod.snd hu).symm
    have hfirst : t.relocate Datum.nowhere = u.relocate Datum.nowhere :=
      congrArg (Token.mk · default) hlexeme
    exact .cons (.ok hfirst) (ih htoks.symm)

end TokenStream
end Lisplet
