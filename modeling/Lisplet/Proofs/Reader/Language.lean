import Lisplet.Proofs.Grammar.Derives
import Lisplet.Proofs.RoundTrip

/-!
The language of a reader. On a text that is all tokens it reads an expression
exactly if the tokens begin with one whose levels fit and whose numerals are
words. There is only one such beginning; it is used up and nothing after it, and
the datum is the one that it spells.
-/
namespace Lisplet

/-- No phrase goes past the end of input. -/
theorem Derives.eof_not_mem {p : Phrase} {n : Nat} {ls : List Lexeme} (h : Derives p n ls) :
    .eof ∉ ls := by
  induction h with
  | value hl =>
    rintro (_ | ⟨_, ⟨⟩⟩)
    cases hl
  | _ => simp_all

/-- Within the deepest nesting tokens spell one datum only, since the reading machine completes it. -/
theorem Spells.eq_of_le {m n : Nat} {ts : List Token} {d e : Datum} (h : Spells m ts d)
    (hm : m ≤ maxNesting) (h' : Spells n ts e) : n = m ∧ e = d := by
  obtain ⟨-, rfl⟩ := h.derives.1.eq_of_begins h'.derives.1 (List.prefix_refl _)
  have hd : Reading.feed (.more .start) (ts ++ []) = (.done d, []) :=
    Reading.feed_start_done_iff.2 ⟨m, hm, h⟩
  have he : Reading.feed (.more .start) (ts ++ []) = (.done e, []) :=
    Reading.feed_start_done_iff.2 ⟨m, hm, h'⟩
  rw [hd, Prod.mk.injEq, Reading.Move.done.injEq] at he
  exact ⟨rfl, he.1.symm⟩

/-- Tokens at the front of a stream that do not include `t` are there before `t` comes. -/
theorem prefix_of_append_stream {us ts : List Token} {t : Token}
    {rest rest' : Stream' (Except ReadError Token)} (hne : t ∉ us)
    (he : ts.map .ok ++ₛ .cons (.ok t) rest = us.map .ok ++ₛ rest') : us <+: ts := by
  induction us generalizing ts with
  | nil => exact List.nil_prefix
  | cons u us ih =>
    rw [List.mem_cons, not_or] at hne
    rw [List.map_cons, Stream'.cons_append_stream] at he
    cases ts with
    | nil =>
      obtain ⟨hu, -⟩ := Stream'.cons_injective2 he
      exact absurd (Except.ok.inj hu) hne.1
    | cons t' ts =>
      obtain ⟨hu, hrest⟩ := Stream'.cons_injective2 he
      obtain rfl := Except.ok.inj hu
      exact List.cons_prefix_cons.2 ⟨rfl, ih hne.2 hrest⟩

variable {σ : Type} [Source σ]

/-- Scanning yields the drained items first. -/
theorem TokenStream.results_eq_drain (ts : TokenStream σ) :
    ∃ rest, ts.results = ts.drain ++ₛ rest := by
  fun_induction drain ts with
  | case1 ts e ts' h ih =>
    obtain ⟨rest, hrest⟩ := ih
    exact ⟨rest, by rw [results_eq, h, hrest, Stream'.cons_append_stream]⟩
  | case2 ts t ts' h he => exact ⟨ts'.results, by rw [results_eq, h]; rfl⟩
  | case3 ts t ts' h he ih =>
    obtain ⟨rest, hrest⟩ := ih
    exact ⟨rest, by rw [results_eq, h, hrest, Stream'.cons_append_stream]⟩

namespace Reader

/-- A new reader has the drained items ahead. -/
theorem ahead_of_drain {source : σ} {ts : List Token}
    (h : ({ source } : TokenStream σ).drain = ts.map .ok) :
    ∃ rest, (ofSource source).ahead = ts.map .ok ++ₛ rest := by
  obtain ⟨rest, hrest⟩ := TokenStream.results_eq_drain ({ source } : TokenStream σ)
  refine ⟨rest.map (.mapError (.map .scan)), ?_⟩
  simp only [ahead, ofSource, hrest, h, Stream'.map_append_stream, List.map_map]
  rfl

/-- Where the text is all tokens, an expression is read exactly if the tokens begin with one. It is
the only beginning that is an expression, no token after it is used up, and its datum is read. -/
theorem read_iff_derives (source : σ) {ts : List Token} {final : Place}
    (h : ({ source } : TokenStream σ).drain = (ts ++ [(⟨.eof, final⟩ : Token)]).map .ok) :
    ((∃ d s, (ofSource source).read = (.ok d, s)) ↔
      ∃ us n, us <+: ts ∧ n ≤ 128 ∧ Derives .expr n (us.map Token.lexeme) ∧
        FitWords (us.map Token.lexeme)) ∧
    (∀ us n, us <+: ts → n ≤ 128 → Derives .expr n (us.map Token.lexeme) →
      FitWords (us.map Token.lexeme) →
      ∃ d s, (ofSource source).read = (.ok d, s) ∧ Spells n us d ∧
        (∀ m e, Spells m us e → m = n ∧ e = d) ∧
        s.Idle ∧ (ofSource source).ahead = us.map .ok ++ₛ s.ahead) ∧
    (∀ m n ls ms, Derives .expr m ls → Derives .expr n ms → ls <+: ms → ls = ms ∧ m = n) := by
  obtain ⟨rest, hahead⟩ := ahead_of_drain h
  rw [List.map_append, Stream'.append_append_stream] at hahead
  have hidle : (ofSource source).Idle := idle_ofSource source
  have hread : ∀ us n, us <+: ts → n ≤ 128 → Derives .expr n (us.map Token.lexeme) →
      FitWords (us.map Token.lexeme) →
      ∃ d s, (ofSource source).read = (.ok d, s) ∧ Spells n us d ∧
        (∀ m e, Spells m us e → m = n ∧ e = d) ∧
        s.Idle ∧ (ofSource source).ahead = us.map .ok ++ₛ s.ahead := by
    rintro us n ⟨vs, rfl⟩ hn hderives hfit
    obtain ⟨d, hd⟩ := exists_spells_iff.2 ⟨hderives, hfit⟩
    rw [List.map_append, Stream'.append_append_stream] at hahead
    obtain ⟨s, hs, hrest⟩ := read_of_spells hidle hahead hd hn
    have hs' := idle_read hidle
    rw [hs] at hs'
    exact ⟨d, s, hs, hd, fun m e he => hd.eq_of_le hn he, hs', by rw [hahead, hrest]⟩
  refine ⟨⟨?_, ?_⟩, hread, fun m n ls ms hl hm hp => hl.eq_of_begins hm hp⟩
  · rintro ⟨d, s, hs⟩
    have hends := ends_read hidle
    rw [hs] at hends
    obtain ⟨-, n, hn, us, hspells, hus⟩ := hends
    obtain ⟨hderives, hfit⟩ := hspells.derives
    have hne : (⟨.eof, final⟩ : Token) ∉ us := fun hmem =>
      hderives.eof_not_mem (List.mem_map_of_mem hmem)
    exact ⟨us, n, prefix_of_append_stream hne (hahead.symm.trans hus), hn, hderives, hfit⟩
  · rintro ⟨us, n, hus, hn, hderives, hfit⟩
    obtain ⟨d, s, hs, -⟩ := hread us n hus hn hderives hfit
    exact ⟨d, s, hs⟩

/-- A call with a signed numeral and a type literal, and a name that is left over. -/
theorem read_iff_derives_call :
    let source := LineReader.ofText "(f '+7 $(int | [?t] | str)) g"
    let form : List Token := [⟨.lparen, ⟨0, 0⟩⟩, ⟨.ident "f", ⟨0, 1⟩⟩, ⟨.quote, ⟨0, 3⟩⟩,
      ⟨.int "+7", ⟨0, 4⟩⟩, ⟨.dollar, ⟨0, 7⟩⟩, ⟨.lparen, ⟨0, 8⟩⟩, ⟨.atom .int, ⟨0, 9⟩⟩,
      ⟨.bar, ⟨0, 13⟩⟩, ⟨.lbracket, ⟨0, 15⟩⟩, ⟨.question, ⟨0, 16⟩⟩, ⟨.ident "t", ⟨0, 17⟩⟩,
      ⟨.rbracket, ⟨0, 18⟩⟩, ⟨.bar, ⟨0, 20⟩⟩, ⟨.atom .str, ⟨0, 22⟩⟩, ⟨.rparen, ⟨0, 25⟩⟩,
      ⟨.rparen, ⟨0, 26⟩⟩]
    let ts := form ++ [⟨.ident "g", ⟨0, 28⟩⟩]
    ({ source } : TokenStream LineReader).drain =
        (ts ++ [(⟨.eof, ⟨1, 0⟩⟩ : Token)]).map .ok ∧
      ∃ d s, (ofSource source).read = (.ok d, s) ∧ Spells 5 form d ∧
        (ofSource source).ahead = form.map .ok ++ₛ s.ahead := by
  intro source form ts
  have hdrain : ({ source } : TokenStream LineReader).drain =
      (ts ++ [(⟨.eof, ⟨1, 0⟩⟩ : Token)]).map .ok := by decide +kernel
  have hform : Spells 5 form (.list ⟨0, 0⟩ [.ident ⟨0, 1⟩ "f", .quote ⟨0, 3⟩ (.int ⟨0, 4⟩ 7),
      .type ⟨0, 7⟩ (.union (.union (.atom .int) (.listOf (.infer "t"))) (.atom .str))]) := by
    have hmembers := SpellsMembers.more (b := ⟨.bar, ⟨0, 20⟩⟩)
      (.more (b := ⟨.bar, ⟨0, 13⟩⟩) (.one (.atom (t := ⟨.atom .int, ⟨0, 9⟩⟩) rfl)) rfl
        (.listOf (l := ⟨.lbracket, ⟨0, 15⟩⟩) (r := ⟨.rbracket, ⟨0, 18⟩⟩) rfl
          (.infer (q := ⟨.question, ⟨0, 16⟩⟩) (t := ⟨.ident "t", ⟨0, 17⟩⟩) rfl rfl) rfl))
      rfl (.atom (t := ⟨.atom .str, ⟨0, 22⟩⟩) rfl)
    have htype := Spells.type (t := ⟨.dollar, ⟨0, 7⟩⟩) rfl
      (.group (l := ⟨.lparen, ⟨0, 8⟩⟩) (r := ⟨.rparen, ⟨0, 25⟩⟩) rfl hmembers rfl)
    have hint := Spells.quote (t := ⟨.quote, ⟨0, 3⟩⟩) rfl
      (.int (t := ⟨.int "+7", ⟨0, 4⟩⟩) (n := 7) rfl (by decide))
    exact .list (l := ⟨.lparen, ⟨0, 0⟩⟩) (r := ⟨.rparen, ⟨0, 26⟩⟩) rfl
      (.cons (.ident (t := ⟨.ident "f", ⟨0, 1⟩⟩) rfl) (.cons hint (.cons htype .nil))) rfl
  obtain ⟨hderives, hfit⟩ := hform.derives
  obtain ⟨d, s, hread, hspells, -, -, hahead⟩ := (read_iff_derives source hdrain).2.1 form 5
    (List.prefix_append ..) (by decide) hderives hfit
  exact ⟨hdrain, d, s, hread, hspells, hahead⟩

end Reader
end Lisplet
