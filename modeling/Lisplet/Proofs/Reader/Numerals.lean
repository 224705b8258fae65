import Lisplet.Proofs.Reading.Refuses
import Lisplet.Proofs.RoundTrip
import Lisplet.Proofs.Text.Decimal
import Lisplet.Proofs.Token.Gap
import Lisplet.Text.Chars
import Mathlib.Data.List.Forall2

/-!
Integers in what is read. A numeral in the text is one token, and where an
expression may begin this token is the integer that it denotes, or is refused
and put back if there is no such word. The integers in a datum that has been read
are the numerals among its tokens, in the same order.
-/
namespace Lisplet

open Text.Numeral

namespace TokenStream

variable {σ : Type} [Source σ] {ts : TokenStream σ} {w : List Char} {p : Place}

/-- Behind a gap the text goes on with this word, which begins at `p` and ends where it ends. -/
inductive WordAhead (ts : TokenStream σ) (w : List Char) (p : Place) : Prop where
  | mk {gap word rest : List (Char × Place)} : ts.chars = gap ++ (word ++ rest) → Gap gap →
      word.map Prod.fst = w → word.head?.map Prod.snd = some p → isWord w = true →
      endsWord (rest.map Prod.fst) = true → WordAhead ts w p

/-- The word is what scanning yields next. -/
theorem WordAhead.results (h : ts.WordAhead w p) :
    ∃ ts' : TokenStream σ, ts.results = .cons (.ok ⟨Lexeme.ofWord w, p⟩) ts'.results := by
  cases h with
  | @mk gap word rest hchars hgap hw hp hword hrest =>
    obtain _ | ⟨⟨c, q⟩, word⟩ := word
    · cases hp
    obtain rfl : q = p := Option.some.inj hp
    subst hw
    rw [List.map_cons, isWord, Bool.and_eq_true] at hword
    obtain ⟨after, hconsume, -⟩ := consume_word ts.endPlace q [c] hword.2 hrest
    have hfirst : Scan.gap.consume ts.endPlace ts.chars =
        (.ok ⟨Lexeme.ofWord (c :: word.map Prod.fst), q⟩, after) := by
      rw [hchars, hgap.consume_append, List.cons_append]
      simp only [Scan.consume, step_gap_word hword.1]
      rw [hconsume, Scan.wordToken, List.reverse_append, List.reverse_reverse]
      rfl
    obtain ⟨ts', hnext, -⟩ := next_of_consume hfirst
    exact ⟨ts', by rw [results_eq, hnext]; rfl⟩

end TokenStream

namespace Datum

mutual

def ints : Datum → List (Place × Int64)
  | int p n => [(p, n)]
  | quote _ inner => ints inner
  | list _ items => intsAll items
  | func _ _ _ body => ints body
  | _ => []

def intsAll : List Datum → List (Place × Int64)
  | [] => []
  | d :: ds => ints d ++ intsAll ds

end

end Datum

namespace Token

def isInt (t : Token) : Bool := t.kind = .int

def IsNumeralOf (t : Token) (x : Place × Int64) : Prop :=
  ∃ word, t.lexeme = .int word ∧ t.place = x.1 ∧ Denotes word.toList x.2.toInt

theorem isInt_of_lexeme {t : Token} {l : Lexeme} (h : t.lexeme = l) :
    t.isInt = decide (l.kind = .int) := by
  rw [isInt, kind, h]

end Token

mutual

/-- There is no integer in a type. -/
theorem SpellsTy.no_ints : ∀ {n : Nat} {ts : List Token} {ty : Ty}, SpellsTy n ts ty →
    ts.filter Token.isInt = []
  | _, _, _, .atom (a := a) ht => by cases a <;> simp [Token.isInt_of_lexeme ht, Lexeme.kind]
  | _, _, _, .quoted ht h => by simp [Token.isInt_of_lexeme ht, Lexeme.kind, h.no_ints]
  | _, _, _, .listOf hl h hr | _, _, _, .group hl h hr => by
    simp [Token.isInt_of_lexeme hl, Token.isInt_of_lexeme hr, Lexeme.kind, h.no_ints]
  | _, _, _, .infer hq ht => by
    simp [Token.isInt_of_lexeme hq, Token.isInt_of_lexeme ht, Lexeme.kind]

theorem SpellsMembers.no_ints : ∀ {n : Nat} {ts : List Token} {ty : Ty}, SpellsMembers n ts ty →
    ts.filter Token.isInt = []
  | _, _, _, .one h => h.no_ints
  | _, _, _, .more hs hb h => by
    simp [Token.isInt_of_lexeme hb, Lexeme.kind, hs.no_ints, h.no_ints]

end

mutual

/-- The integers of a datum are the numerals among the tokens that spell it. -/
theorem Spells.ints : ∀ {n : Nat} {ts : List Token} {d : Datum}, Spells n ts d →
    List.Forall₂ Token.IsNumeralOf (ts.filter Token.isInt) d.ints
  | _, _, _, .nil ht | _, _, _, .bool ht | _, _, _, .str ht | _, _, _, .ident ht => by
    simp [Token.isInt_of_lexeme ht, Lexeme.kind, Datum.ints]
  | _, _, _, .int ht hn => by
    simp only [List.filter_cons, Token.isInt_of_lexeme ht, Lexeme.kind, List.filter_nil, Datum.ints]
    exact .cons ⟨_, ht, rfl, word64?_iff_denotes.1 hn⟩ .nil
  | _, _, _, .quote ht h => by
    simpa [Token.isInt_of_lexeme ht, Lexeme.kind, Datum.ints] using h.ints
  | _, _, _, .list hl h hr => by
    simpa [Token.isInt_of_lexeme hl, Token.isInt_of_lexeme hr, Lexeme.kind, Datum.ints] using h.ints
  | _, _, _, .type ht h => by
    simp [Token.isInt_of_lexeme ht, Lexeme.kind, Datum.ints, h.no_ints]

theorem SpellsAll.ints : ∀ {n : Nat} {ts : List Token} {ds : List Datum}, SpellsAll n ts ds →
    List.Forall₂ Token.IsNumeralOf (ts.filter Token.isInt) (Datum.intsAll ds)
  | _, _, _, .nil => .nil
  | _, _, _, .cons h hs => by
    rw [List.filter_append, Datum.intsAll]
    exact List.rel_append h.ints hs.ints

end

namespace Reading

variable {stack : List OpenForm} {before : List Token} {t : Token} {word : String}

/-- Tokens that have opened some forms are all taken, and an expression may come next. -/
theorem feed_opened (h : Opened stack before) (hroom : stack.length ≤ maxNesting) :
    feed (.more start) before = (.more ⟨stack, .expr⟩, []) := by
  induction h with
  | nil => rfl
  | quote _ ht ih =>
    rw [List.length_cons] at hroom
    rw [feed_append, ih (Nat.le_of_lt hroom)]
    simp [take_expr, openExpr, ht, Nat.lt_of_succ_le hroom]
  | @list stack ts us l n items _ hl hall hn ih =>
    have hlt : stack.length < maxNesting := by omega
    have hitems := feed_spellsAll hall l.place [] stack [] hn
    rw [List.append_nil, List.append_nil, List.reverse_reverse, feed_nil] at hitems
    rw [feed_append, ih (Nat.le_of_lt hlt)]
    simp [take_expr, openExpr, hl, hlt, hitems]

/-- A token behind them is the first one of an expression. -/
theorem feed_openExpr_of_opened (h : Opened stack before) (hroom : stack.length < maxNesting)
    (hne : t.lexeme ≠ .rparen) :
    feed (.more start) (before ++ [t]) = (openExpr stack t, []) := by
  rw [feed_append, feed_opened h (Nat.le_of_lt hroom), List.nil_append, feed_more, take_expr hne,
    if_pos hroom, feed_nil]

theorem feed_word {n : Int64} (h : Opened stack before) (hroom : stack.length < maxNesting)
    (ht : t.lexeme = .int word) (hword : word64? word.toList = some n) :
    feed (.more start) (before ++ [t]) = (give (.int t.place n) stack, []) := by
  rw [feed_openExpr_of_opened h hroom (by simp [ht])]
  simp only [openExpr, ht, hword]

theorem feed_noWord (h : Opened stack before) (hroom : stack.length < maxNesting)
    (ht : t.lexeme = .int word) (hword : word64? word.toList = none) :
    feed (.more start) (before ++ [t]) = (.fail ⟨.intOutOfRange word, t.place⟩, []) := by
  rw [feed_openExpr_of_opened h hroom (by simp [ht])]
  simp only [openExpr, ht, hword]

end Reading

namespace Reader

variable {σ : Type} [Source σ]

/-- How a reader of this source reads integers. What is ahead of it are its tokens. -/
structure ReadsNumerals (σ : Type) [Source σ] : Prop where
  /-- A numeral of any length is a word, with nothing in it that ends one. -/
  oneWord {w : List Char} {v : Int} : Denotes w v → isWord w = true
  /-- A word in the text is one token, behind those that are pending. It is an integer token, with the
  word as it is written, if the word is a numeral, and no integer token otherwise. -/
  token {r : Reader σ} {w : List Char} {p : Place} : r.tokens.WordAhead w p →
    ∃ l rest, r.ahead = r.pending.map .ok ++ₛ .cons (.ok ⟨l, p⟩) rest ∧
      ∀ text, l = .int text ↔ text = String.ofList w ∧ ∃ v, Denotes w v
  /-- A numeral in range is read as what it denotes. -/
  inRange {r : Reader σ} {t : Token} {rest : Stream' (Except ReadError Token)} {word : String}
    {v : Int} : r.Idle → r.ahead = .cons (.ok t) rest → t.lexeme = .int word →
    Denotes word.toList v → InRange v →
    ∃ n s, n.toInt = v ∧ r.read = (.ok (.int t.place n), s) ∧ s.ahead = rest
  /-- Behind tokens that have opened some forms, it goes into the innermost one. -/
  nested {stack : List OpenForm} {before : List Token} {t : Token} {word : String} {v : Int} :
    Reading.Opened stack before → stack.length < maxNesting → t.lexeme = .int word →
    Denotes word.toList v → InRange v → ∃ n : Int64, n.toInt = v ∧
      Reading.feed (.more .start) (before ++ [t]) = (Reading.give (.int t.place n) stack, [])
  /-- A numeral out of range is refused, with the word and its place. It is put back, and so are all
  tokens before it that have opened some forms. -/
  outOfRange {r : Reader σ} {stack : List OpenForm} {before : List Token} {t : Token}
    {rest : Stream' (Except ReadError Token)} {word : String} {v : Int} : r.Idle →
    r.ahead = before.map .ok ++ₛ .cons (.ok t) rest → Reading.Opened stack before →
    stack.length < maxNesting → t.lexeme = .int word → Denotes word.toList v → ¬ InRange v →
    ∃ s, r.read = (.error ⟨.intOutOfRange word, t.place⟩, s) ∧ s.ahead = r.ahead
  /-- The integers in what is read are the numerals among the tokens that it is read from. -/
  ints {r s : Reader σ} {d : Datum} : r.Idle → r.read = (.ok d, s) →
    ∃ ts : List Token, r.ahead = ts.map .ok ++ₛ s.ahead ∧
      List.Forall₂ Token.IsNumeralOf (ts.filter Token.isInt) d.ints

theorem read_word {r : Reader σ} {t : Token} {rest : Stream' (Except ReadError Token)}
    {word : String} {n : Int64} (hr : r.Idle) (hahead : r.ahead = .cons (.ok t) rest)
    (ht : t.lexeme = .int word) (hword : word64? word.toList = some n) :
    ∃ s, r.read = (.ok (.int t.place n), s) ∧ s.ahead = rest := by
  have htokens : r.ahead = [t].map .ok ++ₛ rest := hahead
  exact read_of_spells hr htokens (.int ht hword) (by decide)

/-- A numeral whose value fits no word is refused with its text, at its place, and nothing is
consumed. -/
theorem read_noWord {r : Reader σ} {stack : List OpenForm} {before : List Token} {t : Token}
    {rest : Stream' (Except ReadError Token)} {word : String} (hr : r.Idle)
    (hahead : r.ahead = before.map .ok ++ₛ .cons (.ok t) rest)
    (hbefore : Reading.Opened stack before) (hroom : stack.length < maxNesting)
    (ht : t.lexeme = .int word) (hword : word64? word.toList = none) :
    ∃ s, r.read = (.error ⟨.intOutOfRange word, t.place⟩, s) ∧ s.ahead = r.ahead := by
  have htokens : r.ahead = (before ++ [t]).map .ok ++ₛ rest := by
    rw [hahead, List.map_append, Stream'.append_append_stream]
    rfl
  have hread := resume_endsAs htokens
  rw [hr.reading, Reading.feed_noWord hbefore hroom ht hword] at hread
  obtain ⟨s, hs⟩ := hread
  have hends := ends_read hr
  change r.read = _ at hs
  rw [hs] at hends
  exact ⟨s, hs, hends.2⟩

theorem readsNumerals : ReadsNumerals σ where
  oneWord h := h.isWord
  token h := by
    obtain ⟨ts', hresults⟩ := h.results
    refine ⟨_, ts'.results.map (.mapError (.map .scan)), ?_, fun _ => Lexeme.ofWord_eq_int_iff⟩
    rw [ahead, hresults, Stream'.map_cons]
    rfl
  inRange hr hahead ht hw hv := by
    obtain ⟨n, hn, hword⟩ := hw.exists_word hv
    obtain ⟨s, hs, hrest⟩ := read_word hr hahead ht hword
    exact ⟨n, s, hn, hs, hrest⟩
  nested hbefore hroom ht hw hv := by
    obtain ⟨n, hn, hword⟩ := hw.exists_word hv
    exact ⟨n, hn, Reading.feed_word hbefore hroom ht hword⟩
  outOfRange hr hahead hbefore hroom ht hw hv :=
    read_noWord hr hahead hbefore hroom ht (hw.no_word hv)
  ints hr hread := by
    have hends := ends_read hr
    rw [hread] at hends
    obtain ⟨-, _, -, ts, hspells, hahead⟩ := hends
    exact ⟨ts, hahead, hspells.ints⟩

/-- The numeral of the least word, with a zero more in front, and the first one that is too large. -/
theorem readsNumerals_limits :
    let r := ofSource (CharReader.ofString "-09223372036854775808")
    let q := ofSource (CharReader.ofString "9223372036854775808")
    (∃ s, r.read = (.ok (.int ⟨0, 0⟩ Int64.minValue), s)) ∧
      ∃ s, q.read = (.error ⟨.intOutOfRange "9223372036854775808", ⟨0, 0⟩⟩, s) ∧
        s.ahead = q.ahead := by
  intro r q
  have hreads : ReadsNumerals CharReader := readsNumerals
  have hr : Denotes "-09223372036854775808".toList (-2 ^ 63) := value?_eq_some_iff.1 (by decide)
  have hq : Denotes "9223372036854775808".toList (2 ^ 63) := value?_eq_some_iff.1 (by decide)
  have hword : r.tokens.WordAhead "-09223372036854775808".toList ⟨0, 0⟩ :=
    .mk (List.append_nil _).symm .nil (by decide +kernel) (by decide +kernel) (by decide) rfl
  have hword' : q.tokens.WordAhead "9223372036854775808".toList ⟨0, 0⟩ :=
    .mk (List.append_nil _).symm .nil (by decide +kernel) (by decide +kernel) (by decide) rfl
  obtain ⟨l, rest, hahead, hl⟩ := hreads.token hword
  obtain ⟨l', rest', hahead', hl'⟩ := hreads.token hword'
  obtain rfl := (hl _).2 ⟨rfl, _, hr⟩
  obtain rfl := (hl' _).2 ⟨rfl, _, hq⟩
  refine ⟨?_, ?_⟩
  · obtain ⟨n, s, hn, hread, -⟩ := hreads.inRange (idle_ofSource _) hahead rfl hr (by decide)
    obtain rfl : n = Int64.minValue := Int64.toInt_inj.1 hn
    exact ⟨s, hread⟩
  · exact hreads.outOfRange (idle_ofSource _) hahead' .nil (by decide) rfl hq (by decide)

end Reader
end Lisplet
