import Lisplet.Proofs.Grammar

/-!
The grammar without the data: which sequences of lexemes are an expression or a
type, and with how many levels. Nothing is said of the values of numerals here;
a sequence spells a datum exactly if it is derived and its numerals are words.
A phrase ends where its own lexemes say so. Hence no expression begins another
one, however deep either of them goes.
-/
namespace Lisplet

inductive Phrase where
  | expr
  /-- The items of a list. -/
  | exprs
  | type
  /-- Types with bars between them, at least one. -/
  | members
  deriving DecidableEq, Repr

def Lexeme.isValue : Lexeme → Bool
  | .atom .nil | .bool _ | .int _ | .str _ | .ident _ => true
  | _ => false

/-- The lexemes are derived from a phrase, with exactly so many levels: every expression and every
type inside another one is a level deeper. -/
inductive Derives : Phrase → Nat → List Lexeme → Prop where
  | value {l : Lexeme} : l.isValue = true → Derives .expr 1 [l]
  | quote {n : Nat} {ls : List Lexeme} : Derives .expr n ls → Derives .expr (n + 1) (.quote :: ls)
  | list {n : Nat} {ls : List Lexeme} :
      Derives .exprs n ls → Derives .expr (n + 1) (.lparen :: (ls ++ [.rparen]))
  | literal {n : Nat} {ls : List Lexeme} :
      Derives .type n ls → Derives .expr (n + 1) (.dollar :: ls)
  | none : Derives .exprs 0 []
  | more {m n : Nat} {ls ms : List Lexeme} :
      Derives .expr m ls → Derives .exprs n ms → Derives .exprs (max m n) (ls ++ ms)
  | atom {a : Atom} : Derives .type 1 [.atom a]
  | quoted {n : Nat} {ls : List Lexeme} :
      Derives .type n ls → Derives .type (n + 1) (.quote :: ls)
  | listOf {n : Nat} {ls : List Lexeme} :
      Derives .type n ls → Derives .type (n + 1) (.lbracket :: (ls ++ [.rbracket]))
  | infer {name : String} : Derives .type 1 [.question, .ident name]
  | group {n : Nat} {ls : List Lexeme} :
      Derives .members n ls → Derives .type (n + 1) (.lparen :: (ls ++ [.rparen]))
  | one {n : Nat} {ls : List Lexeme} : Derives .type n ls → Derives .members n ls
  | bar {m n : Nat} {ls ms : List Lexeme} :
      Derives .type m ls → Derives .members n ms → Derives .members (max m n) (ls ++ .bar :: ms)

/-- What has to stand after a phrase: items and members go on up to a closing parenthesis. -/
def Phrase.StopsAt : Phrase → List Lexeme → Prop
  | .expr, _ | .type, _ => True
  | .exprs, rest | .members, rest => ∃ more, rest = .rparen :: more

/-- No expression begins with a closing parenthesis. -/
theorem Derives.head_ne_rparen {n : Nat} {ls rest : List Lexeme} (h : Derives .expr n ls) :
    ∀ more, ls ++ rest ≠ .rparen :: more := by
  intro more he
  cases h with
  | value hl =>
    obtain ⟨rfl, -⟩ := List.cons.inj he
    cases hl
  | quote | list | literal => cases he

/-- Two phrases of one kind that begin the same text are the same, at the same levels. The
induction is on the first of them; its last lexeme forces the end of the second. -/
theorem Derives.unique {p : Phrase} {m n : Nat} {ls ms rest rest' : List Lexeme}
    (h : Derives p m ls) (h' : Derives p n ms) (hr : p.StopsAt rest) (hr' : p.StopsAt rest')
    (he : ls ++ rest = ms ++ rest') : m = n ∧ ls = ms := by
  induction h generalizing n ms rest rest' with
  | value hl =>
    cases h' with
    | value => simp_all
    | quote | list | literal =>
      obtain ⟨rfl, -⟩ := List.cons.inj he
      cases hl
  | quote h ih =>
    cases h' with
    | value hl =>
      obtain ⟨rfl, -⟩ := List.cons.inj he
      cases hl
    | quote h' =>
      obtain ⟨rfl, rfl⟩ := ih h' hr hr' (List.cons.inj he).2
      exact ⟨rfl, rfl⟩
    | list | literal => cases he
  | list h ih =>
    cases h' with
    | value hl =>
      obtain ⟨rfl, -⟩ := List.cons.inj he
      cases hl
    | list h' =>
      obtain ⟨rfl, rfl⟩ := ih h' ⟨_, rfl⟩ ⟨_, rfl⟩ (by simpa using he)
      exact ⟨rfl, rfl⟩
    | quote | literal => cases he
  | literal h ih =>
    cases h' with
    | value hl =>
      obtain ⟨rfl, -⟩ := List.cons.inj he
      cases hl
    | literal h' =>
      obtain ⟨rfl, rfl⟩ := ih h' hr hr' (List.cons.inj he).2
      exact ⟨rfl, rfl⟩
    | quote | list => cases he
  | none =>
    obtain ⟨more, rfl⟩ := hr
    cases h' with
    | none => exact ⟨rfl, rfl⟩
    | more h' =>
      rw [List.append_assoc] at he
      exact absurd he.symm (h'.head_ne_rparen more)
  | more h _ ih ihs =>
    cases h' with
    | none =>
      obtain ⟨more, rfl⟩ := hr'
      rw [List.append_assoc] at he
      exact absurd he (h.head_ne_rparen more)
    | more h' hs' =>
      rw [List.append_assoc, List.append_assoc] at he
      obtain ⟨rfl, rfl⟩ := ih h' trivial trivial he
      obtain ⟨rfl, rfl⟩ := ihs hs' hr hr' (List.append_cancel_left he)
      exact ⟨rfl, rfl⟩
  | atom =>
    cases h' with
    | atom => simp_all
    | quoted | listOf | infer | group => cases he
  | quoted h ih =>
    cases h' with
    | quoted h' =>
      obtain ⟨rfl, rfl⟩ := ih h' hr hr' (List.cons.inj he).2
      exact ⟨rfl, rfl⟩
    | atom | listOf | infer | group => cases he
  | listOf h ih =>
    cases h' with
    | listOf h' =>
      obtain ⟨rfl, rfl⟩ := ih h' trivial trivial (by simpa using he)
      exact ⟨rfl, rfl⟩
    | atom | quoted | infer | group => cases he
  | infer =>
    cases h' with
    | infer => simp_all
    | atom | quoted | listOf | group => cases he
  | group h ih =>
    cases h' with
    | group h' =>
      obtain ⟨rfl, rfl⟩ := ih h' ⟨_, rfl⟩ ⟨_, rfl⟩ (by simpa using he)
      exact ⟨rfl, rfl⟩
    | atom | quoted | listOf | infer => cases he
  | one h ih =>
    obtain ⟨more, rfl⟩ := hr
    cases h' with
    | one h' => exact ih h' trivial trivial he
    | bar h' =>
      rw [List.append_assoc] at he
      obtain ⟨-, rfl⟩ := ih h' trivial trivial he
      cases List.append_cancel_left he
  | bar h _ ih ihs =>
    rw [List.append_assoc] at he
    cases h' with
    | one h' =>
      obtain ⟨more, rfl⟩ := hr'
      obtain ⟨-, rfl⟩ := ih h' trivial trivial he
      cases List.append_cancel_left he
    | bar h' hs' =>
      rw [List.append_assoc] at he
      obtain ⟨rfl, rfl⟩ := ih h' trivial trivial he
      obtain ⟨rfl, rfl⟩ := ihs hs' hr hr' (List.cons.inj (List.append_cancel_left he)).2
      exact ⟨rfl, rfl⟩

/-- No expression is a proper beginning of another one. -/
theorem Derives.eq_of_begins {m n : Nat} {ls ms : List Lexeme} (h : Derives .expr m ls)
    (h' : Derives .expr n ms) (hp : ls <+: ms) : ls = ms ∧ m = n := by
  obtain ⟨rest, rfl⟩ := hp
  have happend : ls ++ rest = ls ++ rest ++ [] := (List.append_nil _).symm
  obtain ⟨hlevels, he⟩ := h.unique h' trivial trivial happend
  exact ⟨he, hlevels⟩

def FitWords (ls : List Lexeme) : Prop :=
  ∀ word, .int word ∈ ls →
    ∃ v, Text.Numeral.value? word.toList = some v ∧
      -0x8000000000000000 ≤ v ∧ v < 0x8000000000000000

theorem fitWords_append {ls ms : List Lexeme} :
    FitWords (ls ++ ms) ↔ FitWords ls ∧ FitWords ms := by
  simp only [FitWords, List.mem_append]
  exact ⟨fun h => ⟨fun w hw => h w (.inl hw), fun w hw => h w (.inr hw)⟩,
    fun h w hw => hw.elim (h.1 w) (h.2 w)⟩

theorem fitWords_cons {l : Lexeme} {ls : List Lexeme} (hl : ∀ word, l ≠ .int word) :
    FitWords (l :: ls) ↔ FitWords ls := by
  simp only [FitWords, List.mem_cons]
  exact ⟨fun h w hw => h w (.inr hw),
    fun h w hw => hw.elim (fun he => absurd he.symm (hl w)) (h w)⟩

theorem fitWords_nil : FitWords [] := by simp [FitWords]

theorem fitWords_singleton {l : Lexeme} (hl : ∀ word, l ≠ .int word) : FitWords [l] :=
  (fitWords_cons hl).2 fitWords_nil

theorem fitWords_enclosed {l r : Lexeme} {ls : List Lexeme} (hl : ∀ word, l ≠ .int word)
    (hr : ∀ word, r ≠ .int word) : FitWords (l :: (ls ++ [r])) ↔ FitWords ls := by
  rw [fitWords_cons hl, fitWords_append]
  exact ⟨And.left, fun h => ⟨h, fitWords_singleton hr⟩⟩

/-- The word of a numeral is its value, and there is one exactly if the value fits. -/
theorem Text.Numeral.word64?_eq_some_iff {cs : List Char} {n : Int64} :
    word64? cs = some n ↔ value? cs = some n.toInt := by
  have hle := n.le_toInt
  have hlt := n.toInt_lt
  unfold word64?
  constructor
  · intro h
    split at h
    next v hv =>
      split at h
      next hfits =>
        cases h
        simp only [fitsWord, Bool.and_eq_true, decide_eq_true_eq] at hfits
        rw [hv, Int64.toInt_ofInt_of_le (by omega) (by omega)]
      next => cases h
    next => cases h
  · intro h
    have hfits : fitsWord n.toInt = true := by
      simp only [fitsWord, Bool.and_eq_true, decide_eq_true_eq]
      omega
    simp [h, hfits]

theorem fitWords_int {word : String} :
    FitWords [.int word] ↔ ∃ n, Text.Numeral.word64? word.toList = some n := by
  simp only [FitWords, List.mem_singleton, Lexeme.int.injEq, forall_eq,
    Text.Numeral.word64?_eq_some_iff]
  constructor
  · rintro ⟨v, hv, hle, hlt⟩
    refine ⟨.ofInt v, ?_⟩
    rw [hv, Int64.toInt_ofInt_of_le (by omega) (by omega)]
  · rintro ⟨n, hn⟩
    have hle := n.le_toInt
    have hlt := n.toInt_lt
    exact ⟨n.toInt, hn, by omega, by omega⟩

/-- A member more at the end. -/
theorem Derives.concat {m n : Nat} {ls ms : List Lexeme} (h : Derives .members m ls)
    (h' : Derives .type n ms) : Derives .members (max m n) (ls ++ .bar :: ms) := by
  generalize hp : Phrase.members = p at h
  induction h with
  | one h => exact .bar h (.one h')
  | bar h _ _ ih =>
    rw [List.append_assoc, List.cons_append, Nat.max_assoc]
    exact .bar h (ih hp)
  | _ => cases hp

mutual

/-- Tokens that spell a type are derived from the grammar, as deep as they nest. -/
theorem SpellsTy.derives : ∀ {n : Nat} {ts : List Token} {ty : Ty}, SpellsTy n ts ty →
    Derives .type n (ts.map Token.lexeme) ∧ FitWords (ts.map Token.lexeme)
  | _, _, _, .atom ht => by
    rw [List.map_singleton, ht]
    exact ⟨.atom, fitWords_singleton (by simp)⟩
  | _, _, _, .quoted ht h => by
    rw [List.map_cons, ht, fitWords_cons (by simp)]
    exact ⟨.quoted h.derives.1, h.derives.2⟩
  | _, _, _, .listOf hl h hr => by
    rw [List.map_cons, List.map_append, List.map_singleton, hl, hr,
      fitWords_enclosed (by simp) (by simp)]
    exact ⟨.listOf h.derives.1, h.derives.2⟩
  | _, _, _, .infer hq ht => by
    rw [List.map_cons, List.map_singleton, hq, ht, fitWords_cons (by simp)]
    exact ⟨.infer, fitWords_singleton (by simp)⟩
  | _, _, _, .group hl h hr => by
    rw [List.map_cons, List.map_append, List.map_singleton, hl, hr,
      fitWords_enclosed (by simp) (by simp)]
    exact ⟨.group h.derives.1, h.derives.2⟩

/-- The union is spelled from the left and derived from the right. -/
theorem SpellsMembers.derives : ∀ {n : Nat} {ts : List Token} {ty : Ty}, SpellsMembers n ts ty →
    Derives .members n (ts.map Token.lexeme) ∧ FitWords (ts.map Token.lexeme)
  | _, _, _, .one h => ⟨.one h.derives.1, h.derives.2⟩
  | _, _, _, .more h hb hr => by
    rw [List.map_append, List.map_cons, hb, fitWords_append, fitWords_cons (by simp)]
    exact ⟨h.derives.1.concat hr.derives.1, h.derives.2, hr.derives.2⟩

end

mutual

/-- Tokens that spell a datum are derived from the grammar, as deep as they nest, and their words
fit. -/
theorem Spells.derives : ∀ {n : Nat} {ts : List Token} {d : Datum}, Spells n ts d →
    Derives .expr n (ts.map Token.lexeme) ∧ FitWords (ts.map Token.lexeme)
  | _, _, _, .nil ht | _, _, _, .bool ht | _, _, _, .str ht | _, _, _, .ident ht => by
    rw [List.map_singleton, ht]
    exact ⟨.value rfl, fitWords_singleton (by simp)⟩
  | _, _, _, .int ht hw => by
    rw [List.map_singleton, ht]
    exact ⟨.value rfl, fitWords_int.2 ⟨_, hw⟩⟩
  | _, _, _, .quote ht h => by
    rw [List.map_cons, ht, fitWords_cons (by simp)]
    exact ⟨.quote h.derives.1, h.derives.2⟩
  | _, _, _, .list hl h hr => by
    rw [List.map_cons, List.map_append, List.map_singleton, hl, hr,
      fitWords_enclosed (by simp) (by simp)]
    exact ⟨.list h.derives.1, h.derives.2⟩
  | _, _, _, .type ht h => by
    rw [List.map_cons, ht, fitWords_cons (by simp)]
    exact ⟨.literal h.derives.1, h.derives.2⟩

theorem SpellsAll.derives : ∀ {n : Nat} {ts : List Token} {ds : List Datum}, SpellsAll n ts ds →
    Derives .exprs n (ts.map Token.lexeme) ∧ FitWords (ts.map Token.lexeme)
  | _, _, _, .nil => ⟨.none, fitWords_nil⟩
  | _, _, _, .cons h hs => by
    rw [List.map_append, fitWords_append]
    exact ⟨.more h.derives.1 hs.derives.1, h.derives.2, hs.derives.2⟩

end

/-- The tokens spell something of the kind. Members also go on with the union in front of them. -/
def Phrase.Spelled : Phrase → Nat → List Token → Prop
  | .expr, n, ts => ∃ d, Spells n ts d
  | .exprs, n, ts => ∃ ds, SpellsAll n ts ds
  | .type, n, ts => ∃ ty, SpellsTy n ts ty
  | .members, n, ts => (∃ ty, SpellsMembers n ts ty) ∧
      ∀ {m us left b}, SpellsMembers m us left → b.lexeme = .bar →
        ∃ ty, SpellsMembers (max m n) (us ++ b :: ts) ty

/-- A token that is an expression by itself spells a datum if its word fits. -/
theorem spells_of_isValue {t : Token} (ht : t.lexeme.isValue = true)
    (hfit : FitWords [t.lexeme]) : ∃ d, Spells 1 [t] d := by
  obtain ⟨l, place⟩ := t
  unfold Lexeme.isValue at ht
  split at ht
  next h => exact ⟨_, .nil h⟩
  next b h => exact ⟨_, .bool h⟩
  next word h =>
    rw [h] at hfit
    obtain ⟨n, hn⟩ := fitWords_int.1 hfit
    exact ⟨_, .int h hn⟩
  next text h => exact ⟨_, .str h⟩
  next name h => exact ⟨_, .ident h⟩
  next => cases ht

/-- Tokens that are derived from the grammar spell something, if their words fit. The induction is
on the derivation. -/
theorem Derives.spelled {p : Phrase} {n : Nat} {ls : List Lexeme} (h : Derives p n ls) :
    ∀ {ts : List Token}, ts.map Token.lexeme = ls → FitWords ls → p.Spelled n ts := by
  induction h with
  | value hl =>
    intro ts hts hfit
    obtain ⟨t, rfl, rfl⟩ := List.map_eq_singleton_iff.1 hts
    exact spells_of_isValue hl hfit
  | quote _ ih =>
    intro ts hts hfit
    obtain ⟨t, ts, rfl, ht, hts⟩ := List.map_eq_cons_iff.1 hts
    obtain ⟨d, hd⟩ := ih hts ((fitWords_cons (by simp)).1 hfit)
    exact ⟨_, .quote ht hd⟩
  | list _ ih =>
    intro ts hts hfit
    obtain ⟨l, us, r, rfl, hl, hus, hr⟩ := exists_enclosed hts
    obtain ⟨ds, hds⟩ := ih hus ((fitWords_enclosed (by simp) (by simp)).1 hfit)
    exact ⟨_, .list hl hds hr⟩
  | literal _ ih =>
    intro ts hts hfit
    obtain ⟨t, ts, rfl, ht, hts⟩ := List.map_eq_cons_iff.1 hts
    obtain ⟨ty, hty⟩ := ih hts ((fitWords_cons (by simp)).1 hfit)
    exact ⟨_, .type ht hty⟩
  | none =>
    intro ts hts _
    obtain rfl := List.map_eq_nil_iff.1 hts
    exact ⟨_, .nil⟩
  | more _ _ ih ihs =>
    intro ts hts hfit
    obtain ⟨us, vs, rfl, hus, hvs⟩ := List.map_eq_append_iff.1 hts
    rw [fitWords_append] at hfit
    obtain ⟨d, hd⟩ := ih hus hfit.1
    obtain ⟨ds, hds⟩ := ihs hvs hfit.2
    exact ⟨_, .cons hd hds⟩
  | atom =>
    intro ts hts _
    obtain ⟨t, rfl, ht⟩ := List.map_eq_singleton_iff.1 hts
    exact ⟨_, .atom ht⟩
  | quoted _ ih =>
    intro ts hts hfit
    obtain ⟨t, ts, rfl, ht, hts⟩ := List.map_eq_cons_iff.1 hts
    obtain ⟨ty, hty⟩ := ih hts ((fitWords_cons (by simp)).1 hfit)
    exact ⟨_, .quoted ht hty⟩
  | listOf _ ih =>
    intro ts hts hfit
    obtain ⟨l, us, r, rfl, hl, hus, hr⟩ := exists_enclosed hts
    obtain ⟨ty, hty⟩ := ih hus ((fitWords_enclosed (by simp) (by simp)).1 hfit)
    exact ⟨_, .listOf hl hty hr⟩
  | infer =>
    intro ts hts _
    obtain ⟨q, ts, rfl, hq, hts⟩ := List.map_eq_cons_iff.1 hts
    obtain ⟨t, rfl, ht⟩ := List.map_eq_singleton_iff.1 hts
    exact ⟨_, .infer hq ht⟩
  | group _ ih =>
    intro ts hts hfit
    obtain ⟨l, us, r, rfl, hl, hus, hr⟩ := exists_enclosed hts
    obtain ⟨ty, hty⟩ := (ih hus ((fitWords_enclosed (by simp) (by simp)).1 hfit)).1
    exact ⟨_, .group hl hty hr⟩
  | one _ ih =>
    intro ts hts hfit
    obtain ⟨ty, hty⟩ := ih hts hfit
    exact ⟨⟨ty, .one hty⟩, fun hleft hb => ⟨_, .more hleft hb hty⟩⟩
  | bar _ _ ih ihs =>
    intro ts hts hfit
    obtain ⟨us, vs, rfl, hus, hvs⟩ := List.map_eq_append_iff.1 hts
    obtain ⟨b, vs, rfl, hb, hvs⟩ := List.map_eq_cons_iff.1 hvs
    rw [fitWords_append, fitWords_cons (by simp)] at hfit
    obtain ⟨ty, hty⟩ := ih hus hfit.1
    obtain ⟨-, hon⟩ := ihs hvs hfit.2
    refine ⟨hon (.one hty) hb, fun hleft hb' => ?_⟩
    obtain ⟨ty', hty'⟩ := hon (.more hleft hb' hty) hb
    rw [List.append_assoc, List.cons_append, Nat.max_assoc] at hty'
    exact ⟨ty', hty'⟩

/-- The sequences of tokens that spell a datum are the expressions whose numerals are words. -/
theorem exists_spells_iff {n : Nat} {ts : List Token} :
    (∃ d, Spells n ts d) ↔
      Derives .expr n (ts.map Token.lexeme) ∧ FitWords (ts.map Token.lexeme) :=
  ⟨fun ⟨_, h⟩ => h.derives, fun ⟨h, hfit⟩ => h.spelled rfl hfit⟩

end Lisplet
