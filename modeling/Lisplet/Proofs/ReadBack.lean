import Lisplet.Proofs.RoundTrip
import Lisplet.Proofs.Token.Names

/-!
What has been read, written and read again. Every name that is read can be read
again, so only the nesting matters. A reader counts the parentheses that it
meets: members that are joined in one pair of them are one level of the text,
however many they are. A written union has parentheses of its own, so each
member more is a level more. A datum that was read is therefore read back except
where unions of many members take it past the deepest nesting.
-/
namespace Lisplet

namespace Ty

def isUnion : Ty → Bool
  | union .. => true
  | _ => false

/-- How deep a type nests in a text where the members of a union share one pair of parentheses. -/
def sharedLevels : Ty → Nat
  | atom _ | infer _ => 1
  | quoted t | listOf t => t.sharedLevels + 1
  | union l r => max (if l.isUnion then l.sharedLevels - 1 else l.sharedLevels) r.sharedLevels + 1

def memberLevels (ty : Ty) : Nat := if ty.isUnion then ty.sharedLevels - 1 else ty.sharedLevels

@[simp] theorem sharedLevels_union (l r : Ty) :
    (union l r).sharedLevels = max l.memberLevels r.sharedLevels + 1 := rfl
@[simp] theorem memberLevels_union (l r : Ty) :
    (union l r).memberLevels = max l.memberLevels r.sharedLevels := rfl

theorem memberLevels_le (ty : Ty) : ty.memberLevels ≤ ty.sharedLevels := by
  unfold memberLevels
  split <;> omega

theorem sharedLevels_le (ty : Ty) : ty.sharedLevels ≤ ty.memberLevels + 1 := by
  unfold memberLevels
  split <;> omega

/-- No union stands on the left of another, so none has more than two members. -/
def unjoined : Ty → Bool
  | atom _ | infer _ => true
  | quoted t | listOf t => t.unjoined
  | union l r => !l.isUnion && l.unjoined && r.unjoined

theorem levels_of_unjoined {ty : Ty} (h : ty.unjoined = true) : ty.levels = ty.sharedLevels := by
  induction ty with
  | atom | infer => rfl
  | quoted t ih | listOf t ih => rw [levels, sharedLevels, ih h]
  | union l r ihl ihr =>
    simp only [unjoined, Bool.and_eq_true, Bool.not_eq_true'] at h
    obtain ⟨⟨hunion, hl⟩, hr⟩ := h
    simp [levels, memberLevels, hunion, ihl hl, ihr hr]

end Ty

namespace Datum

mutual

/-- How deep a datum nests in a text where the members of each union share their parentheses. -/
def sharedLevels : Datum → Nat
  | type _ ty => ty.sharedLevels + 1
  | quote _ inner => sharedLevels inner + 1
  | list _ items => sharedLevelsAll items + 1
  | _ => 1

def sharedLevelsAll : List Datum → Nat
  | [] => 0
  | d :: ds => max (sharedLevels d) (sharedLevelsAll ds)

end

mutual

/-- No union in the datum has more than two members. -/
def unjoined : Datum → Bool
  | type _ ty => ty.unjoined
  | quote _ inner => unjoined inner
  | list _ items => unjoinedAll items
  | _ => true

def unjoinedAll : List Datum → Bool
  | [] => true
  | d :: ds => unjoined d && unjoinedAll ds

end

mutual

theorem levels_of_unjoined : ∀ (d : Datum), d.unjoined = true → d.levels = d.sharedLevels
  | .type _ ty, h => by
    rw [levels, sharedLevels, Ty.levels_of_unjoined (by rwa [unjoined] at h)]
  | .quote _ inner, h => by
    rw [levels, sharedLevels, levels_of_unjoined inner (by rwa [unjoined] at h)]
  | .list _ items, h => by
    rw [levels, sharedLevels, levelsAll_of_unjoined items (by rwa [unjoined] at h)]
  | .nil _, _ | .bool .., _ | .int .., _ | .str .., _ | .ident .., _ | .builtin .., _
  | .func .., _ => by rw [levels, sharedLevels] <;> simp

theorem levelsAll_of_unjoined : ∀ (ds : List Datum), unjoinedAll ds = true →
    levelsAll ds = sharedLevelsAll ds
  | [], _ => rfl
  | d :: ds, h => by
    rw [unjoinedAll, Bool.and_eq_true] at h
    rw [levelsAll, sharedLevelsAll, levels_of_unjoined d h.1, levelsAll_of_unjoined ds h.2]

end

end Datum

mutual

theorem SpellsTy.sharedLevels_le : ∀ {n : Nat} {ts : List Token} {ty : Ty}, SpellsTy n ts ty →
    ty.sharedLevels ≤ n
  | _, _, _, .atom _ | _, _, _, .infer _ _ => Nat.le_refl 1
  | _, _, _, .quoted _ h | _, _, _, .listOf _ h _ => Nat.succ_le_succ h.sharedLevels_le
  | _, _, ty, .group _ h _ => Nat.le_trans ty.sharedLevels_le (Nat.succ_le_succ h.memberLevels_le)

theorem SpellsMembers.memberLevels_le : ∀ {n : Nat} {ts : List Token} {ty : Ty},
    SpellsMembers n ts ty → ty.memberLevels ≤ n
  | _, _, ty, .one h => Nat.le_trans ty.memberLevels_le h.sharedLevels_le
  | _, _, _, .more h _ hr => by
    have hleft := h.memberLevels_le
    have hright := hr.sharedLevels_le
    rw [Ty.memberLevels_union]
    omega

end

mutual

/-- No text of a datum nests less than the one that shares all parentheses. -/
theorem Spells.sharedLevels_le : ∀ {n : Nat} {ts : List Token} {d : Datum}, Spells n ts d →
    d.sharedLevels ≤ n
  | _, _, _, .nil _ | _, _, _, .bool _ | _, _, _, .int _ _ | _, _, _, .str _
  | _, _, _, .ident _ => by simp [Datum.sharedLevels]
  | _, _, _, .quote _ h => by
    rw [Datum.sharedLevels]
    exact Nat.succ_le_succ h.sharedLevels_le
  | _, _, _, .list _ h _ => by
    rw [Datum.sharedLevels]
    exact Nat.succ_le_succ h.sharedLevelsAll_le
  | _, _, _, .type _ h => by
    rw [Datum.sharedLevels]
    exact Nat.succ_le_succ h.sharedLevels_le

theorem SpellsAll.sharedLevelsAll_le : ∀ {n : Nat} {ts : List Token} {ds : List Datum},
    SpellsAll n ts ds → Datum.sharedLevelsAll ds ≤ n
  | _, _, _, .nil => Nat.le_refl 0
  | _, _, _, .cons h hs => by
    have hd := h.sharedLevels_le
    have hds := hs.sharedLevelsAll_le
    rw [Datum.sharedLevelsAll]
    omega

end

def NamedTokens (ts : List Token) : Prop := ∀ t ∈ ts, Scan.NamesOnly t.lexeme

theorem namedTokens_append {ts us : List Token} :
    NamedTokens (ts ++ us) ↔ NamedTokens ts ∧ NamedTokens us := List.forall_mem_append

theorem namedTokens_cons {t : Token} {ts : List Token} :
    NamedTokens (t :: ts) ↔ Scan.NamesOnly t.lexeme ∧ NamedTokens ts := List.forall_mem_cons

mutual

/-- What is spelled with names for its placeholders can be written and read again. -/
theorem SpellsTy.readable : ∀ {n : Nat} {ts : List Token} {ty : Ty}, SpellsTy n ts ty →
    NamedTokens ts → ty.readable = true
  | _, _, _, .atom _, _ => rfl
  | _, _, _, .quoted _ h, hts => h.readable (namedTokens_cons.1 hts).2
  | _, _, _, .listOf _ h _, hts =>
    h.readable (namedTokens_append.1 (namedTokens_cons.1 hts).2).1
  | _, _, _, .infer _ ht, hts =>
    (namedTokens_cons.1 (namedTokens_cons.1 hts).2).1 _ ht
  | _, _, _, .group _ h _, hts =>
    h.readable (namedTokens_append.1 (namedTokens_cons.1 hts).2).1

theorem SpellsMembers.readable : ∀ {n : Nat} {ts : List Token} {ty : Ty}, SpellsMembers n ts ty →
    NamedTokens ts → ty.readable = true
  | _, _, _, .one h, hts => h.readable hts
  | _, _, _, .more h _ hr, hts => by
    obtain ⟨hleft, hright⟩ := namedTokens_append.1 hts
    rw [Ty.readable, Bool.and_eq_true]
    exact ⟨h.readable hleft, hr.readable (namedTokens_cons.1 hright).2⟩

end

mutual

theorem Spells.readable : ∀ {n : Nat} {ts : List Token} {d : Datum}, Spells n ts d →
    NamedTokens ts → d.readable = true
  | _, _, _, .nil _, _ | _, _, _, .bool _, _ | _, _, _, .int _ _, _ | _, _, _, .str _, _ => rfl
  | _, _, _, .ident ht, hts => (namedTokens_cons.1 hts).1 _ ht
  | _, _, _, .quote _ h, hts => h.readable (namedTokens_cons.1 hts).2
  | _, _, _, .list _ h _, hts => h.readable (namedTokens_append.1 (namedTokens_cons.1 hts).2).1
  | _, _, _, .type _ h, hts => h.readable (namedTokens_cons.1 hts).2

theorem SpellsAll.readable : ∀ {n : Nat} {ts : List Token} {ds : List Datum}, SpellsAll n ts ds →
    NamedTokens ts → Datum.readableAll ds = true
  | _, _, _, .nil, _ => rfl
  | _, _, _, .cons h hs, hts => by
    obtain ⟨hd, hds⟩ := namedTokens_append.1 hts
    rw [Datum.readableAll, Bool.and_eq_true]
    exact ⟨h.readable hd, hs.readable hds⟩

end

def moreMembers : Nat → List Char
  | 0 => [')']
  | n + 1 => '|' :: (Atom.int.word.toList ++ moreMembers n)

def unionText (n : Nat) : String :=
  String.ofList ('$' :: '(' :: (Atom.int.word.toList ++ moreMembers n))

/-- What these members make of the union in front of them. -/
def Ty.joined (left : Ty) : Nat → Ty
  | 0 => left
  | n + 1 => joined (.union left (.atom .int)) n

@[simp] theorem Ty.joined_zero (left : Ty) : left.joined 0 = left := rfl
@[simp] theorem Ty.joined_succ (left : Ty) (n : Nat) :
    left.joined (n + 1) = (Ty.union left (.atom .int)).joined n := rfl

theorem Ty.levels_joined (left : Ty) (n : Nat) (h : 1 ≤ left.levels) :
    (left.joined n).levels = left.levels + n := by
  induction n generalizing left with
  | zero => rfl
  | succ n ih =>
    have hunion : (Ty.union left (.atom .int)).levels = left.levels + 1 := by
      simp [levels, Nat.max_eq_left h]
    rw [joined_succ, ih _ (by omega), hunion, Nat.add_right_comm, Nat.add_assoc]

theorem Ty.readable_joined (left : Ty) (n : Nat) (h : left.readable = true) :
    (left.joined n).readable = true := by
  induction n generalizing left with
  | zero => exact h
  | succ n ih => exact ih _ (by simp [readable, h])

def moreLexemes : Nat → List Lexeme
  | 0 => [.rparen]
  | n + 1 => .bar :: .atom .int :: moreLexemes n

theorem lexes_moreMembers (n : Nat) {cs : List Char} {ls : List Lexeme} (h : Lexes cs ls) :
    Lexes (moreMembers n ++ cs) (moreLexemes n ++ ls) ∧ endsWord (moreMembers n ++ cs) = true := by
  induction n with
  | zero => exact ⟨lexes_punctuation rfl h, rfl⟩
  | succ n ih =>
    have hint := lexes_atom .int ih.2 ih.1
    rw [moreMembers, List.cons_append, List.append_assoc]
    exact ⟨lexes_punctuation rfl hint, rfl⟩

/-- The members behind the first one, and the parenthesis that ends them. -/
theorem spellsMembers_moreLexemes {n : Nat} {us ts : List Token} {left : Ty}
    (hleft : SpellsMembers 1 us left) (hts : ts.map Token.lexeme = moreLexemes n) :
    ∃ ws r, ts = ws ++ [r] ∧ r.lexeme = .rparen ∧ SpellsMembers 1 (us ++ ws) (left.joined n) := by
  induction n generalizing us ts left with
  | zero =>
    obtain ⟨r, rfl, hr⟩ := List.map_eq_singleton_iff.1 hts
    exact ⟨[], r, rfl, hr, by simpa using hleft⟩
  | succ n ih =>
    obtain ⟨b, ts, rfl, hb, hts⟩ := List.map_eq_cons_iff.1 hts
    obtain ⟨t, ts, rfl, ht, hts⟩ := List.map_eq_cons_iff.1 hts
    obtain ⟨ws, r, rfl, hr, hws⟩ := ih (.more hleft hb (.atom ht)) hts
    exact ⟨b :: t :: ws, r, rfl, hr, by simpa using hws⟩

/-- However many members a union has, its literal is read: three levels are enough. -/
theorem Reader.read_unionText (n : Nat) : ∃ place s,
    (ofSource (LineReader.ofText (unionText n))).read =
      (.ok (.type place (Ty.joined (.atom .int) n)), s) := by
  have hlexes : ∀ cs, Lexes cs [] → Lexes ((unionText n).toList ++ cs)
      (.dollar :: .lparen :: .atom .int :: moreLexemes n) := by
    intro cs hcs
    obtain ⟨hmore, hends⟩ := lexes_moreMembers n hcs
    rw [List.append_nil] at hmore
    have hint := lexes_atom .int hends hmore
    have htext := lexes_punctuation (c := '$') rfl (lexes_punctuation (c := '(') rfl hint)
    simpa [unionText] using htext
  have hnil := hlexes [] lexes_nil
  rw [List.append_nil] at hnil
  obtain ⟨ts, rest, final, hahead, hls, -⟩ :=
    ahead_ofText hnil (hlexes ['\n'] (lexes_blank rfl lexes_nil))
  obtain ⟨d, ts, rfl, hd, hts⟩ := List.map_eq_cons_iff.1 hls
  obtain ⟨l, ts, rfl, hl, hts⟩ := List.map_eq_cons_iff.1 hts
  obtain ⟨t, ts, rfl, ht, hts⟩ := List.map_eq_cons_iff.1 hts
  obtain ⟨ws, r, rfl, hr, hmembers⟩ := spellsMembers_moreLexemes (.one (.atom ht)) hts
  have hspells := Spells.type hd (.group hl hmembers hr)
  obtain ⟨s, hs, -⟩ := read_of_spells (idle_ofSource _) hahead hspells (by decide)
  exact ⟨d.place, s, hs⟩

section Read

variable {σ : Type} [Source σ]

theorem TokenStream.namesOnly_next {ts ts' : TokenStream σ} {t : Token}
    (h : ts.next = (.ok t, ts')) : Scan.NamesOnly t.lexeme := by
  intro name hname
  obtain ⟨hconsume, -⟩ := scan_eq_consume .gap ts
  obtain ⟨lexeme, place⟩ := t
  obtain rfl : lexeme = .ident name := hname
  rw [next] at h
  rw [h] at hconsume
  exact Scan.isName_of_consume (s := .gap) trivial hconsume

/-- All tokens that stand ahead of a new reader were scanned, so its names are names. -/
theorem Reader.namedTokens_ahead {source : σ} {us : List Token}
    {rest : Stream' (Except ReadError Token)}
    (h : (ofSource source).ahead = us.map .ok ++ₛ rest) : NamedTokens us := by
  have hscanned : ∀ (us : List Token) (ts : TokenStream σ),
      ts.results.map (.mapError (.map .scan)) = us.map .ok ++ₛ rest → NamedTokens us := by
    intro us
    induction us with
    | nil => exact fun _ _ t ht => absurd ht (List.not_mem_nil)
    | cons u us ih =>
      intro ts hts
      rw [ts.results_eq, Stream'.map_cons, List.map_cons, Stream'.cons_append_stream] at hts
      obtain ⟨hhead, htail⟩ := Stream'.cons_injective2 hts
      refine namedTokens_cons.2 ⟨?_, ih ts.next.2 htail⟩
      cases hn : ts.next with
      | mk x ts' =>
        rw [hn] at hhead
        cases x with
        | ok t =>
          cases hhead
          exact TokenStream.namesOnly_next hn
        | error e => cases hhead
  exact hscanned us { source } h

/-- Whatever is read has readable names and nests within the limit, where members that are joined
count as one level. Its written form is read back as an equal datum if it still fits when each
union is a level of its own, in particular if no union has more than two members; otherwise it is
refused as too deep. -/
theorem Reader.read_ofDatum_of_read {source : σ} {d : Datum} {s : Reader σ}
    (h : (ofSource source).read = (.ok d, s)) :
    d.readable = true ∧ d.sharedLevels ≤ 128 ∧ (d.unjoined = true → d.levels ≤ 128) ∧
    ((∃ e t, (ofDatum d).read = (.ok e, t) ∧ (e == d) = true ∧ t.atEnd.1 = .ok true) ↔
      d.levels ≤ 128) ∧
    (128 < d.levels → ∃ place t, (ofDatum d).read = (.error ⟨.tooDeep, place⟩, t)) := by
  have hends := ends_read (idle_ofSource source)
  rw [h] at hends
  obtain ⟨-, n, hn, ts, hspells, hahead⟩ := hends
  have hreadable := hspells.readable (namedTokens_ahead hahead)
  have hlevels : d.sharedLevels ≤ 128 := Nat.le_trans hspells.sharedLevels_le hn
  refine ⟨hreadable, hlevels, ?_, read_ofDatum_iff hreadable, read_ofDatum_tooDeep hreadable⟩
  intro hunjoined
  rwa [Datum.levels_of_unjoined d hunjoined]

end Read

/-- A union of 127 members just fits, whether its text or its written form is read. -/
theorem Reader.read_ofDatum_of_read_union : ∃ d s e t,
    (ofSource (LineReader.ofText (unionText 126))).read = (.ok d, s) ∧ d.levels = 128 ∧
      (ofDatum d).read = (.ok e, t) ∧ (e == d) = true := by
  obtain ⟨p, s, hs⟩ := read_unionText 126
  have hlevels : (Datum.type p (Ty.joined (.atom .int) 126)).levels = 128 := by
    rw [Datum.levels, Ty.levels_joined (.atom .int) 126 (Nat.le_refl 1)]
    rfl
  obtain ⟨e, t, ht, hsame, -⟩ := (read_ofDatum_of_read hs).2.2.2.1.2 (Nat.le_of_eq hlevels)
  exact ⟨_, s, e, t, hs, hlevels, ht, hsame⟩

/-- The literal of a union of 128 members is read, but what it is written as is not. -/
theorem Reader.union_not_read_back : ∃ d s place t,
    (ofSource (LineReader.ofText (unionText 127))).read = (.ok d, s) ∧ d.levels = 129 ∧
      (ofDatum d).read = (.error ⟨.tooDeep, place⟩, t) := by
  obtain ⟨p, s, hs⟩ := read_unionText 127
  have hlevels : (Datum.type p (Ty.joined (.atom .int) 127)).levels = 129 := by
    rw [Datum.levels, Ty.levels_joined (.atom .int) 127 (Nat.le_refl 1)]
    rfl
  have hreadable : (Datum.type p (Ty.joined (.atom .int) 127)).readable = true := by
    rw [Datum.readable]
    exact Ty.readable_joined _ _ rfl
  obtain ⟨place, t, ht⟩ := read_ofDatum_tooDeep hreadable (by omega)
  exact ⟨_, s, place, t, hs, hlevels, ht⟩

end Lisplet
