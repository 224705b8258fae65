import Lisplet.Datum.Same
import Lisplet.Proofs.Grammar
import Lisplet.Proofs.Text.Numeral
import Lisplet.Proofs.Token.Names

/-!
The written form of a datum without functions. It is scanned to the lexemes of
the datum, and tokens with these lexemes spell the datum itself, up to places,
with as many levels as the datum has.
-/
namespace Lisplet

namespace Ty

/-- Every placeholder has a name that is read as one. -/
def readable : Ty → Bool
  | atom _ => true
  | quoted t | listOf t => t.readable
  | infer name => isName name
  | union l r => l.readable && r.readable

/-- How deep a type nests, the two sides of a union being one level inside it. -/
def levels : Ty → Nat
  | atom _ | infer _ => 1
  | quoted t | listOf t => t.levels + 1
  | union l r => max l.levels r.levels + 1

def lexemes : Ty → List Lexeme
  | atom a => [.atom a]
  | quoted t => .quote :: t.lexemes
  | listOf t => .lbracket :: (t.lexemes ++ [.rbracket])
  | infer name => [.question, .ident name]
  | union l r => .lparen :: (l.lexemes ++ .bar :: (r.lexemes ++ [.rparen]))

end Ty

namespace Datum

mutual

/-- There is no function in the datum, and every name in it is read as a name. -/
def readable : Datum → Bool
  | nil _ | bool .. | int .. | str .. => true
  | type _ ty => ty.readable
  | ident _ name => isName name
  | quote _ inner => readable inner
  | list _ items => readableAll items
  | builtin .. | func .. => false

def readableAll : List Datum → Bool
  | [] => true
  | d :: ds => readable d && readableAll ds

end

mutual

/-- How deep a datum nests. A type literal is one level above its type. -/
def levels : Datum → Nat
  | type _ ty => ty.levels + 1
  | quote _ inner => levels inner + 1
  | list _ items => levelsAll items + 1
  | _ => 1

def levelsAll : List Datum → Nat
  | [] => 0
  | d :: ds => max (levels d) (levelsAll ds)

end

mutual

def lexemes : Datum → List Lexeme
  | nil _ => [.atom .nil]
  | type _ ty => .dollar :: ty.lexemes
  | bool _ b => [.bool b]
  | int _ n => [.int (String.ofList (Text.Numeral.write n.toInt))]
  | str _ text => [.str text]
  | ident _ name => [.ident name]
  | quote _ inner => .quote :: lexemes inner
  | list _ items => .lparen :: (lexemesAll items ++ [.rparen])
  | builtin .. | func .. => []

def lexemesAll : List Datum → List Lexeme
  | [] => []
  | d :: ds => lexemes d ++ lexemesAll ds

end

end Datum

theorem lexes_atom (a : Atom) {cs : List Char} {ls : List Lexeme} (hcs : endsWord cs = true)
    (hls : Lexes cs ls) : Lexes (a.word.toList ++ cs) (.atom a :: ls) := by
  have hw : isWord a.word.toList = true := by cases a <;> decide
  have hl : Lexeme.ofWord a.word.toList = .atom a := by cases a <;> decide
  rw [← hl]
  exact lexes_word hw hcs hls

theorem lexes_bool (place : Place) (b : Bool) {cs : List Char} {ls : List Lexeme}
    (hcs : endsWord cs = true) (hls : Lexes cs ls) :
    Lexes ((Datum.bool place b).chars ++ cs) (.bool b :: ls) := by
  cases b with
  | false => exact lexes_word (w := "false".toList) (by decide) hcs hls
  | true => exact lexes_word (w := "true".toList) (by decide) hcs hls

/-- A written type is scanned back to its lexemes, with anything behind it that ends a word. -/
theorem lexes_ty (ty : Ty) {cs : List Char} {ls : List Lexeme} (h : ty.readable = true)
    (hcs : endsWord cs = true) (hls : Lexes cs ls) :
    Lexes (ty.chars ++ cs) (ty.lexemes ++ ls) := by
  induction ty generalizing cs ls with
  | atom a => exact lexes_atom a hcs hls
  | quoted t ih => exact lexes_punctuation rfl (ih h hcs hls)
  | listOf t ih =>
    simp only [Ty.chars, Ty.lexemes, List.cons_append, List.append_assoc, List.nil_append]
    exact lexes_punctuation rfl (ih h rfl (lexes_punctuation rfl hls))
  | infer name => exact lexes_punctuation rfl (lexes_name h hcs hls)
  | union l r ihl ihr =>
    simp only [Ty.readable, Bool.and_eq_true] at h
    have hr := ihr h.2 rfl (lexes_punctuation (c := ')') rfl hls)
    have hbar := lexes_punctuation (c := '|') rfl (lexes_blank (c := ' ') rfl hr)
    have hl := ihl h.1 rfl (lexes_blank (c := ' ') rfl hbar)
    have hsep : " | ".toList = [' ', '|', ' '] := rfl
    simp only [Ty.chars, Ty.lexemes, hsep, List.cons_append, List.append_assoc, List.nil_append]
    exact lexes_punctuation rfl hl

mutual

/-- A written datum is scanned back to its lexemes, with anything behind it that ends a word. -/
theorem lexes_datum : ∀ (d : Datum) {cs : List Char} {ls : List Lexeme}, d.readable = true →
    endsWord cs = true → Lexes cs ls → Lexes (d.chars ++ cs) (d.lexemes ++ ls)
  | .nil _, _, _, _, hcs, hls => lexes_atom .nil hcs hls
  | .type _ ty, _, _, h, hcs, hls => lexes_punctuation rfl (lexes_ty ty h hcs hls)
  | .bool place b, _, _, _, hcs, hls => lexes_bool place b hcs hls
  | .int _ n, _, _, _, hcs, hls => by
    rw [Datum.chars, Datum.lexemes, List.singleton_append,
      ← ofWord_of_isNumeral (Text.Numeral.isNumeral_write _)]
    exact lexes_word (isWord_write _) hcs hls
  | .str _ text, _, _, _, _, hls => lexes_quoted text hls
  | .ident _ name, _, _, h, hcs, hls => lexes_name h hcs hls
  | .quote _ inner, _, _, h, hcs, hls => lexes_punctuation rfl (lexes_datum inner h hcs hls)
  | .list _ items, _, _, h, _, hls => by
    have hitems := lexes_all items h rfl (lexes_punctuation (c := ')') rfl hls)
    simp only [Datum.chars, Datum.lexemes, List.cons_append, List.append_assoc, List.nil_append]
    exact lexes_punctuation rfl hitems

/-- The blank between two elements ends the first of them. -/
theorem lexes_all : ∀ (ds : List Datum) {cs : List Char} {ls : List Lexeme},
    Datum.readableAll ds = true → endsWord cs = true → Lexes cs ls →
    Lexes (Datum.charsAll ds ++ cs) (Datum.lexemesAll ds ++ ls)
  | [], _, _, _, _, hls => hls
  | [d], _, _, h, hcs, hls => by
    simp only [Datum.readableAll, Bool.and_true] at h
    simpa [Datum.charsAll, Datum.lexemesAll] using lexes_datum d h hcs hls
  | d :: e :: rest, _, _, h, hcs, hls => by
    rw [Datum.readableAll, Bool.and_eq_true] at h
    have hrest := lexes_all (e :: rest) h.2 hcs hls
    have hd := lexes_datum d h.1 rfl (lexes_blank (c := ' ') rfl hrest)
    rw [Datum.charsAll, Datum.lexemesAll, List.append_assoc, List.append_assoc]
    exact hd

end

/-- Tokens with the lexemes of a type spell it, as deep as it nests. -/
theorem spellsTy_of_lexemes {ty : Ty} {ts : List Token} (h : ts.map Token.lexeme = ty.lexemes) :
    SpellsTy ty.levels ts ty := by
  induction ty generalizing ts with
  | atom a =>
    obtain ⟨t, rfl, ht⟩ := List.map_eq_singleton_iff.1 h
    exact .atom ht
  | quoted ty ih =>
    obtain ⟨t, ts, rfl, ht, hts⟩ := List.map_eq_cons_iff.1 h
    exact .quoted ht (ih hts)
  | listOf ty ih =>
    obtain ⟨l, us, r, rfl, hl, hus, hr⟩ := exists_enclosed h
    exact .listOf hl (ih hus) hr
  | infer name =>
    obtain ⟨q, ts, rfl, hq, hts⟩ := List.map_eq_cons_iff.1 h
    obtain ⟨t, rfl, ht⟩ := List.map_eq_singleton_iff.1 hts
    exact .infer hq ht
  | union left right ihl ihr =>
    obtain ⟨l, ts, rfl, hl, hts⟩ := List.map_eq_cons_iff.1 h
    obtain ⟨ls, us, rfl, hls, hus⟩ := List.map_eq_append_iff.1 hts
    obtain ⟨b, vs, rfl, hb, hvs⟩ := List.map_eq_cons_iff.1 hus
    obtain ⟨rs, ws, rfl, hrs, hws⟩ := List.map_eq_append_iff.1 hvs
    obtain ⟨r, rfl, hr⟩ := List.map_eq_singleton_iff.1 hws
    have hmembers := SpellsMembers.more (.one (ihl hls)) hb (ihr hrs)
    simpa [Ty.levels] using SpellsTy.group hl hmembers hr

mutual

/-- The places are those of the tokens, so the datum spelled need not be the one written. -/
theorem spells_of_lexemes : ∀ (d : Datum) {ts : List Token}, d.readable = true →
    ts.map Token.lexeme = d.lexemes → ∃ e, Spells d.levels ts e ∧ (e == d) = true
  | .nil _, ts, _, h => by
    obtain ⟨t, rfl, ht⟩ := List.map_eq_singleton_iff.1 h
    exact ⟨_, .nil ht, rfl⟩
  | .type _ ty, ts, _, h => by
    obtain ⟨t, ts, rfl, ht, hts⟩ := List.map_eq_cons_iff.1 h
    exact ⟨_, .type ht (spellsTy_of_lexemes hts), decide_eq_true rfl⟩
  | .bool _ b, ts, _, h => by
    obtain ⟨t, rfl, ht⟩ := List.map_eq_singleton_iff.1 h
    exact ⟨_, .bool ht, decide_eq_true rfl⟩
  | .int _ n, ts, _, h => by
    obtain ⟨t, rfl, ht⟩ := List.map_eq_singleton_iff.1 h
    have hn := Text.Numeral.word64?_write n
    exact ⟨_, .int ht (by rwa [String.toList_ofList]), decide_eq_true rfl⟩
  | .str _ text, ts, _, h => by
    obtain ⟨t, rfl, ht⟩ := List.map_eq_singleton_iff.1 h
    exact ⟨_, .str ht, decide_eq_true rfl⟩
  | .ident _ name, ts, _, h => by
    obtain ⟨t, rfl, ht⟩ := List.map_eq_singleton_iff.1 h
    exact ⟨_, .ident ht, decide_eq_true rfl⟩
  | .quote _ inner, ts, hd, h => by
    obtain ⟨t, ts, rfl, ht, hts⟩ := List.map_eq_cons_iff.1 h
    obtain ⟨e, he, hsame⟩ := spells_of_lexemes inner hd hts
    exact ⟨_, .quote ht he, hsame⟩
  | .list _ items, ts, hd, h => by
    obtain ⟨l, us, r, rfl, hl, hus, hr⟩ := exists_enclosed h
    obtain ⟨es, hes, hsame⟩ := spellsAll_of_lexemes items hd hus
    exact ⟨_, .list hl hes hr, hsame⟩

/-- Tokens with the lexemes of readable data spell data that are equal to them. -/
theorem spellsAll_of_lexemes : ∀ (ds : List Datum) {ts : List Token},
    Datum.readableAll ds = true → ts.map Token.lexeme = Datum.lexemesAll ds →
    ∃ es, SpellsAll (Datum.levelsAll ds) ts es ∧ Datum.sameAll es ds = true
  | [], ts, _, h => by
    obtain rfl := List.map_eq_nil_iff.1 h
    exact ⟨[], .nil, rfl⟩
  | d :: ds, ts, hds, h => by
    rw [Datum.readableAll, Bool.and_eq_true] at hds
    obtain ⟨ts, us, rfl, hts, hus⟩ := List.map_eq_append_iff.1 h
    obtain ⟨e, he, hsame⟩ := spells_of_lexemes d hds.1 hts
    obtain ⟨es, hes, hall⟩ := spellsAll_of_lexemes ds hds.2 hus
    refine ⟨e :: es, .cons he hes, ?_⟩
    rw [Datum.sameAll, Bool.and_eq_true]
    exact ⟨hsame, hall⟩

end

end Lisplet
