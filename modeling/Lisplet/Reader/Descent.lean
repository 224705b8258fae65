import Lisplet.Reader.Parser

/-!
Reading by recursive descent, a production for each form of expression and type.
Every production that succeeds has taken a token, so the loops over the items of
a list and the members of a union end. The rest of the recursion is on room for
further levels, so it ends, too; with room for `maxNesting` levels it is the
count of what is being read that sets the limit.
-/
namespace Lisplet.Parser

variable {σ : Type} [Source σ]

def literal (kind : Kind) (datum : Token → Datum) : Parse σ Datum :=
  production do
    let t ← expectKind kind
    return datum t

def integer : Parse σ Datum :=
  production do
    let t ← expectKind .int
    match Text.Numeral.word64? t.text.toList with
    | some n => return .int t.place n
    | none => throw ⟨.intOutOfRange t.text, t.place⟩

def quoted (expr : Production σ Datum) : Parse σ Datum :=
  production do
    let quote ← expectKind .quote
    return .quote quote.place (← expr.run)

/-- Take expressions up to a closing parenthesis, which stays to be taken. -/
def items (expr : Production σ Datum) (values : List Datum) : Parse σ (List Datum) := fun s =>
  match _hp : peek s with
  | none => none
  | some (.error e, s') => some (.error e, s')
  | some (.ok t, s') =>
    if t.lexeme = .rparen then some (.ok values, s')
    else
      match _hv : expr.run s' with
      | none => none
      | some (.error e, s'') => some (.error e, s'')
      | some (.ok value, s'') => items expr (values ++ [value]) s''
termination_by s => s.left
decreasing_by
  have := lowers_peek _hp
  have := expr.lowers _hv
  omega

def list (expr : Production σ Datum) : Parse σ Datum :=
  production do
    let paren ← expectText .paren "("
    let values ← items expr []
    let _ ← expectText .paren ")"
    return .list paren.place values

def typeAtom : Parse σ Ty :=
  production do
    let t ← next
    match t.kind, Atom.ofWord? t.text with
    | .typeKeyword, some a | .nil, some a => return .atom a
    | _, _ => throw ⟨.expectedKind .typeKeyword, t.place⟩

def typeQuoted (type : Production σ Ty) : Parse σ Ty :=
  production do
    let _ ← expectKind .quote
    return .quoted (← type.run)

def typeList (type : Production σ Ty) : Parse σ Ty :=
  production do
    let _ ← expectText .paren "["
    let inner ← type.run
    let _ ← expectText .paren "]"
    return .listOf inner

def typeInfer : Parse σ Ty :=
  production do
    let _ ← expectText .special "?"
    let name ← expectKind .ident
    return .infer name.text

/-- A further member of a union, behind a bar. -/
def member (type : Production σ Ty) : Parse σ Ty := do
  let _ ← next
  type.run

theorem lowers_member (type : Production σ Ty) : Lowers 1 (member type) := by
  intro s ty s' h
  obtain ⟨t, s₁, hn, hr⟩ := bind_ok h
  have := left_next_le hn
  have := type.lowers hr
  omega

def members (type : Production σ Ty) (ty : Ty) : Parse σ Ty := fun s =>
  match _hp : peek s with
  | none => none
  | some (.error e, s') => some (.error e, s')
  | some (.ok t, s') =>
    if t.lexeme = .bar then
      match _hr : member type s' with
      | none => none
      | some (.error e, s'') => some (.error e, s'')
      | some (.ok right, s'') => members type (.union ty right) s''
    else some (.ok ty, s')
termination_by s => s.left
decreasing_by
  have := lowers_peek _hp
  have := lowers_member type _hr
  omega

def typeParen (type : Production σ Ty) : Parse σ Ty :=
  production do
    let _ ← expectText .paren "("
    let ty ← type.run
    let ty ← members type ty
    let _ ← expectText .paren ")"
    return ty

def typeBody (type : Production σ Ty) : Parse σ Ty := do
  let t ← peek
  match t.lexeme with
  | .atom _ => typeAtom
  | .quote => typeQuoted type
  | .lbracket => typeList type
  | .question => typeInfer
  | .lparen => typeParen type
  | _ => throw ⟨.expectedType, t.place⟩

def typeExpr (type : Production σ Ty) : Parse σ Datum :=
  production do
    let dollar ← expectText .special "$"
    return .type dollar.place (← type.run)

def exprBody (expr : Production σ Datum) (type : Production σ Ty) : Parse σ Datum := do
  let t ← peek
  match t.lexeme with
  | .atom .nil => literal .nil fun t => .nil t.place
  | .dollar => typeExpr type
  | .bool _ => literal .bool fun t => .bool t.place (t.text = "true")
  | .int _ => integer
  | .str _ => literal .str fun t => .str t.place t.text
  | .ident _ => literal .ident fun t => .ident t.place t.text
  | .quote => quoted expr
  | .lparen => list expr
  | .atom _ => throw ⟨.typeKeyword, t.place⟩
  | _ => throw ⟨.expectedExpr, t.place⟩

theorem lowers_literal (kind : Kind) (datum : Token → Datum) (h : kind ≠ .eof) :
    Lowers 1 (literal kind datum : Parse σ Datum) := by
  apply Lowers.production
  apply (lowers_expectKind kind h).bind
  exact fun t => lowers_pure (datum t)

theorem lowers_integer : Lowers 1 (integer : Parse σ Datum) := by
  apply Lowers.production
  apply (lowers_expectKind .int nofun).bind
  intro t
  split
  · exact lowers_pure _
  · exact lowers_throw ..

theorem lowers_quoted (expr : Production σ Datum) : Lowers 1 (quoted expr) := by
  apply Lowers.production
  apply (lowers_expectKind .quote nofun).bind
  intro quote
  exact expr.lowers.zero.bind fun value => lowers_pure _

/-- The loop may take nothing, but every item that it takes leaves less to be read. -/
theorem lowers_items (expr : Production σ Datum) (values : List Datum) :
    Lowers 0 (items expr values) := by
  intro s vs s' h
  fun_induction items expr values s with
  | case1 => cases h
  | case2 => cases h
  | case3 values s t s₁ hp hclose => cases h; exact lowers_peek hp
  | case4 => cases h
  | case5 => cases h
  | case6 values s t s₁ hp hclose value s₂ hv ih =>
    have := ih h
    have := lowers_peek hp
    have := expr.lowers hv
    omega

theorem lowers_list (expr : Production σ Datum) : Lowers 1 (list expr) := by
  apply Lowers.production
  apply (lowers_expectText .paren "(" nofun).bind
  intro paren
  apply (lowers_items expr []).bind
  intro values
  exact (lowers_expectText .paren ")" nofun).zero.bind fun _ => lowers_pure _

theorem lowers_typeAtom : Lowers 1 (typeAtom : Parse σ Ty) := by
  apply Lowers.production
  apply lowers_next_bind (fun place => ⟨_, rfl⟩)
  intro t
  split
  · exact lowers_pure _
  · exact lowers_pure _
  · exact lowers_throw ..

theorem lowers_typeQuoted (type : Production σ Ty) : Lowers 1 (typeQuoted type) := by
  apply Lowers.production
  apply (lowers_expectKind .quote nofun).bind
  exact fun _ => type.lowers.zero.bind fun ty => lowers_pure _

theorem lowers_typeList (type : Production σ Ty) : Lowers 1 (typeList type) := by
  apply Lowers.production
  apply (lowers_expectText .paren "[" nofun).bind
  intro _
  apply type.lowers.zero.bind
  intro inner
  exact (lowers_expectText .paren "]" nofun).zero.bind fun _ => lowers_pure _

theorem lowers_typeInfer : Lowers 1 (typeInfer : Parse σ Ty) := by
  apply Lowers.production
  apply (lowers_expectText .special "?" nofun).bind
  exact fun _ => (lowers_expectKind .ident nofun).zero.bind fun name => lowers_pure _

theorem lowers_members (type : Production σ Ty) (ty : Ty) : Lowers 0 (members type ty) := by
  intro s ty' s' h
  fun_induction members type ty s with
  | case1 => cases h
  | case2 => cases h
  | case3 => cases h
  | case4 => cases h
  | case5 ty s t s₁ hp hbar right s₂ hr ih =>
    have := ih h
    have := lowers_peek hp
    have := lowers_member type hr
    omega
  | case6 ty s t s₁ hp hbar => cases h; exact lowers_peek hp

theorem lowers_typeParen (type : Production σ Ty) : Lowers 1 (typeParen type) := by
  apply Lowers.production
  apply (lowers_expectText .paren "(" nofun).bind
  intro _
  apply type.lowers.zero.bind
  intro first
  apply (lowers_members type first).bind
  intro ty
  exact (lowers_expectText .paren ")" nofun).zero.bind fun _ => lowers_pure _

theorem lowers_typeBody (type : Production σ Ty) : Lowers 1 (typeBody type) := by
  apply lowers_peek_bind
  intro t
  split
  · exact lowers_typeAtom
  · exact lowers_typeQuoted type
  · exact lowers_typeList type
  · exact lowers_typeInfer
  · exact lowers_typeParen type
  · exact lowers_throw ..

theorem lowers_typeExpr (type : Production σ Ty) : Lowers 1 (typeExpr type) := by
  apply Lowers.production
  apply (lowers_expectText .special "$" nofun).bind
  exact fun dollar => type.lowers.zero.bind fun ty => lowers_pure _

/-- Whichever production the token chooses takes something. -/
theorem lowers_exprBody (expr : Production σ Datum) (type : Production σ Ty) :
    Lowers 1 (exprBody expr type) := by
  apply lowers_peek_bind
  intro t
  split
  · exact lowers_literal .nil _ nofun
  · exact lowers_typeExpr type
  · exact lowers_literal .bool _ nofun
  · exact lowers_integer
  · exact lowers_literal .str _ nofun
  · exact lowers_literal .ident _ nofun
  · exact lowers_quoted expr
  · exact lowers_list expr
  · exact lowers_throw ..
  · exact lowers_throw ..

def type : Nat → Production σ Ty
  | 0 => ⟨refuse, lowers_refuse 1⟩
  | room + 1 =>
    ⟨nested (production (typeBody (type room))), (lowers_typeBody (type room)).production.nested⟩

def expr : Nat → Production σ Datum
  | 0 => ⟨refuse, lowers_refuse 1⟩
  | room + 1 =>
    ⟨nested (production (exprBody (expr room) (type room))),
      (lowers_exprBody (expr room) (type room)).production.nested⟩

/-- Read one expression, with room for so many levels. If that fails, nothing is consumed. -/
def parseExpr (room : Nat) : Parse σ Datum := do
  let d ← (expr room).run
  modify fun s => { s with consumed := [] }
  return d

end Lisplet.Parser
