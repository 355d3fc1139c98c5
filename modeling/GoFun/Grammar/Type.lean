import GoFun.Grammar.Rules

/-!
# Types and signatures
-/
namespace GoFun.Grammar

open GoFun.Parser

/-- Names that wait for a type get the next one that stands after a name. Names that are left at the
end were types themselves. -/
def groupFrom (waiting : List Ident) : List (Option Ident × Expr) → List Field
  | [] => waiting.map fun name => ⟨[], .ident name, none⟩
  | (some name, type) :: entries => ⟨waiting ++ [name], type, none⟩ :: groupFrom [] entries
  | (none, .ident name) :: entries => groupFrom (waiting ++ [name]) entries
  | (none, type) :: entries => ⟨[], type, none⟩ :: groupFrom waiting entries

/-- In `a, b int` the two names share one type. Where no entry has a name and a type, every entry is
a type. -/
def groupParams (entries : List (Option Ident × Expr)) : List Field :=
  if entries.all (·.1.isNone) then entries.map fun (_, type) => ⟨[], type, none⟩
  else groupFrom [] entries

def paramType (g : Rules) : Parser Expr :=
  (do
    let dots ← token "..."
    let elem ← g.type
    return .ellipsis dots (some elem))
  <|> g.type

def param (g : Rules) : Parser (Option Ident × Expr) :=
  (do
    let name ← ident
    let type ← paramType g
    return (some name, type))
  <|> (do return (none, ← paramType g))

def params [IdleRound] (g : Rules) : Parser FieldList := do
  let opening ← tokenNl "("
  let entries ← sepEndBy (param g) (tokenNl ",")
  blanksNl
  let closing ← token ")"
  return ⟨opening, groupParams entries, closing⟩

def results [IdleRound] (g : Rules) : Parser FieldList :=
  params g <|> (do
    let type ← g.type
    return ⟨none, [⟨[], type, none⟩], none⟩)

def signature [IdleRound] (g : Rules) (funcPos : Pos) : Parser FuncType := do
  let params ← params g
  let results ← optional (results g)
  return ⟨funcPos, params, results⟩

/-- A name, maybe of another package. -/
def typeName : Parser Expr := do
  let x ← ident
  match ← optional (token "." *> ident) with
  | some sel => return .selector (.ident x) sel
  | none => return .ident x

def pointerType (g : Rules) : Parser Expr := do
  let star ← token "*"
  let x ← g.type
  return .star star x

def arrayType (g : Rules) : Parser Expr := do
  let lbrack ← tokenNl "["
  let len ← optional ((do return .ellipsis (← tokenNl "...") none) <|> g.expr)
  let _ ← token "]"
  let elem ← g.type
  return .array lbrack len elem

def mapType (g : Rules) : Parser Expr := do
  let mapPos ← keyword "map"
  let _ ← token "["
  let key ← g.type
  let _ ← token "]"
  let value ← g.type
  return .map mapPos key value

def chanType (g : Rules) : Parser Expr := do
  let (chanPos, dir) ←
    (do return (← keyword "chan" <* token "<-", .send))
    <|> (do return (← keyword "chan", .both))
    <|> (do return (← token "<-" <* keyword "chan", .receive))
  let value ← g.type
  return .chan chanPos dir value

def structField [IdleRound] (g : Rules) : Parser Field := do
  let (names, type) ←
    (do return (← sepBy1 ident (token ","), ← g.type))
    <|> (do return ([], ← g.type))
  let tag ← optional literal
  return ⟨names, type, tag⟩

def structType [IdleRound] (g : Rules) : Parser Expr := do
  let structPos ← keyword "struct"
  let opening ← tokenNl "\x7b"
  let list ← sepEndBy (structField g) separator
  let closing ← token "\x7d"
  return .struct structPos ⟨opening, list, closing⟩

/-- A method, or the name of another interface. -/
def methodSpec [IdleRound] (g : Rules) : Parser Field :=
  (do
    let name ← ident
    let type ← signature g none
    return ⟨[name], .func type, none⟩)
  <|> (do return ⟨[], ← typeName, none⟩)

def interfaceType [IdleRound] (g : Rules) : Parser Expr := do
  let interfacePos ← keyword "interface"
  let opening ← tokenNl "\x7b"
  let list ← sepEndBy (methodSpec g) separator
  let closing ← token "\x7d"
  return .interface interfacePos ⟨opening, list, closing⟩

def funcType [IdleRound] (g : Rules) : Parser FuncType := do
  let funcPos ← keyword "func"
  signature g funcPos

def parenType (g : Rules) : Parser Expr := do
  let lparen ← token "("
  let x ← g.type
  let rparen ← token ")"
  return .paren lparen x rparen

def type [IdleRound] (g : Rules) : Parser Expr :=
  typeName <|> pointerType g <|> arrayType g <|> mapType g <|> chanType g <|> structType g
    <|> interfaceType g <|> (do return .func (← funcType g)) <|> parenType g

end GoFun.Grammar
