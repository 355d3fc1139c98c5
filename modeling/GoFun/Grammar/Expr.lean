import GoFun.Grammar.Type

/-!
# Expressions

Binary operators bind by level, unary operators stand before primary expressions, and primary
expressions are operands with suffixes. In the header of a statement a name before a brace does not
open a composite literal, because the brace opens the body.
-/
namespace GoFun.Grammar

open GoFun.Parser

/-- An operator that is not the beginning of a longer token: none of the characters of `longer`
follows it. -/
def operator (op : BinaryOp) (longer : String) : Parser (Pos × BinaryOp) := do
  let (offset, _) ← lexeme (Lexer.text op.symbol)
  notNext longer
  blanksNl
  return (some offset, op)

/-- The binary operators from the strongest level to the weakest, each with the characters that must
not follow it. -/
def levels : List (List (BinaryOp × String)) :=
  [[(.mul, "="), (.quo, "="), (.rem, "="), (.shl, "="), (.shr, "="), (.andNot, "="), (.and, "&^=")],
    [(.add, "+="), (.sub, "-="), (.or, "|="), (.xor, "=")],
    [(.eql, ""), (.neq, ""), (.leq, ""), (.geq, ""), (.lss, "<=-"), (.gtr, ">=")],
    [(.land, "")],
    [(.lor, "")]]

def operatorOf (level : List (BinaryOp × String)) : Parser (Pos × BinaryOp) :=
  level.firstM fun (op, longer) => operator op longer

def joinBinary (x : Expr) (op : Pos × BinaryOp) (y : Expr) : Expr := .binary x op.1 op.2 y

def binaryExpr [IdleRound] (operand : Parser Expr) : Parser Expr :=
  levels.foldl (fun p level => chain p (operatorOf level) joinBinary) operand

/-- What can stand before an operand. -/
inductive Lead where
  | deref
  | op (o : UnaryOp)

def Lead.symbol : Lead → String
  | deref => "*"
  | op o => o.symbol

def leads : List Lead :=
  [.op .receive, .deref, .op .plus, .op .minus, .op .not, .op .xor, .op .address]

/-- An arrow before a channel type that goes both ways makes it a channel to receive from. -/
def applyLead : Pos × Lead → Expr → Expr
  | (pos, .deref), x => .star pos x
  | (pos, .op .receive), .chan _ .both value => .chan pos .receive value
  | (pos, .op o), x => .unary pos o x

def unaryExpr [IdleRound] (operand : Parser Expr) : Parser Expr := do
  let before ← many (tokenOf Lead.symbol leads <* blanks)
  let x ← operand
  return before.foldr applyLead x

def composite (type : Option Expr) (e : Elements) : Expr :=
  .composite type e.lbrace e.list e.rbrace

def element (g : Rules) : Parser Expr :=
  (do return composite none (← g.elements)) <|> g.expr

def keyedElement (g : Rules) : Parser Expr := do
  let key ← element g
  match ← optional (do return (← tokenNl ":", ← element g)) with
  | some (colon, value) => return .keyValue key colon value
  | none => return key

def elements [IdleRound] (g : Rules) : Parser Elements := do
  let lbrace ← tokenNl "\x7b"
  let list ← sepEndBy (keyedElement g) (tokenNl ",")
  blanksNl
  let rbrace ← token "\x7d"
  return ⟨lbrace, list, rbrace⟩

/-- A function type, or with a body a function. -/
def funcLit [IdleRound] (g : Rules) : Parser Expr := do
  let type ← funcType g
  match ← optional (block g) with
  | some body => return .funcLit type body
  | none => return .func type

/-- A type that is spelled out may open a composite literal anywhere, also in a header. -/
def literalType [IdleRound] (g : Rules) : Parser Expr := do
  let type ← arrayType g <|> mapType g <|> structType g
  match ← optional g.elements with
  | some e => return composite (some type) e
  | none => return type

def parenExpr (g : Rules) : Parser Expr := do
  let lparen ← tokenNl "("
  let x ← g.expr
  blanksNl
  let rparen ← token ")"
  return .paren lparen x rparen

def operand [IdleRound] (g : Rules) : Parser Expr :=
  (do return .lit (← literal)) <|> funcLit g <|> literalType g <|> chanType g <|> interfaceType g
    <|> (do return .ident (← ident)) <|> parenExpr g

/-- What can follow an operand. -/
inductive Suffix where
  | selector (sel : Ident)
  | index (lbrack : Pos) (i : Expr) (rbrack : Pos)
  | slice (lbrack : Pos) (low high max : Option Expr) (rbrack : Pos)
  | assertion (lparen : Pos) (type : Option Expr) (rparen : Pos)
  | call (lparen : Pos) (args : List Expr) (dots : Pos) (rparen : Pos)
  | elements (e : Elements)

def Suffix.apply (x : Expr) : Suffix → Expr
  | .selector sel => .selector x sel
  | .index lbrack i rbrack => .index x lbrack i rbrack
  | .slice lbrack low high max rbrack => .slice x lbrack low high max rbrack
  | .assertion lparen type rparen => .assertion x lparen type rparen
  | .call lparen args dots rparen => .call x lparen args dots rparen
  | .elements e => composite (some x) e

def assertionSuffix (g : Rules) : Parser Suffix := do
  let _ ← tokenNl "."
  let lparen ← token "("
  let type ← (do let _ ← keyword "type"; return none) <|> (do return some (← g.type))
  let rparen ← token ")"
  return .assertion lparen type rparen

def selectorSuffix : Parser Suffix := do
  let _ ← tokenNl "."
  return .selector (← ident)

def sliceSuffix (g : Rules) : Parser Suffix := do
  let lbrack ← tokenNl "["
  let low ← optional g.expr
  let _ ← tokenNl ":"
  let high ← optional g.expr
  let max ← optional (tokenNl ":" *> g.expr)
  let rbrack ← token "]"
  return .slice lbrack low high max rbrack

def indexSuffix (g : Rules) : Parser Suffix := do
  let lbrack ← tokenNl "["
  let i ← g.expr
  let rbrack ← token "]"
  return .index lbrack i rbrack

def callSuffix [IdleRound] (g : Rules) : Parser Suffix := do
  let lparen ← tokenNl "("
  let args ← sepBy g.expr (tokenNl ",")
  let dots ← optional (tokenNl "...")
  let _ ← optional (tokenNl ",")
  blanksNl
  let rparen ← token ")"
  return .call lparen args dots.join rparen

def suffix [IdleRound] (g : Rules) : Parser Suffix :=
  assertionSuffix g <|> selectorSuffix <|> sliceSuffix g <|> indexSuffix g <|> callSuffix g

def primary [IdleRound] (g : Rules) : Parser Expr := do
  let x ← operand g
  let after ← many (suffix g <|> (do return .elements (← g.elements)))
  return after.foldl Suffix.apply x

/-- A primary expression of a statement header. -/
def headerPrimary [IdleRound] (g : Rules) : Parser Expr := do
  let x ← operand g
  let after ← many (suffix g)
  return after.foldl Suffix.apply x

def expr [IdleRound] (g : Rules) : Parser Expr := binaryExpr (unaryExpr (primary g))

def headerExpr [IdleRound] (g : Rules) : Parser Expr := binaryExpr (unaryExpr (headerPrimary g))

end GoFun.Grammar
