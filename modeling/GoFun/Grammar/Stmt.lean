import GoFun.Grammar.Decl
import GoFun.Grammar.Expr

/-!
# Statements
-/
namespace GoFun.Grammar

open GoFun.Parser

def assignOps : List AssignOp :=
  [.define, .shl, .shr, .andNot, .add, .sub, .mul, .quo, .rem, .and, .or, .xor, .assign]

/-- Assignment, sending, counting up or down, or an expression alone. -/
def simpleStmt [IdleRound] (expr : Parser Expr) : Parser Stmt :=
  (do
    let lhs ← sepBy1 expr (tokenNl ",")
    let (opPos, op) ← tokenOf AssignOp.symbol assignOps <* blanksNl
    let rhs ← sepBy1 expr (tokenNl ",")
    return .assign lhs opPos op rhs)
  <|> (do
    let chan ← expr
    let arrow ← tokenNl "<-"
    let value ← expr
    return .send chan arrow value)
  <|> (do
    let x ← expr
    let (stepPos, step) ← tokenOf Step.symbol [.inc, .dec] <* blanks
    return .incDec x stepPos step)
  <|> (do return .expr (← expr))

def simple [IdleRound] (g : Rules) : Parser Stmt := simpleStmt g.expr

def headerSimple [IdleRound] (g : Rules) : Parser Stmt := simpleStmt (headerExpr g)

def returnStmt [IdleRound] (g : Rules) : Parser Stmt := do
  let retPos ← keyword "return"
  let results ← optional (exprList g)
  return .ret retPos (results.getD [])

def jumpStmt : Parser Stmt := do
  let (jumpPos, word) ← [Jump.brk, .cont, .goto, .fallthrough].firstM fun jump => do
    return (← keyword jump.word, jump)
  let label ← optional ident
  return .jump jumpPos word label

/-- A colon that does not begin `:=`. -/
def labelColon : Parser Pos := do
  let (offset, _) ← lexeme (Lexer.text ":")
  notNext "="
  blanksNl
  return some offset

def labeledStmt (g : Rules) : Parser Stmt := do
  let label ← ident
  let colon ← labelColon
  let stmt ← g.stmt
  return .labeled label colon stmt

/-- A simple statement before the semicolon of a header. -/
def headerInit [IdleRound] (g : Rules) : Parser Stmt := headerSimple g <* token ";"

def conditional [IdleRound] (g : Rules) : Parser Stmt := do
  let ifPos ← keyword "if"
  let init ← optional (headerInit g)
  let cond ← headerExpr g
  let body ← block g
  let other ← optional (keyword "else" *> (g.conditional <|> (do return .block (← block g))))
  return .ifElse ifPos init cond body other

def clauseBody [IdleRound] (g : Rules) : Parser (List Stmt) := sepEndBy g.stmt separator

def caseClause [IdleRound] (g : Rules) : Parser Stmt := do
  let (casePos, list) ←
    (do return (← keyword "case", ← exprList g))
    <|> (do return (← keyword "default", []))
  let colon ← token ":" <* blanksNl
  let body ← clauseBody g
  return .caseClause casePos list colon body

/-- The guard of a type switch: `x.(type)` or `v := x.(type)`. -/
def isTypeGuard : Stmt → Bool
  | .expr (.assertion _ _ none _) => true
  | .assign [_] _ .define [.assertion _ _ none _] => true
  | _ => false

def isTag (s : Stmt) : Bool :=
  isTypeGuard s || match s with
    | .expr _ => true
    | _ => false

def buildSwitch (switchPos : Pos) (init tag : Option Stmt) (body : Block) : Stmt :=
  match tag with
  | some tag =>
    if isTypeGuard tag then .typeSwitch switchPos init tag body
    else match tag with
      | .expr x => .switch switchPos init (some x) body
      | _ => .switch switchPos init none body
  | none => .switch switchPos init none body

def switchStmt [IdleRound] (g : Rules) : Parser Stmt := do
  let switchPos ← keyword "switch"
  let init ← optional (headerInit g)
  let tag ← optional (do
    let tag ← headerSimple g
    guard (isTag tag)
    return tag)
  let lbrace ← tokenNl "\x7b"
  let list ← many (caseClause g)
  let rbrace ← token "\x7d"
  return buildSwitch switchPos init tag ⟨lbrace, list, rbrace⟩

def commClause [IdleRound] (g : Rules) : Parser Stmt := do
  let (casePos, comm) ←
    (do return (← keyword "case", some (← simple g)))
    <|> (do return (← keyword "default", none))
  let colon ← token ":" <* blanksNl
  let body ← clauseBody g
  return .commClause casePos comm colon body

def selectStmt [IdleRound] (g : Rules) : Parser Stmt := do
  let selectPos ← keyword "select"
  let lbrace ← tokenNl "\x7b"
  let list ← many (commClause g)
  let rbrace ← token "\x7d"
  return .select selectPos ⟨lbrace, list, rbrace⟩

/-- The variables of a range clause, up to and with the assignment. -/
def rangeVars [IdleRound] (g : Rules) : Parser (Expr × Option Expr × Pos × AssignOp) := do
  let key ← headerExpr g
  let value ← optional (token "," *> headerExpr g)
  let (opPos, op) ← tokenOf AssignOp.symbol [.define, .assign] <* blanks
  return (key, value, opPos, op)

/-- A loop header becomes a loop once the body is known. -/
def rangeClause [IdleRound] (g : Rules) (forPos : Pos) : Parser (Block → Stmt) := do
  let vars ← optional (rangeVars g)
  let _ ← keyword "range"
  let x ← headerExpr g
  match vars with
  | some (key, value, opPos, op) => return .range forPos (some key) value opPos (some op) x
  | none => return .range forPos none none none none x

def forClause [IdleRound] (g : Rules) (forPos : Pos) : Parser (Block → Stmt) := do
  let init ← optional (headerSimple g)
  let _ ← token ";"
  let cond ← optional (headerExpr g)
  let _ ← token ";"
  let post ← optional (headerSimple g)
  return .forLoop forPos init cond post

def whileClause [IdleRound] (g : Rules) (forPos : Pos) : Parser (Block → Stmt) := do
  let cond ← headerExpr g
  return .forLoop forPos none (some cond) none

def forStmt [IdleRound] (g : Rules) : Parser Stmt := do
  let forPos ← keyword "for"
  let clause ← optional (rangeClause g forPos <|> forClause g forPos <|> whileClause g forPos)
  let body ← block g
  match clause with
  | some close => return close body
  | none => return .forLoop forPos none none none body

def goStmt (g : Rules) : Parser Stmt := do
  let goPos ← keyword "go"
  let call ← g.expr
  return .go goPos call

def deferStmt (g : Rules) : Parser Stmt := do
  let deferPos ← keyword "defer"
  let call ← g.expr
  return .defer deferPos call

def stmt [IdleRound] (g : Rules) : Parser Stmt :=
  (do return .decl (← genDecl g)) <|> returnStmt g <|> jumpStmt <|> g.conditional <|> switchStmt g
    <|> selectStmt g <|> forStmt g <|> goStmt g <|> deferStmt g <|> (do return .block (← block g))
    <|> labeledStmt g <|> simple g

end GoFun.Grammar
