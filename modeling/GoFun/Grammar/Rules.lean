import GoFun.Grammar.Token

/-!
# Open rules

Expressions, types, statements, element lists and conditionals contain each other. A rule of the
grammar is written over a record of parsers that stand for these five, so that no definition is
recursive. `GoFun.Grammar.File` closes the circle.
-/
namespace GoFun.Grammar

open GoFun.Parser

/-- The elements of a composite literal with their braces. -/
structure Elements where
  lbrace : Pos
  list : List Expr
  rbrace : Pos

structure Rules where
  expr : Parser Expr
  type : Parser Expr
  stmt : Parser Stmt
  elements : Parser Elements
  conditional : Parser Stmt

/-- Rules that accept nothing. -/
def Rules.none : Rules := ⟨failure, failure, failure, failure, failure⟩

/-- Statements in braces. -/
def block [IdleRound] (g : Rules) : Parser Block := do
  let lbrace ← tokenNl "\x7b"
  let list ← sepEndBy g.stmt separator
  let rbrace ← token "\x7d"
  return ⟨lbrace, list, rbrace⟩

def exprList [IdleRound] (g : Rules) : Parser (List Expr) := sepBy1 g.expr (tokenNl ",")

end GoFun.Grammar
