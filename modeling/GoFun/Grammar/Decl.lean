import GoFun.Grammar.Type

/-!
# Declarations of variables, constants and types
-/
namespace GoFun.Grammar

open GoFun.Parser

def valueSpec [IdleRound] (g : Rules) : Parser Spec := do
  let names ← sepBy1 ident (tokenNl ",")
  let type ← optional g.type
  let values ← optional (tokenNl "=" *> exprList g)
  return .value names type (values.getD [])

def typeSpec (g : Rules) : Parser Spec := do
  let name ← ident
  let equals ← optional (token "=")
  let type ← g.type
  return .type name equals.join type

/-- One declaration, or a group of them in parentheses. -/
def specGroup [IdleRound] (wordPos : Pos) (word : DeclWord) (spec : Parser Spec) : Parser GenDecl :=
  (do
    let lparen ← tokenNl "("
    let specs ← sepEndBy spec separator
    let rparen ← token ")"
    return ⟨wordPos, word, lparen, specs, rparen⟩)
  <|> (do return ⟨wordPos, word, none, [← spec], none⟩)

def declOf [IdleRound] (word : DeclWord) (spec : Parser Spec) : Parser GenDecl := do
  let wordPos ← keyword word.word
  specGroup wordPos word spec

def genDecl [IdleRound] (g : Rules) : Parser GenDecl :=
  declOf .var (valueSpec g) <|> declOf .const (valueSpec g) <|> declOf .type (typeSpec g)

end GoFun.Grammar
