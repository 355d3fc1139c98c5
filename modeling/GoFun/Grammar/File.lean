import GoFun.Grammar.Stmt

/-!
# Files

A rule that contains itself does so only after a character has been taken, and a statement is at
most one step away from an expression or a conditional at the same place. So twice as many nested
uses of the rules as there are characters, and two more, are enough for `parse?`.
-/
namespace GoFun.Grammar

open GoFun.Parser

/-- The rules with one more level of nesting. -/
def Rules.next [IdleRound] (g : Rules) : Rules where
  expr := Grammar.expr g
  type := Grammar.type g
  stmt := Grammar.stmt g
  elements := Grammar.elements g
  conditional := Grammar.conditional g

/-- The rules for trees of at most `depth` levels. -/
def rules [IdleRound] (depth : Nat) : Rules := Nat.repeat Rules.next depth Rules.none

def funcDecl [IdleRound] (g : Rules) : Parser FuncDecl := do
  let funcPos ← keyword "func"
  let recv ← optional (params g)
  let name ← ident
  let type ← signature g funcPos
  let body ← optional (block g)
  return ⟨funcPos, recv, name, type.params, type.results, body⟩

def decl [IdleRound] (g : Rules) : Parser Decl :=
  (do return .func (← funcDecl g)) <|> (do return .gen (← genDecl g))

def importSpec : Parser ImportSpec := do
  let name ← optional ((do return { pos := ← token ".", name := "." }) <|> ident)
  let path ← literal
  return ⟨name, .lit path⟩

def importDecl [IdleRound] : Parser (List ImportSpec) := do
  let _ ← keyword "import"
  (tokenNl "(" *> sepEndBy importSpec separator <* token ")") <|> (do return [← importSpec])

def fileBody [IdleRound] (g : Rules) : Parser File := do
  let packagePos ← keyword "package"
  let name ← ident
  let imports ← many (separator *> importDecl)
  let decls ← many (separator *> decl g)
  let _ ← optional separator
  blanksNl
  atEnd
  return ⟨packagePos, name, imports.flatten, decls⟩

def file [IdleRound] (g : Rules) : Parser File := do
  blanksNl
  fileBody g

def depthFor (cs : List Char) : Nat := 2 * cs.length + 2

/-- The tree of a source text, before its names are resolved. -/
def parse? (text : String) : Option File :=
  let cs := text.toList
  ((file (rules (depthFor cs))).run ⟨0, cs⟩).map Prod.fst

end GoFun.Grammar
