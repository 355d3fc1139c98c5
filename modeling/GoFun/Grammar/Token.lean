import GoFun.Grammar.Parser
import GoFun.Lex.Number
import GoFun.Lex.Quote
import GoFun.Lex.Word
import GoFun.Tree.Basic

/-!
# Tokens

A token takes the layout after it, never the layout before it. A token that can end a statement
takes no line break; the others may be followed by one.
-/
namespace GoFun.Grammar

open GoFun.Parser

def blanks : Parser Unit := skip Lex.isBlank

def blanksNl : Parser Unit := skip Lex.isBlankOrNewline

/-- A semicolon or a line break, and all layout around it. -/
def separator : Parser Unit := do
  blanks
  let _ ← lexeme (Lexer.oneOf ";\n")
  blanksNl

def token (s : String) : Parser Pos := do
  let (offset, _) ← lexeme (Lexer.text s)
  blanks
  return some offset

def tokenNl (s : String) : Parser Pos := do
  let (offset, _) ← lexeme (Lexer.text s)
  blanksNl
  return some offset

/-- The first of the given tokens that matches, with the value that it stands for. -/
def tokenOf {α : Type} (spelling : α → String) (choices : List α) : Parser (Pos × α) :=
  choices.firstM fun a => do
    let (offset, _) ← lexeme (Lexer.text (spelling a))
    return (some offset, a)

def keyword (w : String) : Parser Pos := do
  let (offset, piece) ← lexeme Lex.word
  guard (String.ofList piece = w)
  blanks
  return some offset

def ident : Parser Ident := do
  let (offset, piece) ← lexeme Lex.word
  guard (String.ofList piece ∉ Lex.keywords)
  blanks
  return { pos := some offset, name := String.ofList piece }

def literalOf (kind : List Char → LitKind) (l : Lexer) : Parser Literal := do
  let (offset, piece) ← lexeme l
  blanks
  return ⟨some offset, kind piece, String.ofList piece⟩

def literal : Parser Literal :=
  literalOf LitKind.ofNumber Lex.number
    <|> literalOf (fun _ => .string) Lex.string
    <|> literalOf (fun _ => .char) Lex.char

end GoFun.Grammar
