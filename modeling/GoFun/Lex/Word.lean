import GoFun.Lex.Basic
import GoFun.Text.Letter

/-!
# Words

A word is an identifier or a keyword.
-/
namespace GoFun.Lex

open Lexer

def keywords : List String :=
  ["break", "case", "chan", "const", "continue", "default", "defer", "else", "fallthrough", "for",
    "func", "go", "goto", "if", "import", "interface", "map", "package", "range", "return",
    "select", "struct", "switch", "type", "var"]

def word : Lexer := one Text.startsWord ++ run Text.continuesWord

end GoFun.Lex
