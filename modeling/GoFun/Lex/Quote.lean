import GoFun.Lex.Basic

/-!
# Quoted literals

Strings and characters end at the first quote that no backslash precedes, and hold no line break but
after a backslash. Raw strings end at the next grave accent.
-/
namespace GoFun.Lex

open Lexer

/-- Everything through the closing quote `q`. -/
def throughQuote (q : Char) : Lexer
  | [] => none
  | '\\' :: c :: cs => (throughQuote q cs).map fun (s, rest) => ('\\' :: c :: s, rest)
  | c :: cs =>
    if c == q then some ([c], cs)
    else if c == '\\' || c == '\n' then none
    else (throughQuote q cs).map fun (s, rest) => (c :: s, rest)

def quoted (q : Char) : Lexer := one (· == q) ++ throughQuote q

def rawString : Lexer := text "\x60" ++ run (· != '\x60') ++ text "\x60"

def string : Lexer := quoted '"' <|> rawString

def char : Lexer := quoted '\''

end GoFun.Lex
