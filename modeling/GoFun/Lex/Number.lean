import GoFun.Lex.Basic

/-!
# Numbers

A number is written in base sixteen, maybe with a binary exponent, in base eight or two with a
letter for the base, or in base ten, maybe with a point and an exponent. A final `i` makes it
imaginary. Digits may be separated by low lines.
-/
namespace GoFun.Lex

open Lexer

def isDigit (c : Char) : Bool := '0' ≤ c && c ≤ '9'

def isHexDigit (c : Char) : Bool := isDigit c || ('a' ≤ c && c ≤ 'f') || ('A' ≤ c && c ≤ 'F')

def digit : Lexer := one isDigit

def digits : Lexer := run fun c => isDigit c || c == '_'

def hexDigits : Lexer := run fun c => isHexDigit c || c == '_'

def exponent : Lexer := oneOf "eE" ++ opt (oneOf "+-") ++ digit ++ digits

def binaryExponent : Lexer := oneOf "pP" ++ opt (oneOf "+-") ++ digit ++ digits

/-- What a number in base sixteen looks like, be there a digit or not. -/
def hexSpelling : Lexer :=
  text "0" ++ oneOf "xX" ++ hexDigits ++ opt (text "." ++ hexDigits) ++ opt binaryExponent

/-- Base sixteen. There must be a digit of that base somewhere after the letter, be it in the
exponent. -/
def hexNumber : Lexer := hexSpelling.check fun s => (s.drop 2).any isHexDigit

/-- Base eight or two. Any letters and digits are taken, fitting the base or not. -/
def radixNumber : Lexer :=
  text "0" ++ oneOf "oObB" ++ one isAlphanum ++ run isAlphanum
where
  isAlphanum (c : Char) : Bool := c.isAlphanum || c == '_'

def decimalNumber : Lexer := digit ++ digits ++ opt (text "." ++ digits) ++ opt exponent

/-- Base ten without digits before the point. -/
def fractionNumber : Lexer := text "." ++ digit ++ digits ++ opt exponent

def number : Lexer :=
  (hexNumber <|> radixNumber <|> decimalNumber <|> fractionNumber) ++ opt (text "i")

end GoFun.Lex
