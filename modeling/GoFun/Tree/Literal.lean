import GoFun.Source.Position

/-!
# Literals

A literal keeps its text exactly as written, quotes included. The kind of a number follows from its
spelling alone.
-/
namespace GoFun

inductive LitKind where
  | int | float | imag | char | string
  deriving DecidableEq, Repr

namespace LitKind

def symbol : LitKind → String
  | int => "INT"
  | float => "FLOAT"
  | imag => "IMAG"
  | char => "CHAR"
  | string => "STRING"

def ofSymbol? (s : String) : Option LitKind :=
  [int, float, imag, char, string].find? (·.symbol == s)

/-- The letter after a leading zero that announces a base other than ten. -/
def baseLetter? : List Char → Option Char
  | '0' :: c :: _ => if "xXoObB".toList.contains c then some c else none
  | _ => none

/-- The kind of a number. The letter `e` marks an exponent only where no base is announced, and `p`
only in base sixteen. -/
def ofNumber (text : List Char) : LitKind :=
  if text.getLast? == some 'i' then imag
  else match baseLetter? text with
    | some c => if (c == 'x' || c == 'X') &&
      text.any (fun d => d == 'p' || d == 'P') then float else int
    | none => if text.any (fun d => d == '.' || d == 'e' || d == 'E') then float else int

end LitKind

structure Literal where
  pos : Pos
  kind : LitKind
  text : String
  deriving DecidableEq, Repr

end GoFun
