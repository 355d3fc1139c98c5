import GoFun.Text.Visible

/-!
# Quoted text

Text is shown between quotes so that no line break, control character or bare quote is left in it.
What has a short escape gets it, other characters that are not visible are shown by their number.
-/
namespace GoFun.Text

def escapeNumber (c : Char) : List Char :=
  ['\\', 'u', '\x7b'] ++ Nat.toDigits 16 c.toNat ++ ['\x7d']

def escape (quote c : Char) : List Char :=
  if c == '\x00' then ['\\', '0']
  else if c == '\t' then ['\\', 't']
  else if c == '\n' then ['\\', 'n']
  else if c == '\r' then ['\\', 'r']
  else if c == '\\' || c == quote then ['\\', c]
  else if isVisible c then [c]
  else escapeNumber c

/-- A string in double quotes. Single quotes inside stay as they are. -/
def quoteString (s : String) : String :=
  String.ofList ('"' :: s.toList.flatMap (escape '"') ++ ['"'])

/-- A character in single quotes. A double quote stays as it is. -/
def quoteChar (c : Char) : String :=
  String.ofList ('\'' :: escape '\'' c ++ ['\''])

end GoFun.Text
