import GoFun.Number.Double
import GoFun.Number.Integer

/-!
# Reading doubles

Decimal texts are read to the nearest double. Numbers in base sixteen have a binary exponent; their
digits are taken up one by one, rounding at each digit, and the sum is scaled by a power of two that
is itself a double, so that it is zero or infinite far out.
-/
namespace GoFun.Number

attribute [local instance (high)] instPowNat

inductive DoubleError where
  | empty | invalid
  /-- The exponent of a number in base sixteen, moved by its fraction digits, leaves 32 bits. -/
  | exponentRange
  deriving DecidableEq, Repr

def DoubleError.message : DoubleError → String
  | empty => "cannot parse float from empty string"
  | invalid => "invalid float literal"
  | exponentRange => "attempt to subtract with overflow"

def ofDigits (cs : List Char) : Nat := cs.foldl (fun n c => 10 * n + digitValue c) 0

/-- The double nearest to `m * 10 ^ e`. Beyond the range of doubles the power is not computed. -/
def Double.ofDecimal (m : Nat) (e : Int) : Double :=
  let magnitude := (Nat.toDigits 10 m).length + e
  if m == 0 || magnitude < -330 then zero
  else if 310 < magnitude then infinity
  else ofFraction (m * 10 ^ e.toNat) (10 ^ (-e).toNat)

/-- The digits of an exponent after its letter. -/
def readExponent : List Char → Option Int
  | '-' :: cs => (natural cs).map fun n => -Int.ofNat n
  | '+' :: cs => (natural cs).map Int.ofNat
  | cs => (natural cs).map Int.ofNat
where
  natural (cs : List Char) : Option Nat :=
    if !cs.isEmpty && cs.all Lex.isDigit then some (ofDigits cs) else none

/-- Digits, with a point before, between or behind them, and maybe an exponent. -/
def readUnsigned (cs : List Char) : Option Double := do
  let whole := cs.takeWhile Lex.isDigit
  let (part, rest) := match cs.dropWhile Lex.isDigit with
    | '.' :: rest => (rest.takeWhile Lex.isDigit, rest.dropWhile Lex.isDigit)
    | rest => ([], rest)
  guard (!(whole ++ part).isEmpty)
  let e ← match rest with
    | [] => some 0
    | c :: cs => if c == 'e' || c == 'E' then readExponent cs else none
  return .ofDecimal (ofDigits (whole ++ part)) (e - part.length)

def readSpecial (cs : List Char) : Option Double :=
  let word := String.ofList (cs.map Char.toLower)
  if word == "inf" || word == "infinity" then some .infinity
  else if word == "nan" then some .nan
  else none

def readDecimal : List Char → Except DoubleError Double
  | [] => .error .empty
  | '-' :: cs => (unsigned cs).map Double.neg
  | '+' :: cs => unsigned cs
  | cs => unsigned cs
where
  unsigned (cs : List Char) : Except DoubleError Double :=
    match readUnsigned cs <|> readSpecial cs with
    | some d => .ok d
    | none => .error .invalid

def hexValue? (c : Char) : Option Nat :=
  if Lex.isDigit c then some (digitValue c)
  else if 'a' ≤ c && c ≤ 'f' then some (c.toNat - 'a'.toNat + 10)
  else if 'A' ≤ c && c ≤ 'F' then some (c.toNat - 'A'.toNat + 10)
  else none

/-- The nearest number with at most 53 significant bits; nothing when it is not below `2 ^ 1024`. -/
def round53 (n : Nat) : Option Nat :=
  let unit := 2 ^ (n.log2 - 52)
  let rounded := roundHalfEven n unit * unit
  if rounded < 2 ^ (1024 : Nat) then some rounded else none

/-- The digits of base sixteen as a number, rounded after each digit. Infinity stays infinite. -/
def sumHex (sum : Option Nat) : List Nat → Option Nat
  | [] => sum
  | d :: ds => sumHex (sum.bind fun n => round53 (16 * n + d)) ds

/-- `sum * 2 ^ e` where the power is rounded first: zero from -1024 on, infinite from 1024 on. -/
def scaleHex (sum : Option Nat) (e : Int) : Double :=
  match sum with
  | none => if e ≤ -1024 then .nan else .infinity
  | some n =>
    if e ≤ -1024 then .zero
    else if 1024 ≤ e then if n == 0 then .nan else .infinity
    else .ofFraction (n * 2 ^ e.toNat) (2 ^ (-e).toNat)

/-- The text behind `0x`. Nothing when it is no mantissa with an exponent that fits 32 bits. -/
def readHex? (cs : List Char) : Option (Except DoubleError Double) := do
  let isMark c := c == 'p' || c == 'P'
  let mantissa := cs.takeWhile (!isMark ·)
  let _ :: exponentText := cs.dropWhile (!isMark ·) | none
  let e ← (readSigned 32 exponentText).toOption
  let whole := mantissa.takeWhile (· != '.')
  let part := (mantissa.dropWhile (· != '.')).drop 1
  guard (!(whole ++ part).isEmpty)
  let ds ← (whole ++ part).mapM hexValue?
  let moved := e - 4 * part.length
  guard (4 * part.length < 2 ^ (31 : Nat))
  return if -2 ^ (31 : Nat) ≤ moved then .ok (scaleHex (sumHex (some 0) ds) moved) else .error
    .exponentRange

/-- The value of a number with a point or an exponent, in which low lines do not count. -/
def readDouble (cs : List Char) : Except DoubleError Double :=
  match cs.filter (· != '_') with
  | '0' :: 'x' :: hex | '0' :: 'X' :: hex => (readHex? hex).getD (.error .invalid)
  | decimal => readDecimal decimal

end GoFun.Number
