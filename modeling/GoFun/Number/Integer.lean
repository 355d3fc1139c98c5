import GoFun.Lex.Number

/-!
# Reading integers of a fixed width

An integer is a sign, which may be absent, and decimal digits. The first character at which reading
fails, as no digit or because the number leaves its range there, decides which error it is.
-/
namespace GoFun.Number

attribute [local instance (high)] instPowNat

inductive IntegerError where
  | empty | invalidDigit | tooLarge | tooSmall
  deriving DecidableEq, Repr

def IntegerError.message : IntegerError → String
  | empty => "cannot parse integer from empty string"
  | invalidDigit => "invalid digit found in string"
  | tooLarge => "number too large to fit in target type"
  | tooSmall => "number too small to fit in target type"

def digitValue (c : Char) : Nat := c.toNat - '0'.toNat

/-- Appends digits to the number `n`, which may not pass `limit`. -/
def readDigits (limit : Nat) (beyond : IntegerError) (n : Nat) : List Char → Except IntegerError Nat
  | [] => .ok n
  | c :: cs =>
    if Lex.isDigit c then
      let next := 10 * n + digitValue c
      if next ≤ limit then readDigits limit beyond next cs else .error beyond
    else .error .invalidDigit

/-- Two's complement numbers of `bits` bits. -/
def readSigned (bits : Nat) : List Char → Except IntegerError Int
  | [] => .error .empty
  | ['+'] => .error .invalidDigit
  | ['-'] => .error .invalidDigit
  | '-' :: cs => do return -Int.ofNat (← readDigits (2 ^ (bits - 1)) .tooSmall 0 cs)
  | '+' :: cs => do return Int.ofNat (← readDigits (2 ^ (bits - 1) - 1) .tooLarge 0 cs)
  | cs => do return Int.ofNat (← readDigits (2 ^ (bits - 1) - 1) .tooLarge 0 cs)

def readInt64 (cs : List Char) : Except IntegerError Int64 := do
  return Int64.ofInt (← readSigned 64 cs)

end GoFun.Number
