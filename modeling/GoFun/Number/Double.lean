/-!
# Doubles

A double is its 64 bits: a sign, an exponent of 11 bits and a fraction of 52 bits. A fraction of two
natural numbers is rounded to the nearest double, a tie to the even one.
-/
namespace GoFun.Number

-- Powers are those of the core library in all modules.
attribute [local instance (high)] instPowNat

structure Double where
  bits : UInt64
  deriving DecidableEq, Repr

/-- Rounds a quotient to the nearest natural number, a tie to the even one. -/
def roundHalfEven (num den : Nat) : Nat :=
  let down := num / den
  let rest := num % den
  if den < 2 * rest || (2 * rest == den && down % 2 == 1) then down + 1 else down

/-- The greatest `k` with `2 ^ k` at most the quotient, for positive numbers. -/
def floorLog2 (num den : Nat) : Int :=
  let k := (num.log2 : Int) - den.log2
  if num * 2 ^ (-k).toNat < den * 2 ^ k.toNat then k - 1 else k

namespace Double

def zero : Double := ⟨0⟩

def infinity : Double := ⟨0x7FF0000000000000⟩

def nan : Double := ⟨0x7FF8000000000000⟩

def neg (d : Double) : Double := ⟨d.bits ^^^ 0x8000000000000000⟩

def isNegative (d : Double) : Bool := d.bits ≥ 0x8000000000000000

/-- The bits without the sign. -/
def magnitude (d : Double) : Nat := d.bits.toNat % 2 ^ (63 : Nat)

def isNaN (d : Double) : Bool := infinity.magnitude < d.magnitude

def isInfinite (d : Double) : Bool := d.magnitude == infinity.magnitude

/-- The double nearest to a quotient. Its unit in the last place is `2 ^ q`; adding the rounded
number of units to the exponent bits also covers the case that rounding reaches the next power of
two. -/
def ofFraction (num den : Nat) : Double :=
  if num == 0 then zero
  else
    let q := max (floorLog2 num den - 52) (-1074)
    let units := roundHalfEven (num * 2 ^ (-q).toNat) (den * 2 ^ q.toNat)
    let bits := (q + 1074).toNat * 2 ^ (52 : Nat) + units
    if bits < infinity.magnitude then ⟨bits.toUInt64⟩ else infinity

/-- A finite double is `m * 2 ^ q`, without its sign. -/
def significand (d : Double) : Nat :=
  let fraction := d.magnitude % 2 ^ (52 : Nat)
  if d.magnitude < 2 ^ (52 : Nat) then fraction else 2 ^ (52 : Nat) + fraction

def exponent (d : Double) : Int :=
  max (d.magnitude / 2 ^ (52 : Nat) : Nat) 1 - 1075

end Double

end GoFun.Number
