import GoFun.Number.Double

/-!
# The shortest text of a double

The digits are the fewest that read back as the same double, and of those the nearest to it; a tie
goes up. Numbers from 1e-4 on and below 1e16 are written without an exponent.
-/
namespace GoFun.Number

attribute [local instance (high)] instPowNat

/-- The greatest `k` with `10 ^ k` at most the quotient, for positive numbers. -/
def floorLog10 (num den : Nat) : Int :=
  if den ≤ num then (Nat.toDigits 10 (num / den)).length - 1
  else -((Nat.toDigits 10 ((den - 1) / num)).length : Int)

namespace Double

/-- The points around a double at which reading changes over to its neighbours, and the double
itself, in quarters of its last place. Below a power of two the doubles are twice as close. -/
def quarters (d : Double) : Nat × Nat × Nat :=
  let m := d.significand
  let low := if m == 2 ^ (52 : Nat) && -1074 < d.exponent then 4 * m - 1 else 4 * m - 2
  (low, 4 * m, 4 * m + 2)

/-- The multiple of `10 ^ t` nearest to a double, if it reads back as that double. -/
def onGrid? (d : Double) (t : Int) : Option Nat :=
  let (low, value, high) := d.quarters
  let e := d.exponent - 2
  let quarter := 2 ^ e.toNat * 10 ^ (-t).toNat
  let step := 10 ^ t.toNat * 2 ^ (-e).toNat
  let readsBack (p : Nat) : Bool :=
    if d.significand % 2 == 0 then low * quarter ≤ p * step && p * step ≤ high * quarter
    else low * quarter < p * step && p * step < high * quarter
  let down := value * quarter / step
  let nearest :=
    if (down + 1) * step - value * quarter ≤ value * quarter - down * step then down + 1 else down
  let other := if nearest == down then down + 1 else down
  if readsBack nearest then some nearest else if readsBack other then some other else none

/-- Drops the zeros at the end of a number, counting them. -/
def trimZeros (p : Nat) (t : Int) : Nat × Int :=
  if p != 0 && p % 10 == 0 then trimZeros (p / 10) (t + 1) else (p, t)
termination_by p
decreasing_by grind

/-- Digits and exponent of a positive finite double: it is nearest to `p * 10 ^ t`. Seventeen digits
always read back. -/
def shortest (d : Double) : Nat × Int :=
  let e := d.exponent
  let k := floorLog10 (d.significand * 2 ^ e.toNat) (2 ^ (-e).toNat)
  let at? (n : Nat) : Option (Nat × Int) := (d.onGrid? (k - n)).map fun p => trimZeros p (k - n)
  ((List.range 17).findSome? at?).getD (0, 0)

/-- Digits with a point, where the last digit counts `10 ^ t`. -/
def positional (digits : List Char) (t : Int) : List Char :=
  if 0 ≤ t then digits ++ List.replicate t.toNat '0' ++ ['.', '0']
  else
    let places := (-t).toNat
    let padded := List.replicate (places + 1 - digits.length) '0' ++ digits
    padded.take (padded.length - places) ++ '.' :: padded.drop (padded.length - places)

/-- Digits with one place before the point and an exponent. -/
def scientific (digits : List Char) (e : Int) : List Char :=
  let part := digits.drop 1
  digits.take 1 ++ (if part.isEmpty then [] else '.' :: part) ++ 'e' :: (toString e).toList

def unsignedText (d : Double) : List Char :=
  if d.isNaN then "NaN".toList
  else if d.isInfinite then "inf".toList
  else if d.magnitude == 0 then "0.0".toList
  else
    let (p, t) := d.shortest
    let digits := Nat.toDigits 10 p
    let e := t + digits.length - 1
    if -4 ≤ e && e < 16 then positional digits t else scientific digits e

def text (d : Double) : String :=
  String.ofList (if d.isNegative && !d.isNaN then '-' :: d.unsignedText else d.unsignedText)

end Double

end GoFun.Number
