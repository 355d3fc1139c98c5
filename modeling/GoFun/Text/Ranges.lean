/-!
# Sets of code points

A set of code points is a table of the lengths of its gaps and ranges: so many code points are left
out, so many follow that belong to the set, and so on in turns.
-/
namespace GoFun.Text

structure Ranges where
  lengths : List Nat

/-- Goes from range to range. What is left of `n` is counted from the end of the last one. -/
def Ranges.holds : List Nat → Nat → Bool
  | gap :: range :: rest, n => gap ≤ n && (n < gap + range || holds rest (n - (gap + range)))
  | _, _ => false

def Ranges.contains (r : Ranges) (n : Nat) : Bool := holds r.lengths n

end GoFun.Text
