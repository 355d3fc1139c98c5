/-!
# Search by halving

A search looks for a value in sorted data. All that it sees is how the data at an index compare with
the value. It ends at an index of the value, or at the index where the value would have to be put.
-/
namespace GoFun

inductive Spot where
  /-- The value is at this index. -/
  | found (i : Nat)
  /-- All that is smaller stands before this index, and all else is greater. -/
  | vacant (i : Nat)
  deriving DecidableEq, Repr

def search (order : Nat → Ordering) (lo hi : Nat) : Spot :=
  if lo < hi then
    let mid := (lo + hi) / 2
    match order mid with
    | .lt => search order (mid + 1) hi
    | .eq => .found mid
    | .gt => search order lo mid
  else .vacant lo
termination_by hi - lo

theorem order_of_found {order : Nat → Ordering} {lo hi i : Nat}
    (h : search order lo hi = .found i) : order i = .eq := by
  fun_induction search order lo hi with
  | case1 lo hi hlt mid hmid ih => exact ih h
  | case2 lo hi hlt mid hmid =>
    rw [← Spot.found.inj h]
    exact hmid
  | case3 lo hi hlt mid hmid ih => exact ih h
  | case4 => cases h

theorem order_of_vacant {order : Nat → Ordering} {lo hi i : Nat}
    (h : search order lo hi = .vacant i) : i = lo ∨ order (i - 1) = .lt := by
  fun_induction search order lo hi with
  | case1 lo hi hlt mid hmid ih =>
    rcases ih h with rfl | ih
    · exact .inr hmid
    · exact .inr ih
  | case2 => cases h
  | case3 lo hi hlt mid hmid ih => exact ih h
  | case4 =>
    cases h
    exact .inl rfl

/-- Where the data before `j` are smaller and those from `k` on are greater, the search ends at `j`.
It has found the value there when there is an index between the two, and there is one at most. -/
theorem search_eq {order : Nat → Ordering} {lo hi j k : Nat} (hlo : lo ≤ j) (hhi : k ≤ hi)
    (hjk : j ≤ k) (hone : k ≤ j + 1) (below : ∀ i, order i = .lt ↔ i < j)
    (above : ∀ i, order i = .gt ↔ k ≤ i) :
    search order lo hi = if j < k then .found j else .vacant j := by
  fun_induction search order lo hi with
  | case1 lo hi hlt mid hmid ih => exact ih ((below mid).1 hmid) hhi
  | case2 lo hi hlt mid hmid =>
    have hj : ¬ mid < j := mt (below mid).2 (by simp [hmid])
    have hk : ¬ k ≤ mid := mt (above mid).2 (by simp [hmid])
    obtain rfl : mid = j := by omega
    rw [if_pos (by omega)]
  | case3 lo hi hlt mid hmid ih => exact ih hlo ((above mid).1 hmid)
  | case4 lo hi hlt =>
    rw [if_neg (by omega)]
    congr 1
    omega

end GoFun
