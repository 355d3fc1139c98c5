import GoFun.Grammar.Parser
import GoFun.Source.Position

/-!
# Counting lines

The line of an offset counts the line breaks before it, and the column counts the bytes since the
last one. Text in front of a text adds the number of its line breaks to the line of every offset.
-/
namespace GoFun

open List

/-- In sorted data what stays below a bound comes first. -/
theorem any_getElem?_eq {xs : List Nat} {p : Nat → Bool} (h : xs.Pairwise (· < ·))
    (hp : ∀ a b, a ≤ b → p b = true → p a = true) (i : Nat) :
    xs[i]?.any p = decide (i < xs.countP p) := by
  induction xs generalizing i with
  | nil => simp
  | cons x xs ih =>
    obtain ⟨hx, hxs⟩ := pairwise_cons.1 h
    by_cases hpx : p x = true
    · cases i with
      | zero => simp [hpx]
      | succ i => simpa [hpx] using ih hxs i
    · -- all that follows is above the bound, too
      have hnone : (x :: xs).countP p = 0 := by
        refine countP_eq_zero.2 fun y hy => ?_
        rcases mem_cons.1 hy with rfl | hy
        · exact hpx
        · exact mt (hp x y (Nat.le_of_lt (hx y hy))) hpx
      rw [hnone]
      cases hi : (x :: xs)[i]? with
      | none => rfl
      | some y => simpa using countP_eq_zero.1 hnone y (mem_of_getElem? hi)

theorem any_getElem?_lt {xs : List Nat} (h : xs.Pairwise (· < ·)) (bound i : Nat) :
    xs[i]?.any (· < bound) = decide (i < xs.countP (· < bound)) :=
  any_getElem?_eq h (fun _ _ hab hb => decide_eq_true
    (Nat.lt_of_le_of_lt hab (of_decide_eq_true hb))) i

theorem any_getElem?_le {xs : List Nat} (h : xs.Pairwise (· < ·)) (bound i : Nat) :
    xs[i]?.any (· ≤ bound) = decide (i < xs.countP (· ≤ bound)) :=
  any_getElem?_eq h (fun _ _ hab hb => decide_eq_true (Nat.le_trans hab (of_decide_eq_true hb))) i

/-- A value comes once at most. -/
theorem countP_le_eq {xs : List Nat} (h : xs.Pairwise (· < ·)) (bound : Nat) :
    xs.countP (· ≤ bound) = xs.countP (· < bound) + if bound ∈ xs then 1 else 0 := by
  induction xs with
  | nil => rfl
  | cons x xs ih =>
    obtain ⟨hx, hxs⟩ := pairwise_cons.1 h
    rw [countP_cons, countP_cons, ih hxs]
    rcases Nat.lt_trichotomy x bound with hlt | rfl | hgt
    · simp [hlt, Nat.le_of_lt hlt, Nat.ne_of_gt hlt]
      omega
    · have hnot : x ∉ xs := fun hmem => Nat.lt_irrefl x (hx x hmem)
      simp [hnot]
    · have hnot : bound ∉ xs := fun hmem => Nat.lt_asymm hgt (hx bound hmem)
      simp [hnot, Nat.not_le.2 hgt, Nat.lt_asymm hgt, Nat.ne_of_lt hgt]

/-- An earlier line, or an earlier column of the same line. -/
def Position.Precedes (p q : Position) : Prop :=
  p.line < q.line ∨ p.line = q.line ∧ p.column < q.column

namespace SourceMap

open Parser (utf8Length)

theorem startsFrom_append (o : Nat) (p cs : List Char) :
    startsFrom o (p ++ cs) = startsFrom o p ++ startsFrom (o + utf8Length p) cs := by
  induction p generalizing o with
  | nil => simp [startsFrom, utf8Length]
  | cons c p ih =>
    have hlen : o + utf8Length (c :: p) = o + c.utf8Size +
        utf8Length p := by simp [utf8Length, Nat.add_assoc]
    simp only [cons_append, startsFrom, hlen, ih]
    split <;> rfl

theorem startsFrom_add (o k : Nat) (cs : List Char) :
    startsFrom (o + k) cs = (startsFrom o cs).map (· + k) := by
  induction cs generalizing o with
  | nil => rfl
  | cons c cs ih =>
    simp only [startsFrom, Nat.add_right_comm o k, ih]
    split <;> rfl

theorem mem_startsFrom {o s : Nat} {cs : List Char} (h : s ∈ startsFrom o cs) :
    o < s ∧ s ≤ o + utf8Length cs := by
  induction cs generalizing o with
  | nil => simp [startsFrom] at h
  | cons c cs ih =>
    have hlen : o + utf8Length (c :: cs) = o + c.utf8Size +
        utf8Length cs := by simp [utf8Length, Nat.add_assoc]
    rw [hlen]
    have hsize := c.utf8Size_pos
    have htail : s ∈ startsFrom (o + c.utf8Size) cs →
        o < s ∧ s ≤ o + c.utf8Size + utf8Length cs := fun h => by
      have := ih h
      omega
    simp only [startsFrom] at h
    split at h
    · rcases mem_cons.1 h with rfl | h
      · omega
      · exact htail h
    · exact htail h

theorem pairwise_startsFrom (o : Nat) (cs : List Char) :
    (startsFrom o cs).Pairwise (· < ·) := by
  induction cs generalizing o with
  | nil => exact .nil
  | cons c cs ih =>
    simp only [startsFrom]
    split
    · exact .cons (fun s hs => (mem_startsFrom hs).1) (ih _)
    · exact ih _

theorem pairwise_starts (text : String) : (0 :: startsFrom 0 text.toList).Pairwise (· < ·) :=
  .cons (fun _ hs => (mem_startsFrom hs).1) (pairwise_startsFrom 0 _)

/-- The search finds the line that starts at the offset, if there is one. Otherwise it ends behind
the lines that start before the offset. -/
theorem search_starts (name text : String) (offset : Nat) :
    search ((ofText name text).startOrder offset) 0 (ofText name text).starts.size =
      let before := (0 :: startsFrom 0 text.toList).countP (· < offset)
      if offset ∈ 0 :: startsFrom 0 text.toList then .found before else .vacant before := by
  have hsorted := pairwise_starts text
  simp only [ofText, size_toArray]
  generalize 0 :: startsFrom 0 text.toList = xs at hsorted ⊢
  have hcount := countP_le_eq hsorted offset
  have hlt := any_getElem?_lt hsorted offset
  have hle := any_getElem?_le hsorted offset
  rw [search_eq (j := xs.countP (· < offset)) (k := xs.countP (· ≤ offset)) (Nat.zero_le _)
    countP_le_length (by omega) (by split at hcount <;> omega) (fun i => ?_) (fun i => ?_), hcount]
  · by_cases hmem : offset ∈ xs <;> simp [hmem]
  · have := hlt i
    cases hi : xs[i]? with
    | none => simpa [startOrder, hi] using this
    | some x => simpa [startOrder, hi, Nat.compare_eq_lt] using this
  · have := hle i
    cases hi : xs[i]? with
    | none => simpa [startOrder, hi] using this
    | some x =>
      simp only [hi, Option.any_some, decide_eq_decide] at this
      simp only [startOrder, List.getElem?_toArray, hi, Option.map_some, Option.getD_some,
        Nat.compare_eq_gt]
      omega

theorem lineIndex_starts (name text : String) (offset : Nat) :
    (ofText name text).lineIndex offset + 1 =
      (0 :: startsFrom 0 text.toList).countP (· ≤ offset) := by
  have hcount := countP_le_eq (pairwise_starts text) offset
  rw [lineIndex, search_starts]
  by_cases hmem : offset ∈ 0 :: startsFrom 0 text.toList
  · simp only [hmem, if_true] at hcount ⊢
    exact hcount.symm
  · -- the first line starts before the offset
    have hpos : 0 < (0 :: startsFrom 0 text.toList).countP (· < offset) := by
      have hzero : offset ≠ 0 := fun h => hmem (by simp [h])
      simp [Nat.pos_of_ne_zero hzero]
    simp only [hmem, if_false] at hcount ⊢
    omega

theorem line_ofText (name text : String) (offset : Nat) :
    (ofText name text).line (some offset) =
      1 + (startsFrom 0 text.toList).countP (· ≤ offset) := by
  change (ofText name text).lineIndex offset + 1 = _
  rw [lineIndex_starts]
  simp [Nat.add_comm]

theorem line_append (name front text : String) (offset : Nat) :
    (ofText name (front ++ text)).line (some (offset + utf8Length front.toList)) =
      (ofText name text).line (some offset) + (startsFrom 0 front.toList).length := by
  have hfront : (startsFrom 0 front.toList).countP (· ≤ offset + utf8Length front.toList) =
      (startsFrom 0 front.toList).length := by
    refine countP_eq_length.2 fun s hs => ?_
    have := mem_startsFrom hs
    simp only [decide_eq_true_eq]
    omega
  have hrest : startsFrom (utf8Length front.toList) text.toList =
      (startsFrom 0 text.toList).map (· + utf8Length front.toList) := by
    simpa using startsFrom_add 0 (utf8Length front.toList) text.toList
  rw [line_ofText, line_ofText, String.toList_append, startsFrom_append, countP_append, hfront,
    Nat.zero_add, hrest, countP_map]
  simp only [Function.comp_def, Nat.add_le_add_iff_right]
  omega

def bytes (text : String) : List UInt8 := text.toUTF8.data.toList

theorem bytes_eq (text : String) : bytes text = text.toList.flatMap String.utf8EncodeChar := by
  rw [bytes, String.toUTF8_eq_toByteArray, ← String.utf8Encode_toList]
  simp [List.utf8Encode]

/-- Of all characters only a line break is written with the byte of a line break. -/
theorem newline_notMem_utf8EncodeChar {c : Char} (hc : c ≠ '\n') :
    10 ∉ String.utf8EncodeChar c := by
  have hval : c.val.toNat ≠ 10 := fun h => hc (Char.ext (UInt32.toNat_inj.1 h))
  have hbyte : ∀ n, (10 : UInt8) = UInt8.ofNat n ↔ n % 256 = 10 := by
    intro n
    rw [← UInt8.toNat_inj, UInt8.toNat_ofNat', eq_comm]
    rfl
  -- the bytes of a longer character are all above the ones of a single byte
  fun_cases String.utf8EncodeChar c <;> simp only [mem_cons, not_mem_nil, hbyte, or_false] <;> omega

theorem countP_startsFrom (o x : Nat) (cs : List Char) :
    (startsFrom o cs).countP (· ≤ o + x) =
      ((cs.flatMap String.utf8EncodeChar).take x).count 10 := by
  induction cs generalizing o x with
  | nil => simp [startsFrom]
  | cons c cs ih =>
    have hlate : ∀ k, x < k → (startsFrom (o + k) cs).countP (· ≤ o + x) = 0 := fun k hk => by
      refine countP_eq_zero.2 fun s hs => ?_
      have := (mem_startsFrom hs).1
      simp only [decide_eq_true_eq]
      omega
    by_cases hc : c = '\n'
    · subst hc
      have hbreak : String.utf8EncodeChar '\n' = [10] := by decide
      have hstarts : startsFrom o ('\n' :: cs) = (o + 1) :: startsFrom (o + 1) cs := rfl
      rw [flatMap_cons, hbreak, hstarts, singleton_append]
      cases x with
      | zero => simpa using hlate 1 Nat.one_pos
      | succ x =>
        rw [show o + (x + 1) = o + 1 + x by omega, countP_cons_of_pos (by simp), ih]
        simp
    · have hnone : ((String.utf8EncodeChar c).take x).count 10 = 0 :=
        count_eq_zero.2 fun h => newline_notMem_utf8EncodeChar hc (mem_of_mem_take h)
      rw [startsFrom, if_neg hc, flatMap_cons, take_append, count_append, hnone, Nat.zero_add,
        String.length_utf8EncodeChar]
      by_cases hx : x < c.utf8Size
      · rw [hlate _ hx, Nat.sub_eq_zero_of_le (Nat.le_of_lt hx), take_zero, count_nil]
      · rw [← ih (o + c.utf8Size), show o + c.utf8Size + (x - c.utf8Size) = o + x by omega]

/-- The number of line breaks among the bytes before an offset. -/
def breaksBefore (text : String) (offset : Nat) : Nat := ((bytes text).take offset).count 10

theorem breaksBefore_succ (text : String) (i : Nat) :
    breaksBefore text (i + 1) = breaksBefore text i + if (bytes text)[i]? =
      some 10 then 1 else 0 := by
  rw [breaksBefore, breaksBefore, take_add_one, count_append]
  cases (bytes text)[i]? with
  | none => simp
  | some b => simp [count_singleton]

theorem breaksBefore_mono (text : String) {i j : Nat} (h : i ≤ j) :
    breaksBefore text i ≤ breaksBefore text j :=
  (take_sublist_take_left h).count_le 10

theorem countP_starts (text : String) (offset : Nat) :
    (0 :: startsFrom 0 text.toList).countP (· ≤ offset) = breaksBefore text offset + 1 := by
  have h := countP_startsFrom 0 offset text.toList
  rw [Nat.zero_add, ← bytes_eq] at h
  simpa [breaksBefore] using h

theorem lineIndex_ofText (name text : String) (offset : Nat) :
    (ofText name text).lineIndex offset = breaksBefore text offset := by
  have := lineIndex_starts name text offset
  rw [countP_starts] at this
  omega

/-- A line starts behind its line break, and there is none from there on up to the offset. -/
theorem exists_start (text : String) (offset : Nat) :
    ∃ start ≤ offset, (0 :: startsFrom 0 text.toList)[breaksBefore text offset]? = some start ∧
      (start = 0 ∨ (bytes text)[start - 1]? = some 10) ∧
      ∀ i, start ≤ i → i < offset → (bytes text)[i]? ≠ some 10 := by
  have hat := any_getElem?_le (pairwise_starts text)
  simp only [countP_starts] at hat
  have hfound := (hat offset (breaksBefore text offset)).trans (decide_eq_true (Nat.lt_succ_self _))
  obtain ⟨start, hs, hle⟩ := (Option.any_eq_true _ _).1 hfound
  replace hat : ∀ bound, start ≤ bound ↔ breaksBefore text offset ≤ breaksBefore text bound :=
    fun bound => by
    simpa [hs, Nat.lt_succ_iff] using hat bound (breaksBefore text offset)
  refine ⟨start, by simpa using hle, hs, ?_, fun i hi hlt hbreak => ?_⟩
  · cases start with
    | zero => exact .inl rfl
    | succ i =>
      have hbefore := mt (hat i).2 (Nat.not_succ_le_self i)
      have hat := (hat (i + 1)).1 (Nat.le_refl _)
      rw [breaksBefore_succ] at hat
      refine .inr (Classical.byContradiction fun hne => ?_)
      rw [Nat.add_sub_cancel] at hne
      rw [if_neg hne] at hat
      omega
  · have hbefore := (hat i).1 hi
    have hafter := breaksBefore_mono text (Nat.succ_le_of_lt hlt)
    rw [Nat.succ_eq_add_one, breaksBefore_succ, if_pos hbreak] at hafter
    omega

theorem precedes_of_lt (name text : String) {a b : Nat} (h : a < b) :
    ((ofText name text).position (some a)).Precedes ((ofText name text).position (some b)) := by
  obtain ⟨start, hle, hstart, -⟩ := exists_start text a
  have hmono := breaksBefore_mono text (Nat.le_of_lt h)
  simp only [Position.Precedes, position, lineIndex_ofText]
  rcases Nat.lt_or_eq_of_le hmono with hline | hline
  · exact .inl (by omega)
  · refine .inr ⟨by omega, ?_⟩
    -- one line has one start
    simp only [ofText, getElem?_toArray, ← hline, hstart, Option.getD_some]
    omega

/-- Only the first line starts at 0. -/
theorem breaksBefore_eq_zero_iff {text : String} {offset start : Nat}
    (h : (0 :: startsFrom 0 text.toList)[breaksBefore text offset]? = some start) :
    breaksBefore text offset = 0 ↔ start = 0 := by
  constructor
  · intro hzero
    rw [hzero] at h
    exact (Option.some.inj h).symm
  · rintro rfl
    cases hk : breaksBefore text offset with
    | zero => rfl
    | succ k =>
      rw [hk, getElem?_cons_succ] at h
      exact absurd (mem_startsFrom (mem_of_getElem? h)).1 (Nat.lt_irrefl 0)

theorem wordPosition?_eq (name text : String) (offset : UInt64) :
    (ofText name text).wordPosition? offset =
      if offset.toNat + 1 = UInt64.size ∧ breaksBefore text offset.toNat = 0 then none
      else some ((ofText name text).position (some offset.toNat)) := by
  obtain ⟨start, hle, hstart, -⟩ := exists_start text offset.toNat
  have hsize : offset.toNat < UInt64.size := offset.toNat_lt
  have hword : (UInt64.ofNat start).toNat = start :=
    UInt64.toNat_ofNat_of_lt (Nat.lt_of_le_of_lt hle hsize)
  have hget :
      (ofText name text).starts[(ofText name text).lineIndex offset.toNat]?.getD 0 = start := by
    rw [lineIndex_ofText]
    simp [ofText, hstart]
  have hsub : (offset - .ofNat start).toNat = offset.toNat - start := by
    rw [UInt64.toNat_sub_of_le _ _ (UInt64.le_iff_toNat_le.2 (by rwa [hword])), hword]
  simp only [wordPosition?, position, hget, Word.sub?, Word.add?, UInt64.le_iff_toNat_le, hword,
    if_pos hle, Option.bind_eq_bind, Option.bind_some, hsub, UInt64.toNat_one,
    breaksBefore_eq_zero_iff hstart]
  by_cases hfits : offset.toNat - start + 1 < UInt64.size
  · have hsum : (offset - .ofNat start + 1).toNat = offset.toNat - start + 1 := by
      rw [UInt64.toNat_add, hsub]
      exact Nat.mod_eq_of_lt hfits
    have hnot : ¬ (offset.toNat + 1 = UInt64.size ∧ start = 0) := by
      rintro ⟨hlast, rfl⟩
      omega
    rw [if_pos hfits, if_neg hnot, Option.bind_some, hsum]
    rfl
  · have hlast : offset.toNat + 1 = UInt64.size ∧ start = 0 := by
      omega
    rw [if_neg hfits, if_pos hlast]
    rfl

/-- An offset of 64 bits has a position unless it is the last one of all and no line break comes
before it. The line counts the line breaks among the bytes before the offset, and the column the
bytes since the last of them. So lines and columns are in the order of offsets and tell them apart,
also past the end of the text and inside of a character. -/
theorem position_exact (name text : String) :
    (∀ offset, (ofText name text).wordPosition? offset = none ↔
      offset.toNat + 1 = UInt64.size ∧ breaksBefore text offset.toNat = 0) ∧
    (∀ offset p, (ofText name text).wordPosition? offset = some p →
      (ofText name text).position (some offset.toNat) = p ∧
      ∃ start ≤ offset.toNat, (start = 0 ∨ (bytes text)[start - 1]? = some 10) ∧
        (∀ i, start ≤ i → i < offset.toNat → (bytes text)[i]? ≠ some 10) ∧
        p = ⟨name, 1 + breaksBefore text offset.toNat, 1 + (offset.toNat - start)⟩) ∧
    ∀ a b p q, (ofText name text).wordPosition? a = some p →
      (ofText name text).wordPosition? b = some q →
      (a < b ↔ p.Precedes q) ∧ (p.line = q.line → p.column = q.column → a = b) := by
  have hsome : ∀ {offset p}, (ofText name text).wordPosition? offset = some p →
      (ofText name text).position (some offset.toNat) = p := by
    intro offset p h
    rw [wordPosition?_eq] at h
    split at h
    · cases h
    · exact Option.some.inj h
  refine ⟨fun offset => ?_, fun offset p h => ⟨hsome h, ?_⟩, fun a b p q hp hq => ?_⟩
  · rw [wordPosition?_eq]
    split
    case isTrue hlast => exact iff_of_true rfl hlast
    case isFalse hlast => exact iff_of_false nofun hlast
  · obtain ⟨start, hle, hstart, hbreak, hnone⟩ := exists_start text offset.toNat
    refine ⟨start, hle, hbreak, hnone, ?_⟩
    rw [← hsome h]
    simp only [position, lineIndex_ofText, Nat.add_comm 1]
    simp [ofText, hstart]
  · obtain rfl := hsome hp
    obtain rfl := hsome hq
    rw [UInt64.lt_iff_toNat_lt, ← UInt64.toNat_inj]
    rcases Nat.lt_trichotomy a.toNat b.toNat with h | h | h
    · have hab := precedes_of_lt name text h
      refine ⟨iff_of_true h hab, fun hline hcolumn => ?_⟩
      rcases hab with hab | hab <;> omega
    · rw [h]
      exact ⟨iff_of_false (Nat.lt_irrefl _) (by simp [Position.Precedes]), fun _ _ => rfl⟩
    · have hba := precedes_of_lt name text h
      refine ⟨iff_of_false (Nat.lt_asymm h) fun hab => ?_, fun hline hcolumn => ?_⟩
      · rcases hab with hab | hab <;> rcases hba with hba | hba <;> omega
      · rcases hba with hba | hba <;> omega

/-- One offset inside of a character and one past the end. -/
theorem position_accented :
    ∃ p q, (ofText "p.go" "é\nab").wordPosition? 1 = some p ∧
      (ofText "p.go" "é\nab").wordPosition? 18446744073709551615 = some q ∧
      p = ⟨"p.go", 1, 2⟩ ∧ q = ⟨"p.go", 2, 18446744073709551613⟩ ∧ p.Precedes q := by
  have hp : (ofText "p.go" "é\nab").wordPosition? 1 = some ⟨"p.go", 1, 2⟩ := by decide +kernel
  have hq : (ofText "p.go" "é\nab").wordPosition? 18446744073709551615 =
      some ⟨"p.go", 2, 18446744073709551613⟩ := by decide +kernel
  exact ⟨_, _, hp, hq, rfl, rfl, ((position_exact "p.go" "é\nab").2.2 _ _ _ _ hp hq).1.1
    (by decide)⟩

/-- The column of this offset would need one bit more. -/
theorem wordPosition?_last : (ofText "" "").wordPosition? 18446744073709551615 = none := by
  decide +kernel

end SourceMap

end GoFun
