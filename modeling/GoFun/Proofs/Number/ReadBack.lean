import GoFun.Proofs.Lex.Reread
import GoFun.Proofs.Number.Shortest
import GoFun.Proofs.Number.Underflow

/-!
# The text of a double reads back

Digits with a point, or with an exponent, are read as the number that they were written for. So the
text of a double is read as that double, and no two doubles have the same text. A double that is no
number is left out.
-/
namespace GoFun.Number

theorem ofDigits_eq (cs : List Char) : ofDigits cs = Nat.ofDigitChars 10 cs 0 := rfl

theorem ofDigits_toDigits (n : ℕ) : ofDigits (Nat.toDigits 10 n) = n :=
  Nat.ofDigitChars_ten_toDigits

theorem isDigit_of_mem_toDigits {n : ℕ} {c : Char} (h : c ∈ Nat.toDigits 10 n) :
    Lex.isDigit c = true := by
  have h := Nat.isDigit_of_mem_toDigits (by decide) (by decide) h
  simpa [Lex.isDigit, Char.isDigit, and_comm, Char.le_def] using h

theorem natural_toDigits (n : ℕ) : readExponent.natural (Nat.toDigits 10 n) = some n := by
  have hall : (Nat.toDigits 10 n).all Lex.isDigit = true :=
    List.all_eq_true.2 fun c hc => isDigit_of_mem_toDigits hc
  simp [readExponent.natural, hall, ofDigits_toDigits, Nat.toDigits_ne_nil]

/-- The first of some digits is no sign. -/
theorem toDigits_eq_cons (n : ℕ) : ∃ c cs, Nat.toDigits 10 n = c :: cs ∧ c ≠ '-' ∧ c ≠ '+' := by
  obtain ⟨c, cs, h⟩ := List.exists_cons_of_ne_nil (Nat.toDigits_ne_nil : Nat.toDigits 10 n ≠ [])
  have hc : Lex.isDigit c = true := isDigit_of_mem_toDigits (h ▸ List.mem_cons_self)
  refine ⟨c, cs, h, ?_, ?_⟩ <;> rintro rfl <;> exact absurd hc (by decide)

theorem readExponent_toString (e : ℤ) : readExponent (toString e).toList = some e := by
  rw [Int.toString_eq_repr, Int.repr_eq_if]
  split
  case isTrue he =>
    obtain ⟨c, cs, h, hminus, hplus⟩ := toDigits_eq_cons e.toNat
    have hread := natural_toDigits e.toNat
    rw [Nat.toList_repr, h, readExponent, ← h, hread]
    · simp [he]
    · simpa using hminus
    · simpa using hplus
  case isFalse he =>
    have hneg : -max (-e) 0 = e := by omega
    simp [readExponent, natural_toDigits, hneg]

theorem span_digits {ds rest : List Char} (hds : ∀ c ∈ ds, Lex.isDigit c = true)
    (hrest : Lex.Stops Lex.isDigit rest) :
    (ds ++ rest).takeWhile Lex.isDigit = ds ∧ (ds ++ rest).dropWhile Lex.isDigit = rest := by
  rw [List.takeWhile_append_of_pos hds, List.dropWhile_append_of_pos hds]
  cases rest with
  | nil => simp
  | cons c rest =>
    have hc : Lex.isDigit c = false := hrest c (by simp)
    simp [hc]

/-- A point with the digits behind it, if there are any. -/
def fraction (part : List Char) : List Char := if part.isEmpty then [] else '.' :: part

theorem isPoint_fraction (part : List Char) : IsPoint (fraction part) part := by
  cases part with
  | nil => exact .inl ⟨rfl, rfl⟩
  | cons c part => exact .inr rfl

/-- What may stand behind the digits: nothing, or a letter with an exponent. -/
def IsScale (rest : List Char) (e : ℤ) : Prop :=
  rest = [] ∧ e = 0 ∨ ∃ mark cs, rest = mark :: cs ∧ (mark = 'e' ∨ mark = 'E') ∧
    readExponent cs = some e

theorem readUnsigned_eq {whole point part rest : List Char} {e : ℤ}
    (hwhole : ∀ c ∈ whole, Lex.isDigit c = true) (hpart : ∀ c ∈ part, Lex.isDigit c = true)
    (hne : whole ++ part ≠ []) (hpoint : IsPoint point part) (hrest : IsScale rest e) :
    readUnsigned (whole ++ (point ++ rest)) =
      some (.ofDecimal (ofDigits (whole ++ part)) (e - part.length)) := by
  have hstop : Lex.Stops Lex.isDigit rest := by
    rcases hrest with ⟨rfl, -⟩ | ⟨mark, cs, rfl, rfl | rfl, -⟩ <;> simp [Lex.Stops, Lex.isDigit]
  rcases hpoint with ⟨rfl, rfl⟩ | rfl
  · obtain ⟨htake, hdrop⟩ := span_digits hwhole hstop
    rw [List.append_nil] at hne
    rw [readUnsigned, List.nil_append, htake, hdrop]
    rcases hrest with ⟨rfl, rfl⟩ | ⟨mark, cs, rfl, rfl | rfl, he⟩
    · simp [hne]
    all_goals simp [hne, he]
  · have hfraction : Lex.Stops Lex.isDigit ('.' :: part ++ rest) := by simp [Lex.Stops, Lex.isDigit]
    obtain ⟨htake, hdrop⟩ := span_digits hwhole hfraction
    obtain ⟨htake', hdrop'⟩ := span_digits hpart hstop
    rw [readUnsigned, htake, hdrop]
    simp only [List.cons_append, htake', hdrop']
    rcases hrest with ⟨rfl, rfl⟩ | ⟨mark, cs, rfl, rfl | rfl, he⟩
    · simp [hne]
    all_goals simp [hne, he]

theorem readUnsigned_split (n : ℕ) {ds rest : List Char} {e : ℤ}
    (hds : ∀ c ∈ ds, Lex.isDigit c = true) (hne : ds ≠ []) (hrest : IsScale rest e) :
    readUnsigned (ds.take n ++ (fraction (ds.drop n) ++ rest)) =
      some (.ofDecimal (ofDigits ds) (e - (ds.drop n).length)) := by
  rw [readUnsigned_eq (fun c hc => hds c (List.mem_of_mem_take hc)) (fun c hc =>
    hds c (List.mem_of_mem_drop hc))
    (by rwa [List.take_append_drop]) (isPoint_fraction _) hrest, List.take_append_drop]

namespace Double

variable {d : Double}

theorem readUnsigned_positional (p : ℕ) (t : ℤ) : ∃ q e,
    readUnsigned (positional (Nat.toDigits 10 p) t) = some (ofDecimal q e) ∧
    (q : ℚ) * 10 ^ e = p * 10 ^ t := by
  have hdigits : ∀ c ∈ Nat.toDigits 10 p, Lex.isDigit c = true :=
    fun c hc => isDigit_of_mem_toDigits hc
  have hzero : ∀ n, ∀ c ∈ List.replicate n '0', Lex.isDigit c = true := by
    intro n c hc
    rw [List.eq_of_mem_replicate hc]
    decide
  unfold positional
  split
  case isTrue ht =>
    have hread :=
      readUnsigned_eq (List.forall_mem_append.2 ⟨hdigits, hzero t.toNat⟩) (hzero 1) (by simp)
      (isPoint_fraction _) (.inl ⟨rfl, rfl⟩)
    have hvalue :
        ofDigits (Nat.toDigits 10 p ++ List.replicate t.toNat '0' ++ List.replicate 1 '0') =
        10 ^ 1 * (10 ^ t.toNat * p) := by
      rw [ofDigits_eq, Nat.ofDigitChars_append, Nat.ofDigitChars_append,
        Nat.ofDigitChars_ten_toDigits, Nat.ofDigitChars_replicate_zero,
          Nat.ofDigitChars_replicate_zero]
    refine ⟨_, _, hread, ?_⟩
    rw [hvalue, zpow_eq_div (by norm_num) t, (by omega : (-t).toNat = 0)]
    push_cast
    norm_num
    ring
  case isFalse ht =>
    simp only
    generalize hpadded : List.replicate ((-t).toNat + 1 - (Nat.toDigits 10 p).length) '0' ++
      Nat.toDigits 10 p = padded
    have hall : ∀ c ∈ padded, Lex.isDigit c = true := by
      rw [← hpadded]
      exact List.forall_mem_append.2 ⟨hzero _, hdigits⟩
    have hlength : (-t).toNat < padded.length := by
      rw [← hpadded, List.length_append, List.length_replicate]
      omega
    have hvalue : ofDigits padded = p := by
      rw [← hpadded, ofDigits_eq, Nat.ofDigitChars_append, Nat.ofDigitChars_replicate_zero,
        Nat.mul_zero, Nat.ofDigitChars_ten_toDigits]
    generalize hn : padded.length - (-t).toNat = n
    have hpart : (padded.drop n).length = (-t).toNat := by
      rw [List.length_drop]
      omega
    have hread := readUnsigned_split n hall (List.ne_nil_of_length_pos (by omega)) (.inl ⟨rfl, rfl⟩)
    have hpoint : fraction (padded.drop n) ++ [] = '.' :: padded.drop n := by
      rw [fraction, List.append_nil, if_neg]
      rw [List.isEmpty_iff_length_eq_zero, hpart]
      omega
    rw [hpoint, hvalue, hpart] at hread
    exact ⟨_, _, hread, by rw [(by omega : (0 : ℤ) - (-t).toNat = t)]⟩

theorem readUnsigned_scientific (p : ℕ) (e : ℤ) :
    readUnsigned (scientific (Nat.toDigits 10 p) e) =
      some (ofDecimal p (e - ((Nat.toDigits 10 p).length - 1 : ℕ))) := by
  have hdigits : ∀ c ∈ Nat.toDigits 10 p, Lex.isDigit c = true :=
    fun c hc => isDigit_of_mem_toDigits hc
  have hread :=
    readUnsigned_split 1 hdigits Nat.toDigits_ne_nil
      (.inr ⟨_, _, rfl, .inl rfl, readExponent_toString e⟩)
  rw [ofDigits_toDigits, List.length_drop] at hread
  rw [← hread]
  simp [scientific, fraction]

theorem readUnsigned_unsignedText (hd : 0 < d.magnitude) (hinf : d.magnitude < infinity.magnitude) :
    readUnsigned d.unsignedText = some d.abs := by
  have hnear := shortest_nears hd
  have hnan : d.isNaN = false := by simp [isNaN, hinf.le]
  have hinfinite : d.isInfinite = false := by simp [isInfinite, hinf.ne]
  simp only [unsignedText, hnan, hinfinite, beq_iff_eq, hd.ne', Bool.false_eq_true, if_false]
  generalize d.shortest = digits at hnear ⊢
  obtain ⟨p, t⟩ := digits
  simp only
  split
  · obtain ⟨q, e, hread, hvalue⟩ := readUnsigned_positional p t
    rw [hread, Nears.ofDecimal_eq (hvalue ▸ hnear) hd hinf]
  · have hlen : 0 < (Nat.toDigits 10 p).length := Nat.length_toDigits_pos
    rw [readUnsigned_scientific, (by omega : t + (Nat.toDigits 10 p).length - 1 -
      ((Nat.toDigits 10 p).length - 1 : ℕ) = t), Nears.ofDecimal_eq hnear hd hinf]

theorem unsigned_unsignedText (h : d.isNaN = false) :
    readDecimal.unsigned d.unsignedText = .ok d.abs := by
  by_cases hinf : d.isInfinite = true
  · have hmag : d.magnitude = infinity.magnitude := by simpa [isInfinite] using hinf
    simp only [unsignedText, h, hinf, if_true, Bool.false_eq_true, if_false, abs, hmag]
    rfl
  · by_cases hzero : d.magnitude = 0
    · simp only [unsignedText, h, hinf, hzero, beq_self_eq_true, if_true, Bool.false_eq_true,
        if_false, abs]
      rfl
    · have hlt : d.magnitude < infinity.magnitude := by
        simp only [isNaN, decide_eq_false_iff_not, isInfinite, beq_iff_eq] at h hinf
        omega
      rw [readDecimal.unsigned, readUnsigned_unsignedText (by omega) hlt]
      rfl

theorem readDecimal_of_unsigned {cs : List Char} (h : readDecimal.unsigned cs = .ok d) :
    readDecimal cs = .ok d := by
  have hsign : ∀ c cs, c = '-' ∨ c = '+' → readDecimal.unsigned (c :: cs) = .error .invalid := by
    rintro c cs (rfl | rfl) <;> simp [readDecimal.unsigned, readUnsigned, readSpecial, Lex.isDigit,
      String.ext_iff]
  unfold readDecimal
  split
  case h_1 => cases h
  case h_2 cs =>
    rw [hsign _ cs (.inl rfl)] at h
    cases h
  case h_3 cs =>
    rw [hsign _ cs (.inr rfl)] at h
    cases h
  case h_4 => exact h

theorem toNat_abs (d : Double) : d.abs.bits.toNat = d.bits.toNat % 2 ^ 63 := by
  simp only [abs, magnitude, Nat.toUInt64_eq, UInt64.toNat_ofNat']
  omega

theorem neg_abs (h : d.isNegative = true) : d.abs.neg = d := by
  have hle : 2 ^ 63 ≤ d.bits.toNat := by simpa [isNegative, UInt64.le_iff_toNat_le] using h
  have hlt : d.bits.toNat < 2 ^ 64 := d.bits.toNat_lt
  have hbits : d.bits.toNat % 2 ^ 63 ^^^ 2 ^ 63 = d.bits.toNat := by
    refine Nat.eq_of_testBit_eq fun i => ?_
    rw [Nat.testBit_xor, Nat.testBit_mod_two_pow, Nat.testBit_two_pow]
    rcases Nat.lt_trichotomy i 63 with hi | rfl | hi
    · simp [hi, hi.ne']
    · simp [Nat.testBit_of_two_pow_le_and_two_pow_add_one_gt hle hlt]
    · have hlast : d.bits.toNat.testBit i = false :=
        Nat.testBit_lt_two_pow (hlt.trans_le (Nat.pow_le_pow_right (by decide) hi))
      simp [hlast, hi.ne]
  refine congrArg Double.mk (UInt64.toNat_inj.1 ?_)
  rw [UInt64.toNat_xor, toNat_abs]
  exact hbits

theorem abs_eq (h : d.isNegative = false) : d.abs = d := by
  have hlt : d.bits.toNat < 2 ^ 63 := by simpa [isNegative, UInt64.le_iff_toNat_le] using h
  refine congrArg Double.mk (UInt64.toNat_inj.1 (d.toNat_abs.trans ?_))
  exact Nat.mod_eq_of_lt hlt

theorem readDecimal_text (h : d.isNaN = false) : readDecimal d.text.toList = .ok d := by
  have hread := unsigned_unsignedText h
  cases hneg : d.isNegative with
  | true => simp [text, h, hneg, readDecimal, hread, Except.map, neg_abs hneg]
  | false =>
    rw [abs_eq hneg] at hread
    simpa [text, h, hneg] using readDecimal_of_unsigned hread

theorem text_inj {d' : Double} (h : d.isNaN = false) (h' : d'.isNaN = false)
    (ht : d.text = d'.text) : d = d' := by
  have hread := readDecimal_text h
  rw [ht, readDecimal_text h'] at hread
  exact (Except.ok.inj hread).symm

section Characters

variable {c : Char} (hdigit : Lex.isDigit c = false)
include hdigit

theorem notMem_toDigits (n : ℕ) : c ∉ Nat.toDigits 10 n :=
  fun h => by simp [isDigit_of_mem_toDigits h] at hdigit

theorem notMem_toString (hc : c ≠ '-') (e : ℤ) : c ∉ (toString e).toList := by
  rw [Int.toString_eq_repr, Int.repr_eq_if]
  split <;> simp [notMem_toDigits hdigit, hc]

theorem notMem_positional (hc : c ≠ '.') {digits : List Char} (h : c ∉ digits) (t : ℤ) :
    c ∉ positional digits t := by
  have hzero : c ≠ '0' := by
    rintro rfl
    exact absurd hdigit (by decide)
  have hpadded : ∀ n, c ∉ List.replicate n '0' ++ digits := fun n => by simp [h, hzero]
  unfold positional
  split
  · simp [h, hzero, hc]
  · simp only [List.mem_append, List.mem_cons, not_or]
    exact ⟨fun hm => hpadded _ (List.mem_of_mem_take hm), hc, fun hm =>
      hpadded _ (List.mem_of_mem_drop hm)⟩

theorem notMem_scientific (hc : c ∉ ".e-".toList) {digits : List Char} (h : c ∉ digits) (e : ℤ) :
    c ∉ scientific digits e := by
  obtain ⟨hpoint, hletter, hminus⟩ : c ≠ '.' ∧ c ≠ 'e' ∧ c ≠ '-' := by simpa using hc
  have hpart : c ∉ fraction (digits.drop 1) := by
    unfold fraction
    split
    · simp
    · simp only [List.mem_cons, not_or]
      exact ⟨hpoint, fun hm => h (List.mem_of_mem_drop hm)⟩
  simp only [scientific, List.mem_append, List.mem_cons, not_or]
  exact ⟨⟨fun hm => h (List.mem_of_mem_take hm), hpart⟩, hletter, notMem_toString hdigit hminus e⟩

theorem notMem_unsignedText (hc : c ∉ ".e-infNa".toList) (d : Double) : c ∉ d.unsignedText := by
  have hzero : c ≠ '0' := by
    rintro rfl
    exact absurd hdigit (by decide)
  have hmarks : c ∉ ".e-".toList := fun h => hc (List.mem_append_left "infNa".toList h)
  simp only [String.reduceToList, List.mem_cons, List.not_mem_nil, or_false, not_or] at hc
  unfold unsignedText
  split
  · simp [hc]
  split
  · simp [hc]
  split
  · simp [hc, hzero]
  simp only
  split
  · exact notMem_positional hdigit hc.1 (notMem_toDigits hdigit _) _
  · exact notMem_scientific hdigit hmarks (notMem_toDigits hdigit _) _

theorem notMem_text (hc : c ∉ ".e-infNa".toList) (d : Double) : c ∉ d.text.toList := by
  have hunsigned := notMem_unsignedText hdigit hc d
  have hminus : c ≠ '-' := fun h => hc (by simp [h])
  rw [text, String.toList_ofList]
  split
  · simp [hunsigned, hminus]
  · exact hunsigned

end Characters

end Double

end GoFun.Number
