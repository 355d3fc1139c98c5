import GoFun.Fun.Lowering
import GoFun.Proofs.Lex.Number
import GoFun.Proofs.Number.ReadBack

/-!
# Floats and their readers

Every float of base ten is read as a double. In base sixteen there must be a digit in front of the
exponent, the exponent must fit 32 bits, and so must the number of bits behind the point: the
writing of numbers asks for none of this.
-/
namespace GoFun

open Lex List

variable {cs ds : List Char} {x : Char}

theorem LitKind.baseLetter?_eq_some (h : baseLetter? cs = some x) :
    ∃ tail, cs = '0' :: x :: tail ∧ x ∈ "xXoObB".toList := by
  unfold baseLetter? at h
  split at h
  case h_2 => cases h
  case h_1 c tail =>
    split at h
    case isTrue hc =>
      cases h
      exact ⟨tail, rfl, by simpa using hc⟩
    case isFalse => cases h

namespace Number

/-- A sign, which may be left out, and digits, with the number that they make. -/
inductive IsExponent : List Char → Int → Prop
  | plain {ds : List Char} (hne : ds ≠ []) (hds : ∀ c ∈ ds, Lex.isDigit c = true) : IsExponent ds
      (ofDigits ds)
  | plus {ds : List Char} (hne : ds ≠ []) (hds : ∀ c ∈ ds, Lex.isDigit c = true) : IsExponent
      ('+' :: ds) (ofDigits ds)
  | minus {ds : List Char} (hne : ds ≠ []) (hds : ∀ c ∈ ds, Lex.isDigit c = true) :
    IsExponent ('-' :: ds) (-Int.ofNat (ofDigits ds))

theorem exists_cons_of_digits (hne : ds ≠ []) (hds : ∀ c ∈ ds, isDigit c = true) :
    ∃ c cs, ds = c :: cs ∧ c ≠ '+' ∧ c ≠ '-' := by
  obtain ⟨c, cs, rfl⟩ := exists_cons_of_ne_nil hne
  have hc := hds c (.head _)
  refine ⟨c, cs, rfl, ?_, ?_⟩ <;> rintro rfl <;> exact absurd hc (by decide)

theorem natural_digits (hne : ds ≠ []) (hds : ∀ c ∈ ds, isDigit c = true) :
    readExponent.natural ds = some (ofDigits ds) :=
  if_pos (by simpa [hne] using hds)

namespace IsExponent

variable {cs : List Char} {e : Int}

theorem readExponent_eq (h : IsExponent cs e) : readExponent cs = some e := by
  cases h with
  | plain hne hds =>
    obtain ⟨c, ds, rfl, hplus, hminus⟩ := exists_cons_of_digits hne hds
    rw [readExponent, natural_digits hne hds]
    · rfl
    · simpa using hminus
    · simpa using hplus
  | plus hne hds => simp [readExponent, natural_digits hne hds]
  | minus hne hds => simp [readExponent, natural_digits hne hds]

theorem readSigned_eq_ok (h : IsExponent cs e) {r : Int} :
    readSigned 32 cs = .ok r ↔ r = e ∧ -2 ^ 31 ≤ e ∧ e < 2 ^ 31 := by
  cases h with
  | plain hne hds =>
    obtain ⟨c, ds, rfl, hplus, hminus⟩ := exists_cons_of_digits hne hds
    rw [readSigned_unsigned hplus hminus]
    grind
  | plus hne hds =>
    rw [readSigned_plus hne]
    grind
  | minus hne hds =>
    rw [readSigned_minus hne]
    grind

end IsExponent

/-- What stands between the letter for the base and the exponent. Low lines do not count. -/
def hexMantissa (text : List Char) : List Char :=
  ((text.filter (· != '_')).drop 2).takeWhile (!isMark ·)

def hexExponent (text : List Char) : List Char :=
  (((text.filter (· != '_')).drop 2).dropWhile (!isMark ·)).drop 1

/-- A number in base sixteen without a digit in front of its exponent, or with an exponent or a
number of bits behind the point that does not fit 32 bits. -/
def Unreadable (text : List Char) : Prop :=
  ('x' ∈ LitKind.baseLetter? text ∨ 'X' ∈ LitKind.baseLetter? text) ∧
    ((∀ c ∈ hexMantissa text, c = '.') ∨
      (∀ e ∈ readExponent (hexExponent text), e < -2 ^ 31 ∨ 2 ^ 31 ≤ e) ∨
      2 ^ 31 ≤ 4 * (partDigits (hexMantissa text)).length)

instance (text : List Char) : Decidable (Unreadable text) :=
  letI (cs : List Char) : Decidable (∀ c ∈ cs, c = '.') := List.decidableBAll (· = '.') cs
  inferInstanceAs (Decidable (_ ∧ _))

theorem hexOf?_cases (mantissa exponent : List Char) : hexOf? mantissa exponent = none ∨
    (∃ d, hexOf? mantissa exponent = some (.ok d)) ∨
    hexOf? mantissa exponent = some (.error .exponentRange) := by
  cases h : hexOf? mantissa exponent with
  | none => exact .inl rfl
  | some r =>
    simp only [hexOf?, Option.bind_eq_bind, Option.bind_eq_some_iff] at h
    obtain ⟨_, -, _, -, _, -, _, -, h⟩ := h
    split at h
    all_goals cases h; simp

theorem hexOf?_eq_none {mantissa exponent : List Char} {e : Int} (he : IsExponent exponent e)
    (hdigits : ∀ c ∈ wholeDigits mantissa ++ partDigits mantissa, isHexDigit c = true) :
    hexOf? mantissa exponent = none ↔ wholeDigits mantissa ++ partDigits mantissa = [] ∨
      (e < -2 ^ 31 ∨ 2 ^ 31 ≤ e) ∨ 2 ^ 31 ≤ 4 * (partDigits mantissa).length := by
  obtain ⟨values, hvalues⟩ := exists_mapM_hexValue?.2 hdigits
  by_cases hrange : -2 ^ 31 ≤ e ∧ e < 2 ^ 31
  case neg =>
    have hread : (readSigned 32 exponent).toOption = none := by
      cases hr : readSigned 32 exponent with
      | error cause => rfl
      | ok r => exact absurd (he.readSigned_eq_ok.1 hr).2 hrange
    rw [hexOf?, hread]
    exact ⟨fun _ => .inr (.inl (by omega)), fun _ => rfl⟩
  case pos =>
    have hread : readSigned 32 exponent = .ok e := he.readSigned_eq_ok.2 ⟨rfl, hrange⟩
    by_cases hne : wholeDigits mantissa ++ partDigits mantissa = []
    · have hdigit :
          (guard (!(wholeDigits mantissa ++ partDigits mantissa).isEmpty) : Option Unit) = none :=
        if_neg (by simp [hne])
      rw [hexOf?, hread, hdigit]
      exact iff_of_true rfl (.inl hne)
    · have hdigit : (guard (!(wholeDigits mantissa ++ partDigits mantissa).isEmpty) : Option Unit) =
          some () :=
        if_pos (by simpa using hne)
      rw [hexOf?, hread, hdigit, hvalues]
      by_cases hpart : 4 * (partDigits mantissa).length < 2 ^ 31
      · have hshort : (guard (4 * (partDigits mantissa).length < 2 ^ 31) : Option Unit) = some () :=
          if_pos hpart
        rw [hshort]
        exact iff_of_false (Option.some_ne_none _) (by simp only [hne, false_or]; omega)
      · have hlong : (guard (4 * (partDigits mantissa).length < 2 ^ 31) : Option Unit) = none :=
          if_neg hpart
        rw [hlong]
        exact iff_of_true rfl (.inr (.inr (Nat.not_lt.1 hpart)))

end Number

namespace Lex

open Lexer Number

variable {t r : List Char}

theorem filter_run {p : Char → Bool} (h : run (fun c => p c || c == '_') cs = some (t, r)) :
    ∀ c ∈ t.filter (· != '_'), p c = true := by
  obtain ⟨rfl, -⟩ := result_inj h
  intro c hc
  obtain ⟨hmem, hne⟩ := mem_filter.1 hc
  have htake := all_eq_true.1 all_takeWhile c hmem
  simpa [bne_iff_ne.1 hne] using htake

theorem isDigit_ne_low {c : Char} (h : isDigit c = true) : (c != '_') = true := by
  rw [bne_iff_ne]
  rintro rfl
  exact absurd h (by decide)

theorem filter_digit (h : (digit ++ digits) cs = some (t, r)) :
    t.filter (· != '_') ≠ [] ∧ ∀ c ∈ t.filter (· != '_'), isDigit c = true := by
  obtain ⟨_, _, ds, hd, hds, rfl⟩ := append_eq_some.1 h
  obtain ⟨d, hdigit, -, rfl⟩ := one_eq_some.1 hd
  have hfilter :
      ([d] ++ ds).filter (· != '_') = d :: ds.filter (· != '_') := by simp [isDigit_ne_low hdigit]
  rw [hfilter]
  exact ⟨by simp, forall_mem_cons.2 ⟨hdigit, filter_run hds⟩⟩

theorem filter_point {p : Char → Bool}
    (h : opt (text "." ++ run fun c => p c || c == '_') cs = some (t, r)) :
    ∃ part, IsPoint (t.filter (· != '_')) part ∧ ∀ c ∈ part, p c = true := by
  rcases opt_eq_some.1 h with h | ⟨-, rfl, -⟩
  · obtain ⟨_, _, ds, hpoint, hds, rfl⟩ := append_eq_some.1 h
    obtain ⟨-, rfl⟩ := text_eq_some.1 hpoint
    exact ⟨_, .inr (by simp), filter_run hds⟩
  · exact ⟨[], .inl ⟨rfl, rfl⟩, by simp⟩

theorem filter_exponent {s : String} (hs : '_' ∉ s.toList)
    (h : opt (oneOf s ++ opt (oneOf "+-") ++ digit ++ digits) cs = some (t, r)) :
    t.filter (· != '_') = [] ∨ ∃ mark ds e, t.filter (· != '_') = mark :: ds ∧ mark ∈ s.toList ∧
    IsExponent ds e := by
  rcases opt_eq_some.1 h with h | ⟨-, rfl, -⟩
  case inr => exact .inl rfl
  obtain ⟨_, _, ds, h₁, hds, rfl⟩ := append_eq_some.1 h
  obtain ⟨_, _, _, h₂, hd, rfl⟩ := append_eq_some.1 h₁
  obtain ⟨_, _, sign, hm, hsign, rfl⟩ := append_eq_some.1 h₂
  obtain ⟨d, hdigit, -, rfl⟩ := one_eq_some.1 hd
  obtain ⟨mark, hmark, -, rfl⟩ := one_eq_some.1 hm
  have hmark : mark ∈ s.toList := by simpa using hmark
  have hlow : (mark != '_') = true := by
    rw [bne_iff_ne]
    rintro rfl
    exact hs hmark
  have hall : ∀ c ∈ d :: ds.filter (· != '_'), isDigit c = true :=
    forall_mem_cons.2 ⟨hdigit, filter_run hds⟩
  have hne : d :: ds.filter (· != '_') ≠ [] := by simp
  have hdlow := isDigit_ne_low hdigit
  refine .inr ⟨mark, sign.filter (· != '_') ++ d :: ds.filter (· != '_'), ?_⟩
  rcases opt_eq_some.1 hsign with hsign | ⟨-, rfl, -⟩
  · obtain ⟨c, hc, -, rfl⟩ := one_eq_some.1 hsign
    have hc : c = '+' ∨ c = '-' := by simpa using hc
    rcases hc with rfl | rfl
    · exact ⟨_, by simp [hlow, hdlow], hmark, .plus hne hall⟩
    · exact ⟨_, by simp [hlow, hdlow], hmark, .minus hne hall⟩
  · exact ⟨_, by simp [hlow, hdlow], hmark, .plain hne hall⟩

/-- A number of base ten without its low lines is digits, maybe with a point, and maybe an
exponent. -/
theorem decimal_shape (h : (decimalNumber <|> fractionNumber) cs = some (t, r)) :
    ∃ whole point part rest e, t.filter (· != '_') = whole ++ (point ++ rest) ∧
    (∀ c ∈ whole, isDigit c = true) ∧
      (∀ c ∈ part, isDigit c = true) ∧ whole ++ part ≠ [] ∧ IsPoint point part ∧
      IsScale rest e := by
  have hscale : ∀ {cs t r : List Char}, opt exponent cs = some (t, r) → ∃ e,
      IsScale (t.filter (· != '_')) e := by
    intro cs t r h
    rcases filter_exponent (by decide) h with h | ⟨mark, ds, e, h, hmark, he⟩
    · exact ⟨0, .inl ⟨h, rfl⟩⟩
    · exact ⟨e, .inr ⟨mark, ds, h, by simpa using hmark, he.readExponent_eq⟩⟩
  rcases orElse_eq_some.1 h with h | ⟨-, h⟩
  · obtain ⟨_, _, tail, h₁, htail, rfl⟩ := append_eq_some.1 h
    obtain ⟨whole, _, point, hwhole, hpoint, rfl⟩ := append_eq_some.1 h₁
    obtain ⟨e, he⟩ := hscale htail
    obtain ⟨hne, hdigits⟩ := filter_digit hwhole
    obtain ⟨part, hpart, hpartDigits⟩ := filter_point hpoint
    exact ⟨_, _, part, _, e, by simp, hdigits, hpartDigits, by simp [hne], hpart, he⟩
  · obtain ⟨_, _, tail, h₁, htail, rfl⟩ := append_eq_some.1 h
    obtain ⟨_, _, ds, h₂, hds, rfl⟩ := append_eq_some.1 h₁
    obtain ⟨_, _, _, hpoint, hd, rfl⟩ := append_eq_some.1 h₂
    obtain ⟨-, rfl⟩ := text_eq_some.1 hpoint
    obtain ⟨d, hdigit, -, rfl⟩ := one_eq_some.1 hd
    obtain ⟨e, he⟩ := hscale htail
    exact ⟨[], _, d :: ds.filter (· != '_'), _, e, by simp [isDigit_ne_low hdigit], by simp,
      forall_mem_cons.2 ⟨hdigit, filter_run hds⟩, by simp, .inr rfl, he⟩

theorem hex_shape (h : hexNumber cs = some (t, r)) :
    ∃ x whole point part tail, t.filter (· != '_') = '0' :: x :: (whole ++ (point ++ tail)) ∧
    (x = 'x' ∨ x = 'X') ∧
      (∃ t', t = '0' :: x :: t') ∧ (∀ c ∈ whole ++ part, isHexDigit c = true) ∧ IsPoint point part ∧
      (tail = [] ∨ ∃ mark ds e, tail = mark :: ds ∧ isMark mark = true ∧ IsExponent ds e) := by
  obtain ⟨h, -⟩ := Option.filter_eq_some_iff.1 h
  obtain ⟨_, _, tail, h₁, htail, rfl⟩ := append_eq_some.1 h
  obtain ⟨_, _, point, h₂, hpoint, rfl⟩ := append_eq_some.1 h₁
  obtain ⟨_, _, whole, h₃, hwhole, rfl⟩ := append_eq_some.1 h₂
  obtain ⟨_, _, _, hzero, hletter, rfl⟩ := append_eq_some.1 h₃
  obtain ⟨-, rfl⟩ := text_eq_some.1 hzero
  obtain ⟨x, hx, -, rfl⟩ := one_eq_some.1 hletter
  have hx : x = 'x' ∨ x = 'X' := by simpa using hx
  obtain ⟨part, hpart, hpartDigits⟩ := filter_point hpoint
  refine ⟨x, whole.filter (· != '_'), point.filter (· != '_'), part, tail.filter (· != '_'), ?_, hx,
    ⟨_, rfl⟩, forall_mem_append.2 ⟨filter_run hwhole, hpartDigits⟩, hpart, ?_⟩
  · rcases hx with rfl | rfl <;> simp
  · rcases filter_exponent (by decide) htail with htail | ⟨mark, ds, e, htail, hmark, he⟩
    · exact .inl htail
    · exact .inr ⟨mark, ds, e, htail, by simpa [isMark] using hmark, he⟩

end Lex

namespace Number

variable {whole point part : List Char}

theorem readUnsigned_base (hx : x = 'x' ∨ x = 'X') (cs : List Char) :
    readUnsigned ('0' :: x :: cs) = none := by
  rcases hx with rfl | rfl <;> simp [readUnsigned, isDigit]

theorem readDouble_of_unsigned {text : List Char} {d : Double}
    (h : readUnsigned (text.filter (· != '_')) = some d) :
    readDouble text = .ok d := by
  unfold readDouble
  split
  case h_1 hex he | h_2 hex he =>
    rw [he, readUnsigned_base (by simp)] at h
    cases h
  case h_3 => exact Double.readDecimal_of_unsigned (by rw [readDecimal.unsigned, h]; rfl)

theorem not_unreadable_of_unsigned {text : List Char} {d : Double}
    (h : readUnsigned (text.filter (· != '_')) = some d) :
    ¬ Unreadable text := by
  have hbase : ∀ x, x = 'x' ∨ x = 'X' → LitKind.baseLetter? text ≠ some x := by
    rintro x hx hletter
    obtain ⟨tail, rfl, -⟩ := LitKind.baseLetter?_eq_some hletter
    have hfilter : ('0' :: x :: tail).filter (· != '_') = '0' :: x :: tail.filter (· != '_') := by
      rcases hx with rfl | rfl <;> simp
    rw [hfilter, readUnsigned_base hx] at h
    cases h
  rintro ⟨hletter | hletter, -⟩
  · exact hbase 'x' (.inl rfl) hletter
  · exact hbase 'X' (.inr rfl) hletter

theorem mantissa_plain (hdigits : ∀ c ∈ whole ++ part, isHexDigit c = true)
    (hpoint : IsPoint point part) :
    ∀ c ∈ whole ++ point, isMark c = false := by
  obtain ⟨hwhole, hpart⟩ := forall_mem_append.1 hdigits
  refine forall_mem_append.2 ⟨fun c hc => (isHexDigit_plain (hwhole c hc)).1, ?_⟩
  rcases hpoint with ⟨rfl, -⟩ | rfl
  · simp
  · exact forall_mem_cons.2 ⟨rfl, fun c hc => (isHexDigit_plain (hpart c hc)).1⟩

theorem readDouble_hex {text : List Char} {mark : Char}
    (htext : text.filter (· != '_') = '0' :: x :: (whole ++ (point ++ mark :: ds)))
    (hx : x = 'x' ∨ x = 'X') (hdigits : ∀ c ∈ whole ++ part, isHexDigit c = true)
    (hpoint : IsPoint point part) (hmark : isMark mark = true) :
    readDouble text = (hexOf? (whole ++ point) ds).getD (.error .invalid) ∧
      hexMantissa text = whole ++ point ∧ hexExponent text = ds := by
  have hplain := mantissa_plain hdigits hpoint
  have hnot : ∀ c ∈ whole ++ point, (!isMark c) = true := fun c hc => by rw [hplain c hc]; rfl
  rw [← append_assoc] at htext
  refine ⟨?_, ?_, ?_⟩
  · have hread : readHex? (whole ++ point ++ mark :: ds) = _ := readHex?_append hplain hmark
    unfold readDouble
    rw [htext]
    rcases hx with rfl | rfl <;> simp only [hread]
  · rw [hexMantissa, htext, drop_succ_cons, drop_succ_cons, drop_zero,
      takeWhile_append_of_pos hnot]
    simp [hmark]
  · rw [hexExponent, htext, drop_succ_cons, drop_succ_cons, drop_zero,
      dropWhile_append_of_pos hnot]
    simp [hmark]

theorem readDouble_hex_eq_invalid {text : List Char} {mark : Char} {e : Int}
    (htext : text.filter (· != '_') = '0' :: x :: (whole ++ (point ++ mark :: ds)))
    (hx : x = 'x' ∨ x = 'X') (hletter : LitKind.baseLetter? text = some x)
    (hdigits : ∀ c ∈ whole ++ part, isHexDigit c = true) (hpoint : IsPoint point part)
    (hmark : isMark mark = true) (he : IsExponent ds e) :
    readDouble text = .error .invalid ↔ Unreadable text := by
  obtain ⟨hread, hmantissa, hexponent⟩ := readDouble_hex htext hx hdigits hpoint hmark
  have hwhole : ∀ c ∈ whole, c ≠ '.' := fun c hc => (isHexDigit_plain (hdigits c (by simp [hc]))).2
  obtain ⟨hfront, hback⟩ := mantissa_split hwhole hpoint
  have hall : ∀ c ∈ wholeDigits (whole ++ point) ++ partDigits (whole ++ point),
      isHexDigit c = true := by
    rwa [hfront, hback]
  have hnone := hexOf?_eq_none he hall
  rw [hfront, hback] at hnone
  have hempty : (∀ c ∈ whole ++ point, c = '.') ↔ whole ++ part = [] := by
    constructor
    · intro h
      refine eq_nil_iff_forall_not_mem.2 fun c hc => (isHexDigit_plain (hdigits c hc)).2 (h c ?_)
      rcases mem_append.1 hc with hc | hc
      · exact mem_append_left _ hc
      · rcases hpoint with ⟨-, rfl⟩ | rfl
        · cases hc
        · exact mem_append_right _ (.tail _ hc)
    · intro h
      obtain ⟨rfl, rfl⟩ := append_eq_nil_iff.1 h
      rcases hpoint with ⟨rfl, -⟩ | rfl <;> simp
  have hinvalid : (hexOf? (whole ++ point) ds).getD (.error .invalid) = .error .invalid ↔
      hexOf? (whole ++ point) ds = none := by
    rcases hexOf?_cases (whole ++ point) ds with h | ⟨d, h⟩ | h <;> simp [h]
  rw [hread, hinvalid, hnone, Unreadable, hmantissa, hexponent, hback, hempty, he.readExponent_eq]
  rcases hx with rfl | rfl <;> simp [hletter]

/-- A float with a letter for its base is one of base sixteen with an exponent. -/
theorem mark_of_float {text : List Char} (hk : LitKind.ofNumber text = .float)
    (hx : LitKind.baseLetter? text = some x) :
    (x = 'x' ∨ x = 'X') ∧ ∃ c ∈ text, isMark c = true := by
  unfold LitKind.ofNumber at hk
  split at hk
  · cases hk
  · simp only [hx] at hk
    split at hk
    case isTrue h =>
      simp only [Bool.and_eq_true, Bool.or_eq_true, beq_iff_eq, any_eq_true] at h
      simpa [isMark] using h
    case isFalse => cases hk

/-- A float of base ten is read, and one of base sixteen fails in two ways. -/
theorem readDouble_of_float {text rest : List Char} (h : number cs = some (text, rest))
    (hk : LitKind.ofNumber text = .float) : (readDouble text = .error .invalid ↔ Unreadable text) ∧
      (readDouble text = .error .invalid ∨ readDouble text = .error .exponentRange ∨ ∃ d,
      readDouble text = .ok d) := by
  obtain ⟨t, _, i, hnumber, hi, rfl⟩ := append_eq_some.1 h
  obtain rfl : i = [] := by
    rcases opt_eq_some.1 hi with hi | ⟨-, rfl, -⟩
    · obtain ⟨-, rfl⟩ := text_eq_some.1 hi
      rw [LitKind.ofNumber, if_pos (by simp)] at hk
      cases hk
    · rfl
  rw [append_nil] at hk ⊢
  rcases orElse_eq_some.1 hnumber with hhex | ⟨-, hnumber⟩
  · obtain ⟨x, whole, point, part, tail, htext, hx, ⟨t, rfl⟩, hdigits, hpoint, htail⟩ :=
      hex_shape hhex
    have hletter : LitKind.baseLetter? ('0' :: x :: t) = some x := by
      rcases hx with rfl | rfl <;> rfl
    rcases htail with rfl | ⟨mark, ds, e, rfl, hmark, he⟩
    · -- without an exponent there is no mark of one
      obtain ⟨-, c, hc, hmark⟩ := mark_of_float hk hletter
      have hmem : c ∈ ('0' :: x :: t).filter (· != '_') := mem_filter.2 ⟨hc, by
        rw [bne_iff_ne]
        rintro rfl
        exact absurd hmark (by decide)⟩
      rw [htext, append_nil, mem_cons, mem_cons] at hmem
      rcases hmem with rfl | rfl | hmem
      · cases hmark
      · rcases hx with rfl | rfl <;> cases hmark
      · rw [mantissa_plain hdigits hpoint c hmem] at hmark
        cases hmark
    · refine ⟨readDouble_hex_eq_invalid htext hx hletter hdigits hpoint hmark he, ?_⟩
      rw [(readDouble_hex htext hx hdigits hpoint hmark).1]
      rcases hexOf?_cases (whole ++ point) ds with h | ⟨d, h⟩ | h <;> simp [h]
  rcases orElse_eq_some.1 hnumber with hradix | ⟨-, hdecimal⟩
  · obtain ⟨x, _, _, -, rfl, hx⟩ := radixNumber_base hradix
    have hx : x = 'o' ∨ x = 'O' ∨ x = 'b' ∨ x = 'B' := by simpa using hx
    rcases hx with rfl | rfl | rfl | rfl <;> exact absurd (mark_of_float hk rfl).1 (by decide)
  · obtain ⟨whole, point, part, rest, e, htext, hwhole, hpart, hne, hpoint, hrest⟩ :=
      decimal_shape hdecimal
    have hread := readUnsigned_eq hwhole hpart hne hpoint hrest
    rw [← htext] at hread
    have hok := readDouble_of_unsigned hread
    rw [hok]
    exact ⟨iff_of_false (by simp) (not_unreadable_of_unsigned hread), .inr (.inr ⟨_, rfl⟩)⟩

end Number

namespace Fun

theorem lowerExpr_of_float {text : List Char} (hk : LitKind.ofNumber text = .float) (c : Config)
    (pos : Pos) :
    lowerExpr c (.lit ⟨pos, LitKind.ofNumber text, String.ofList text⟩) =
      ((Number.readDouble text).map Expr.double).mapError Failure.double := by
  rw [lowerExpr, lowerLiteral, hk, String.toList_ofList]

/-- A float that is read from a source is lowered to a double, with two exceptions in base sixteen.
It is no float at all exactly when there is no digit in front of its exponent or when the exponent
or the number of bits behind the point does not fit 32 bits; and the exponent can leave its range
when the bits behind the point are taken off. -/
theorem lowerExpr_float {cs text rest : List Char} (h : Lex.number cs = some (text, rest))
    (hk : LitKind.ofNumber text = .float) (c : Config) (pos : Pos) :
    (lowerExpr c (.lit ⟨pos, LitKind.ofNumber text, String.ofList text⟩) =
      .error (.double .invalid) ↔ Number.Unreadable text) ∧
    (lowerExpr c (.lit ⟨pos, LitKind.ofNumber text, String.ofList text⟩) =
      .error (.double .exponentRange) ↔ Number.Underflows text) ∧
    ((∃ d, lowerExpr c (.lit ⟨pos, LitKind.ofNumber text, String.ofList text⟩) = .ok (.double d)) ↔
      ¬ Number.Unreadable text ∧ ¬ Number.Underflows text) := by
  obtain ⟨hinvalid, hcases⟩ := Number.readDouble_of_float h hk
  rw [← hinvalid, ← Number.readDouble_eq_range, lowerExpr_of_float hk]
  rcases hcases with h | h | ⟨d, h⟩ <;> simp [h, Except.map, Except.mapError]

/-- A low line behind the letter, and a sign in the exponent. -/
theorem lowerExpr_sixteen : Lex.number "0x_1p+4".toList = some ("0x_1p+4".toList, []) ∧
    LitKind.ofNumber "0x_1p+4".toList = .float ∧
    ∃ d, lowerExpr {} (.lit ⟨none, LitKind.ofNumber "0x_1p+4".toList,
      String.ofList "0x_1p+4".toList⟩) =
      .ok (.double d) := by
  have hread : Lex.number "0x_1p+4".toList = some ("0x_1p+4".toList, []) := by decide +kernel
  have hkind : LitKind.ofNumber "0x_1p+4".toList = .float := by decide +kernel
  have hrange : ¬ Number.Underflows "0x_1p+4".toList := by
    rintro ⟨x, whole, part, mark, ds, htext, -⟩
    have hpoint : '.' ∈ "0x_1p+4".toList.filter (· != '_') := by
      rw [htext]
      simp
    exact absurd hpoint (by decide +kernel)
  exact ⟨hread, hkind, (lowerExpr_float hread hkind {} none).2.2.2 ⟨by decide +kernel, hrange⟩⟩

/-- An exponent that does not fit is written as a float and is not read. -/
theorem lowerExpr_unreadable :
    Lex.number "0x1p2147483648".toList = some ("0x1p2147483648".toList, []) ∧
    LitKind.ofNumber "0x1p2147483648".toList = .float ∧
    lowerExpr {} (.lit ⟨none, LitKind.ofNumber "0x1p2147483648".toList,
      String.ofList "0x1p2147483648".toList⟩) =
      .error (.double .invalid) := by
  have hread :
      Lex.number "0x1p2147483648".toList = some ("0x1p2147483648".toList, []) := by decide +kernel
  have hkind : LitKind.ofNumber "0x1p2147483648".toList = .float := by decide +kernel
  refine ⟨hread, hkind, ?_⟩
  rw [lowerExpr_of_float hkind, (Number.readDouble_of_float hread hkind).1.2 (by decide +kernel)]
  rfl

end Fun

end GoFun
