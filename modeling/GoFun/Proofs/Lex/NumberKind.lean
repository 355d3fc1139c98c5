import GoFun.Proofs.Lex.Number
import GoFun.Tree.Literal

/-!
# Kinds of numbers

The kind of a number is found by a search in its text. It is the kind that the number is read with:
a float has a point or an exponent in base ten, or an exponent in base sixteen.
-/
namespace GoFun.Lex

open Lexer

variable {a b : Lexer} {q : Char → Bool}

/-- What `b` takes stands behind what `a` takes. -/
def followed (a b : Lexer) (cs : List Char) : Bool := (a cs).any fun x => (b x.2).isSome

/-- The number in front of a text is read in base sixteen with an exponent, or in base ten with a
point or an exponent. The first of the four ways that fits is the one that it is read in. -/
def isScaled (cs : List Char) : Bool :=
  if (hexNumber cs).isSome then
    followed (text "0" ++ oneOf "xX" ++ hexDigits ++ opt (text "." ++ hexDigits)) binaryExponent cs
  else if (radixNumber cs).isSome then false
  else if (decimalNumber cs).isSome then
    followed (digit ++ digits) (text "." ++ digits) cs ||
      followed (digit ++ digits ++ opt (text "." ++ digits)) exponent cs
  else (fractionNumber cs).isSome

theorem followed_eq {cs t c : List Char} (h : a cs = some (t, c)) :
    followed a b cs = (b c).isSome := by
  simp [followed, h]

/-- The lexer takes none of the characters that satisfy `q`. -/
def Lacks (l : Lexer) (q : Char → Bool) : Prop := ∀ cs t r, l cs = some (t, r) → t.any q = false

theorem lacks_run {p : Char → Bool} (h : ∀ c, p c = true → q c = false) : Lacks (run p) q := by
  intro cs t r ht
  obtain ⟨rfl, rfl⟩ := result_inj ht
  exact List.any_eq_false.2 fun c hc => by simp [h c (List.all_eq_true.1 List.all_takeWhile c hc)]

theorem lacks_one {p : Char → Bool} (h : ∀ c, p c = true → q c = false) : Lacks (one p) q := by
  intro cs t r ht
  obtain ⟨c, hc, -, rfl⟩ := one_eq_some.1 ht
  simp [h c hc]

theorem lacks_text {s : String} (h : s.toList.any q = false) : Lacks (text s) q := by
  intro cs t r ht
  obtain ⟨-, rfl⟩ := text_eq_some.1 ht
  exact h

theorem Lacks.append (ha : Lacks a q) (hb : Lacks b q) : Lacks (a ++ b) q := by
  intro cs t r ht
  obtain ⟨t₁, c, t₂, h₁, h₂, rfl⟩ := append_eq_some.1 ht
  simp [List.any_append, ha _ _ _ h₁, hb _ _ _ h₂]

theorem Lacks.opt (ha : Lacks a q) : Lacks (opt a) q := by
  intro cs t r ht
  rcases opt_eq_some.1 ht with ht | ⟨-, rfl, -⟩
  · exact ha _ _ _ ht
  · rfl

/-- A part that may be left out is there when a character is found that it begins with. -/
theorem any_opt (hb : Opens b q) {cs t r : List Char} (h : opt b cs = some (t, r)) :
    t.any q = (b cs).isSome := by
  rcases opt_eq_some.1 h with h | ⟨hnone, rfl, -⟩
  · obtain ⟨c, t, rfl, hc, -⟩ := hb _ _ _ h
    simp [h, hc]
  · simp [hnone]

section Kinds

variable {cs t r : List Char}

theorem any_hexNumber (h : hexNumber cs = some (t, r)) :
    t.any ("pP".toList.contains ·) = isScaled cs := by
  have hplain : Lacks hexDigits ("pP".toList.contains ·) :=
    lacks_run (contains_eq_false (by decide))
  have hfront : Lacks (text "0" ++ oneOf "xX" ++ hexDigits ++ opt (text "." ++ hexDigits))
      ("pP".toList.contains ·) :=
    (((lacks_text (by decide)).append (lacks_one (eq_false_of_contains (by decide)))).append
      hplain).append ((lacks_text (by decide)).append hplain).opt
  obtain ⟨front, c, e, hf, he, rfl⟩ := append_eq_some.1 (Option.filter_eq_some_iff.1 h).1
  rw [isScaled, h, Option.isSome_some, if_pos rfl, followed_eq hf, List.any_append, hfront _ _ _ hf,
    any_opt (opens_exponentOf "pP") he, Bool.false_or]
  rfl

theorem any_decimalNumber (hx : hexNumber cs = none) (hr : radixNumber cs = none)
    (h : decimalNumber cs = some (t, r)) :
    t.any (".eE".toList.contains ·) = isScaled cs := by
  have hpoint : Opens (text "." ++ digits) (".eE".toList.contains ·) :=
    (opens_fractionOf _).mono (by simp +contextual)
  have hmark : Opens exponent (".eE".toList.contains ·) :=
    (opens_exponentOf "eE").mono (of_contains (by decide))
  have hplain : Lacks (digit ++ digits) (".eE".toList.contains ·) :=
    .append (lacks_one (contains_eq_false (by decide))) (lacks_run (contains_eq_false (by decide)))
  obtain ⟨_, d, e, h₁, he, rfl⟩ := append_eq_some.1 h
  obtain ⟨whole, c, point, hw, hp, rfl⟩ := append_eq_some.1 h₁
  rw [isScaled, hx, hr, h, Option.isSome_none, Option.isSome_some, if_neg (by decide),
    if_neg (by decide), if_pos rfl, followed_eq hw, followed_eq h₁, List.any_append,
      List.any_append, hplain _ _ _ hw, any_opt hpoint hp, any_opt hmark he, Bool.false_or]

theorem NoBase.baseLetter? (h : NoBase t) : LitKind.baseLetter? t = none := by
  unfold LitKind.baseLetter?
  split
  case h_1 c tail => exact if_neg (by simpa [NoBase] using h)
  case h_2 => rfl

end Kinds

/-- The kind of a number that is read is imaginary when it ends with an `i`, a float when it is read
with a point or an exponent, or in base sixteen with an exponent, and an integer otherwise. -/
theorem ofNumber_eq {cs t r : List Char} (h : number cs = some (t, r)) :
    LitKind.ofNumber t = if t.getLast? =
      some 'i' then .imag else if isScaled cs then .float else .int := by
  by_cases hlast : t.getLast? = some 'i'
  · rw [if_pos hlast, LitKind.ofNumber, if_pos (by simp [hlast])]
  rw [if_neg hlast, LitKind.ofNumber, if_neg (by simpa using hlast)]
  obtain ⟨t, c, i, hn, hi, rfl⟩ := append_eq_some.1 h
  obtain rfl : i = [] := by
    rcases opt_eq_some.1 hi with hi | ⟨-, rfl, -⟩
    · obtain ⟨-, rfl⟩ := text_eq_some.1 hi
      simp at hlast
    · rfl
  rw [List.append_nil]
  rcases orElse_eq_some.1 hn with hhex | ⟨hhex, hn⟩
  · obtain ⟨x, _, _, -, rfl, hx⟩ := hexNumber_base hhex
    have hx : x = 'x' ∨ x = 'X' := by simpa using hx
    rw [← any_hexNumber hhex]
    rcases hx with rfl | rfl <;> simp [LitKind.baseLetter?]
  rcases orElse_eq_some.1 hn with hradix | ⟨hradix, hn⟩
  · obtain ⟨x, _, _, -, rfl, hx⟩ := radixNumber_base hradix
    have hx : x = 'o' ∨ x = 'O' ∨ x = 'b' ∨ x = 'B' := by simpa using hx
    have hscaled : isScaled cs = false := by simp [isScaled, hhex, hradix]
    rw [hscaled]
    rcases hx with rfl | rfl | rfl | rfl <;> rfl
  rcases orElse_eq_some.1 hn with hdecimal | ⟨hdecimal, hfraction⟩
  · have hbase : NoBase (t ++ []) := noBase_decimalNumber hdecimal (stops_nil _)
    rw [List.append_nil] at hbase
    rw [hbase.baseLetter?, ← any_decimalNumber hhex hradix hdecimal]
    simp [or_assoc]
  · obtain ⟨c, t, rfl, hc, -⟩ := opens_fractionNumber _ _ _ hfraction
    obtain rfl : c = '.' := by simpa using hc
    have hscaled : isScaled cs = true := by simp [isScaled, hhex, hradix, hdecimal, hfraction]
    rw [hscaled]
    rfl

/-- In base sixteen an `e` is a digit, and without digits there is no exponent. -/
theorem ofNumber_hex : number "0x1Ep".toList = some ("0x1E".toList, "p".toList) ∧
    LitKind.ofNumber "0x1E".toList = .int := by
  have h : number "0x1Ep".toList = some ("0x1E".toList, "p".toList) := by decide +kernel
  exact ⟨h, (ofNumber_eq h).trans (by decide +kernel)⟩

end GoFun.Lex
