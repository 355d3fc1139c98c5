import GoFun.Fun.Lowering
import GoFun.Proofs.Lex.Number
import GoFun.Proofs.Number.Underflow

/-!
# Integers and their values

An integer of the source language is written in base ten, or with a letter for its base, or in base
eight with a leading zero; low lines do not count. Lowering knows base ten only. So an integer with
a letter or a low line has no Fun form, and the value of another one is kept unless a leading zero
hides more than one digit.
-/
namespace GoFun

variable {c : Char} {cs : List Char}

namespace Number

variable {n : Nat}

def valueIn (base : Nat) (digits : List Nat) : Nat := digits.foldl (fun n d => base * n + d) 0

/-- The base of an integer without low lines, and its digits. -/
def baseAndDigits : List Char → Nat × List Char
  | '0' :: c :: cs =>
    if c = 'x' ∨ c = 'X' then (16, cs)
    else if c = 'o' ∨ c = 'O' then (8, cs)
    else if c = 'b' ∨ c = 'B' then (2, cs)
    else (8, c :: cs)
  | cs => (10, cs)

/-- The value of an integer in the source language. Nothing when a digit does not fit the base, or
when there is none. -/
def sourceValue? (text : List Char) : Option Nat := do
  let (base, cs) := baseAndDigits (text.filter (· != '_'))
  let digits ← cs.mapM hexValue?
  guard (digits ≠ [] ∧ ∀ d ∈ digits, d < base)
  return valueIn base digits

theorem octal_lt_decimal {m : Nat} (h : n < m) (ds : List Nat) :
    ds.foldl (fun n d => 8 * n + d) n < ds.foldl (fun n d => 10 * n + d) m := by
  induction ds generalizing n m with
  | nil => exact h
  | cons d ds ih => exact ih (Nat.add_lt_add_right (by omega) d)

theorem octal_eq_decimal_iff (n : Nat) (ds : List Nat) :
    ds.foldl (fun n d => 8 * n + d) n = ds.foldl (fun n d => 10 * n + d) n ↔
      ds = [] ∨ n = 0 ∧ ∀ d ∈ ds.dropLast, d = 0 := by
  induction ds generalizing n with
  | nil => simp
  | cons d ds ih =>
    rcases Nat.eq_zero_or_pos n with rfl | hn
    · cases ds with
      | nil => simp
      | cons e es => simpa using ih d
    · have hlt := octal_lt_decimal (n := 8 * n + d) (m := 10 * n + d) (by omega) ds
      simp [Nat.ne_of_lt hlt, Nat.ne_of_gt hn]

theorem isDigit_toNat (h : Lex.isDigit c = true) : 48 ≤ c.toNat ∧ c.toNat ≤ 57 := by
  simpa [Lex.isDigit, Char.le_def, UInt32.le_iff_toNat_le] using h

theorem mapM_hexValue?_digits (h : ∀ c ∈ cs, Lex.isDigit c = true) :
    cs.mapM hexValue? = some (cs.map digitValue) := by
  induction cs with
  | nil => rfl
  | cons c cs ih =>
    rw [List.forall_mem_cons] at h
    simp [List.mapM_cons, hexValue?, h.1, ih h.2]

theorem ofDigits_eq_valueIn (cs : List Char) : ofDigits cs = valueIn 10 (cs.map digitValue) :=
  List.foldl_map.symm

theorem digitValue_eq_zero (h : Lex.isDigit c = true) : digitValue c = 0 ↔ c = '0' := by
  have hc := isDigit_toNat h
  rw [← Char.toNat_inj, digitValue]
  simp only [Char.reduceToNat]
  omega

theorem digitValue_lt_eight (h : Lex.isDigit c = true) : digitValue c < 8 ↔ c ≠ '8' ∧ c ≠ '9' := by
  have hc := isDigit_toNat h
  simp only [ne_eq, ← Char.toNat_inj, digitValue, Char.reduceToNat]
  omega

theorem sourceValue?_of_digits {text : List Char} {base : Nat}
    (h : ∀ c ∈ text, Lex.isDigit c = true) (hbase : baseAndDigits text = (base, cs)) (hne : cs ≠ [])
    (hcs : ∀ c ∈ cs, Lex.isDigit c = true) :
    sourceValue? text = some n ↔ (∀ c ∈ cs, digitValue c < base) ∧
    valueIn base (cs.map digitValue) = n := by
  have hfilter : text.filter (· != '_') = text := by
    refine List.filter_eq_self.2 fun c hc => ?_
    rw [bne_iff_ne]
    rintro rfl
    exact absurd (h _ hc) (by decide)
  have hguard : (cs.map digitValue ≠ [] ∧ ∀ d ∈ cs.map digitValue, d < base) ↔ ∀ c ∈ cs,
      digitValue c < base := by
    simp [hne]
  simp only [sourceValue?, hfilter, hbase, mapM_hexValue?_digits hcs, Option.bind_eq_bind,
    Option.bind_some]
  by_cases hfit : ∀ c ∈ cs, digitValue c < base
  · have hpass :
        (guard (cs.map digitValue ≠ [] ∧ ∀ d ∈ cs.map digitValue, d < base) : Option Unit) =
          some () :=
      if_pos (hguard.2 hfit)
    rw [hpass]
    exact ⟨fun h => ⟨hfit, Option.some.inj h⟩, fun h => congrArg some h.2⟩
  · have hstop :
        (guard (cs.map digitValue ≠ [] ∧ ∀ d ∈ cs.map digitValue, d < base) : Option Unit) = none :=
      if_neg fun h => hfit (hguard.1 h)
    rw [hstop]
    exact ⟨fun h => (by cases h), fun h => absurd h.1 hfit⟩

theorem sourceValue?_eq_ofDigits {text : List Char} (hne : text ≠ [])
    (h : ∀ c ∈ text, Lex.isDigit c = true) :
    sourceValue? text = some (ofDigits text) ↔
      text.head? ≠ some '0' ∨ (∀ c ∈ text.dropLast, c = '0') ∧ ∀ c ∈ text, c ≠ '8' ∧ c ≠ '9' := by
  have hdecimal : baseAndDigits text = (10, text) → sourceValue? text = some (ofDigits text) :=
    fun hbase => by
    refine (sourceValue?_of_digits h hbase hne h).2
      ⟨fun c hc => ?_, (ofDigits_eq_valueIn text).symm⟩
    have := isDigit_toNat (h c hc)
    simp only [digitValue, Char.reduceToNat]
    omega
  obtain ⟨c, cs, rfl⟩ := List.exists_cons_of_ne_nil hne
  by_cases hc : c = '0'
  case neg =>
    have hbase : baseAndDigits (c :: cs) = (10, c :: cs) := by
      rw [baseAndDigits]
      rintro d ds ⟨⟩
      exact hc rfl
    simp [hdecimal hbase, hc]
  case pos =>
    subst hc
    cases cs with
    | nil => simpa using hdecimal rfl
    | cons d ds =>
      have hds : ∀ c ∈ d :: ds, Lex.isDigit c = true := fun c hc => h c (.tail _ hc)
      have hbase : baseAndDigits ('0' :: d :: ds) = (8, d :: ds) := by
        have hletter : ∀ x, Lex.isDigit x = false → d ≠ x := fun x hx he => by
          rw [← he, hds d (.head _)] at hx
          cases hx
        simp [baseAndDigits, hletter 'x' rfl, hletter 'X' rfl, hletter 'o' rfl, hletter 'O' rfl,
          hletter 'b' rfl, hletter 'B' rfl]
      have hvalue : valueIn 8 ((d :: ds).map digitValue) = ofDigits ('0' :: d :: ds) ↔
          ∀ c ∈ (d :: ds).dropLast, c = '0' := by
        rw [ofDigits_eq_valueIn]
        refine (octal_eq_decimal_iff 0 _).trans ?_
        simp only [List.map_eq_nil_iff, reduceCtorEq, false_or, true_and, ← List.map_dropLast,
          List.forall_mem_map]
        exact forall₂_congr fun c hc => digitValue_eq_zero (hds c (List.dropLast_subset _ hc))
      have hfit : (∀ c ∈ d :: ds, digitValue c < 8) ↔ ∀ c ∈ d :: ds, c ≠ '8' ∧ c ≠ '9' :=
        forall₂_congr fun c hc => digitValue_lt_eight (hds c hc)
      rw [sourceValue?_of_digits h hbase (by simp) hds, hfit, hvalue, and_comm]
      simp

end Number

namespace Fun

variable {v : Int64}

theorem readInt64_eq_ok (hplus : c ≠ '+') (hminus : c ≠ '-') : Number.readInt64 (c :: cs) = .ok v ↔
      (∀ d ∈ c :: cs, Lex.isDigit d = true) ∧ v.toInt = Number.ofDigits (c :: cs) := by
  constructor
  · intro h
    cases he : Number.readSigned 64 (c :: cs) with
    | error cause =>
      rw [Number.readInt64, he] at h
      cases h
    | ok e =>
      rw [Number.readInt64, he] at h
      cases h
      obtain ⟨hdigits, rfl, hle⟩ := (Number.readSigned_unsigned hplus hminus).1 he
      exact ⟨hdigits, Int64.toInt_ofInt_of_le (by omega) (by omega)⟩
  · rintro ⟨hdigits, hv⟩
    have hlt := v.toInt_lt
    have hread : Number.readSigned 64 (c :: cs) = .ok v.toInt :=
      (Number.readSigned_unsigned hplus hminus).2 ⟨hdigits, hv, by omega⟩
    rw [Number.readInt64, hread]
    exact congrArg Except.ok v.ofInt_toInt

theorem lowerLiteral_int {c : Config} {l : Literal} (hk : l.kind = .int) :
    lowerLiteral c l = .ok (.int v) ↔ Number.readInt64 l.text.toList = .ok v := by
  simp only [lowerLiteral, hk]
  cases Number.readInt64 l.text.toList <;> simp [Except.map, Except.mapError]

/-- An integer that is read from a source has a Fun form exactly when it is written with digits
alone and fits 64 bits, and the form is its value in base ten. That is the value that the source
language gives it unless it is written with a leading zero; then it is, exactly when all digits but
the last are zeros and the last one is a digit of base eight. -/
theorem lowerExpr_integer {cs text rest : List Char} (h : Lex.number cs = some (text, rest))
    (hk : LitKind.ofNumber text = .int) (c : Config) (pos : Pos) (v : Int64) :
    (lowerExpr c (.lit ⟨pos, LitKind.ofNumber text, String.ofList text⟩) = .ok (.int v) ↔
      (∀ d ∈ text, Lex.isDigit d = true) ∧ v.toInt = Number.ofDigits text) ∧
    (lowerExpr c (.lit ⟨pos, LitKind.ofNumber text, String.ofList text⟩) = .ok (.int v) →
      ((∃ n : Nat, Number.sourceValue? text = some n ∧ v.toInt = n) ↔
        text.head? ≠ some '0' ∨ (∀ d ∈ text.dropLast, d = '0') ∧ ∀ d ∈ text, d ≠ '8' ∧ d ≠
        '9')) := by
  obtain ⟨d, ds, rfl, hd, -⟩ := Lex.opens_number _ _ _ h
  have hsign : ∀ x, (Lex.isDigit x || x == '.') = false → d ≠ x := fun x hx he => by
    subst he
    exact Bool.false_ne_true (hx.symm.trans hd)
  have hlower :
      lowerExpr c (.lit ⟨pos, LitKind.ofNumber (d :: ds), String.ofList (d :: ds)⟩) = .ok (.int v) ↔
      (∀ x ∈ d :: ds, Lex.isDigit x = true) ∧ v.toInt = Number.ofDigits (d :: ds) := by
    rw [lowerExpr, lowerLiteral_int hk, String.toList_ofList]
    exact readInt64_eq_ok (hsign '+' rfl) (hsign '-' rfl)
  refine ⟨hlower, fun hv => ?_⟩
  obtain ⟨hdigits, hv⟩ := hlower.1 hv
  rw [← Number.sourceValue?_eq_ofDigits (List.cons_ne_nil d ds) hdigits, hv]
  constructor
  · rintro ⟨n, hn, he⟩
    rw [hn, Int.ofNat_inj.1 he]
  · exact fun hn => ⟨_, hn, rfl⟩

/-- A leading zero in front of one digit. -/
theorem lowerExpr_seven :
    Lex.number "007".toList = some ("007".toList, []) ∧ LitKind.ofNumber "007".toList = .int ∧
    lowerExpr {} (.lit ⟨none, LitKind.ofNumber "007".toList, String.ofList "007".toList⟩) =
      .ok (.int 7) ∧
    ∃ n : Nat, Number.sourceValue? "007".toList = some n ∧ (7 : Int64).toInt = n := by
  have hread : Lex.number "007".toList = some ("007".toList, []) := by decide +kernel
  have hkind : LitKind.ofNumber "007".toList = .int := by decide +kernel
  obtain ⟨hiff, hvalue⟩ := lowerExpr_integer hread hkind {} none 7
  have hlower := hiff.2 ⟨List.all_eq_true.1 (by decide +kernel), by decide +kernel⟩
  exact ⟨hread, hkind, hlower, (hvalue hlower).2 (.inr ⟨by simp, by simp⟩)⟩

/-- A leading zero in front of two digits: the value is eight in the source language and ten in
Fun. -/
theorem lowerExpr_octal :
    Lex.number "010".toList = some ("010".toList, []) ∧ LitKind.ofNumber "010".toList = .int ∧
    lowerExpr {} (.lit ⟨none, LitKind.ofNumber "010".toList, String.ofList "010".toList⟩) =
      .ok (.int 10) ∧
    Number.sourceValue? "010".toList = some 8 := by
  refine ⟨by decide +kernel, by decide +kernel, ?_, by decide +kernel⟩
  rw [lowerExpr, lowerLiteral_int (by decide +kernel)]
  rfl

end Fun

end GoFun
