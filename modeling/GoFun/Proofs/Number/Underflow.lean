import Mathlib.Data.List.Basic
import Mathlib.Data.Option.Basic
import GoFun.Number.Reading

/-!
# Exponents that leave their range

The exponent of a number in base sixteen fits 32 bits by itself. The digits behind the point lower
it by four each, and what comes out need not fit any more. There is no other way for reading to
leave a range.
-/
namespace GoFun.Number

attribute [local instance (high)] instPowNat

variable {cs : List Char} {e : Int} {bits : Nat} {c : Char}
variable {beyond : IntegerError} {ds mantissa : List Char}

/-- A number in base sixteen whose exponent fits 32 bits and does not fit them, moved by the digits
behind the point. Low lines do not count. -/
def Underflows (cs : List Char) : Prop :=
  ∃ x whole part mark ds, cs.filter (· != '_') = '0' :: x ::
    (whole ++ '.' :: (part ++ mark :: '-' :: ds)) ∧
    (x = 'x' ∨ x = 'X') ∧ (mark = 'p' ∨ mark = 'P') ∧
    (∀ c ∈ whole ++ part, Lex.isHexDigit c = true) ∧
    ds ≠ [] ∧ (∀ c ∈ ds, Lex.isDigit c = true) ∧
    ofDigits ds ≤ 2 ^ (31 : Nat) ∧ 4 * part.length < 2 ^ (31 : Nat) ∧
    2 ^ (31 : Nat) < ofDigits ds + 4 * part.length

theorem le_foldl_digits (n : Nat) (cs : List Char) :
    n ≤ cs.foldl (fun n c => 10 * n + digitValue c) n := by
  induction cs generalizing n with
  | nil => exact Nat.le_refl n
  | cons c cs ih =>
    have h := ih (10 * n + digitValue c)
    simp only [List.foldl_cons]
    omega

theorem readDigits_eq_ok {limit n m : Nat} (hn : n ≤ limit) : readDigits limit beyond n cs = .ok m ↔
      (∀ c ∈ cs, Lex.isDigit c = true) ∧ cs.foldl (fun n c => 10 * n + digitValue c) n = m ∧
      m ≤ limit := by
  induction cs generalizing n with
  | nil => simp only [readDigits, Except.ok.injEq, List.foldl_nil]; grind
  | cons c cs ih =>
    have hle := le_foldl_digits (10 * n + digitValue c) cs
    simp only [readDigits, List.foldl_cons, List.forall_mem_cons]
    split
    case isFalse hc => simp [hc]
    case isTrue hc =>
      split
      case isTrue hnext => rw [ih hnext]; simp [hc]
      case isFalse hnext =>
        simp only [reduceCtorEq, false_iff, not_and]
        rintro - rfl
        omega

theorem map_readDigits_eq_ok {limit : Nat} {f : Nat → Int} :
    (do return f (← readDigits limit beyond 0 cs)) = Except.ok e ↔
      (∀ c ∈ cs, Lex.isDigit c = true) ∧ e = f (ofDigits cs) ∧ ofDigits cs ≤ limit := by
  constructor
  · intro h
    cases hr : readDigits limit beyond 0 cs with
    | error cause =>
      rw [hr] at h
      cases h
    | ok n =>
      rw [hr] at h
      cases h
      obtain ⟨hcs, rfl, hle⟩ := (readDigits_eq_ok (Nat.zero_le _)).1 hr
      exact ⟨hcs, rfl, hle⟩
  · rintro ⟨hcs, rfl, hle⟩
    rw [(readDigits_eq_ok (Nat.zero_le _)).2 ⟨hcs, rfl, hle⟩]
    rfl

theorem readSigned_minus (hne : ds ≠ []) : readSigned bits ('-' :: ds) = .ok e ↔
    (∀ c ∈ ds, Lex.isDigit c = true) ∧ e = -Int.ofNat (ofDigits ds) ∧
    ofDigits ds ≤ 2 ^ (bits - 1) := by
  rw [readSigned]
  · exact map_readDigits_eq_ok
  · exact hne

theorem readSigned_plus (hne : ds ≠ []) : readSigned bits ('+' :: ds) = .ok e ↔
    (∀ c ∈ ds, Lex.isDigit c = true) ∧ e = ofDigits ds ∧ ofDigits ds ≤ 2 ^ (bits - 1) - 1 := by
  rw [readSigned]
  · exact map_readDigits_eq_ok
  · exact hne

theorem readSigned_unsigned (hplus : c ≠ '+') (hminus : c ≠ '-') :
    readSigned bits (c :: cs) = .ok e ↔ (∀ d ∈ c :: cs, Lex.isDigit d = true) ∧
    e = ofDigits (c :: cs) ∧
      ofDigits (c :: cs) ≤ 2 ^ (bits - 1) - 1 := by
  rw [readSigned]
  · exact map_readDigits_eq_ok
  all_goals simp [hplus, hminus]

theorem readSigned_eq_ok_neg (h : readSigned bits cs = .ok e) (he : e < 0) :
    ∃ ds, cs = '-' :: ds ∧ ds ≠ [] ∧ (∀ c ∈ ds, Lex.isDigit c = true) ∧
    e = -Int.ofNat (ofDigits ds) ∧
      ofDigits ds ≤ 2 ^ (bits - 1) := by
  have hnat : ∀ n : Nat, e ≠ Int.ofNat n :=
    fun n hn => absurd he (Int.not_lt.2 (hn ▸ Int.natCast_nonneg n))
  unfold readSigned at h
  split at h
  case h_4 ds hne => exact ⟨ds, rfl, fun hnil => hne (by rw [hnil]), map_readDigits_eq_ok.1 h⟩
  case h_5 | h_6 => exact absurd (map_readDigits_eq_ok.1 h).2.1 (hnat _)
  all_goals cases h

theorem hexValue?_isSome (c : Char) : (hexValue? c).isSome = Lex.isHexDigit c := by
  unfold hexValue? Lex.isHexDigit
  split
  · simp [*]
  · split
    · simp [*]
    · split <;> simp [*]

theorem exists_mapM_hexValue? :
    (∃ ds, cs.mapM hexValue? = some ds) ↔ ∀ c ∈ cs, Lex.isHexDigit c = true := by
  induction cs with
  | nil => simp
  | cons c cs ih =>
    rw [List.forall_mem_cons, ← ih, ← hexValue?_isSome, List.mapM_cons]
    cases hexValue? c with
    | none => simp
    | some d => cases cs.mapM hexValue? <;> simp

/-- The digits `part` behind a point, where the point may be left out when there are none. -/
def IsPoint (point part : List Char) : Prop := point = [] ∧ part = [] ∨ point = '.' :: part

/-- The text in front of the exponent is split at its point. -/
def wholeDigits (mantissa : List Char) : List Char := mantissa.takeWhile (· != '.')

def partDigits (mantissa : List Char) : List Char := (mantissa.dropWhile (· != '.')).drop 1

theorem mantissa_split {whole point part : List Char} (hwhole : ∀ c ∈ whole, c ≠ '.')
    (hpoint : IsPoint point part) :
    wholeDigits (whole ++ point) = whole ∧ partDigits (whole ++ point) = part := by
  have hne : ∀ c ∈ whole, (c != '.') = true := fun c hc => bne_iff_ne.2 (hwhole c hc)
  rw [wholeDigits, partDigits, List.takeWhile_append_of_pos hne, List.dropWhile_append_of_pos hne]
  rcases hpoint with ⟨rfl, rfl⟩ | rfl <;> simp

def isMark (c : Char) : Bool := c == 'p' || c == 'P'

/-- What is read when the text is split at the mark of its exponent. -/
def hexOf? (mantissa exponent : List Char) : Option (Except DoubleError Double) := do
  let e ← (readSigned 32 exponent).toOption
  guard (!(wholeDigits mantissa ++ partDigits mantissa).isEmpty)
  let ds ← (wholeDigits mantissa ++ partDigits mantissa).mapM hexValue?
  let moved := e - 4 * (partDigits mantissa).length
  guard (4 * (partDigits mantissa).length < 2 ^ (31 : Nat))
  return if -2 ^ (31 : Nat) ≤ moved then .ok (scaleHex (sumHex (some 0) ds) moved) else .error
    .exponentRange

theorem readHex?_eq (cs : List Char) : readHex? cs = match cs.dropWhile (!isMark ·) with
    | _ :: exponent => hexOf? (cs.takeWhile (!isMark ·)) exponent
    | [] => none := by
  have hmark : (fun c => !(c == 'p' || c == 'P')) = (!isMark ·) := rfl
  simp only [readHex?, hmark]
  cases cs.dropWhile (!isMark ·) <;> rfl

theorem readHex?_append {exponent : List Char} {mark : Char}
    (hmantissa : ∀ c ∈ mantissa, isMark c = false)
    (hmark : isMark mark = true) :
    readHex? (mantissa ++ mark :: exponent) = hexOf? mantissa exponent := by
  have htake : (mantissa ++ mark :: exponent).takeWhile (!isMark ·) = mantissa := by
    rw [List.takeWhile_append_of_pos (by simpa using hmantissa)]
    simp [hmark]
  have hdrop : (mantissa ++ mark :: exponent).dropWhile (!isMark ·) = mark :: exponent := by
    rw [List.dropWhile_append_of_pos (by simpa using hmantissa)]
    simp [hmark]
  rw [readHex?_eq, hdrop, htake]

theorem hexOf?_eq_range {exponent : List Char} :
    hexOf? mantissa exponent = some (.error .exponentRange) ↔
      (∀ c ∈ wholeDigits mantissa ++ partDigits mantissa, Lex.isHexDigit c = true) ∧
      ∃ ds, exponent = '-' :: ds ∧ ds ≠ [] ∧ (∀ c ∈ ds, Lex.isDigit c = true) ∧
      ofDigits ds ≤ 2 ^ (31 : Nat) ∧
        4 * (partDigits mantissa).length < 2 ^ (31 : Nat) ∧
        2 ^ (31 : Nat) < ofDigits ds + 4 * (partDigits mantissa).length := by
  constructor
  · intro h
    simp only [hexOf?, Option.bind_eq_bind, Option.bind_eq_some_iff] at h
    obtain ⟨e, he, _, -, values, hvalues, _, hlt, h⟩ := h
    have hlt : 4 * (partDigits mantissa).length < 2 ^ (31 : Nat) := by
      by_contra hge
      cases (if_neg hge).symm.trans hlt
    have he : readSigned 32 exponent = .ok e := by
      cases hr : readSigned 32 exponent <;> simp_all [Except.toOption]
    split at h
    case isTrue => cases h
    case isFalse hover =>
      obtain ⟨ds, rfl, hne, hds, rfl, hle⟩ := readSigned_eq_ok_neg he (by omega)
      refine ⟨exists_mapM_hexValue?.1 ⟨values, hvalues⟩, ds, rfl, hne, hds, hle, hlt, ?_⟩
      simp only [Int.ofNat_eq_natCast] at hover
      omega
  · rintro ⟨hhex, ds, rfl, hne, hds, hle, hlt, hover⟩
    obtain ⟨values, hvalues⟩ := exists_mapM_hexValue?.2 hhex
    have hread : readSigned 32 ('-' :: ds) = .ok (-Int.ofNat (ofDigits ds)) :=
      (readSigned_minus hne).2 ⟨hds, rfl, hle⟩
    have hpart : wholeDigits mantissa ++ partDigits mantissa ≠ [] := by
      intro hnil
      obtain ⟨-, hnil⟩ := List.append_eq_nil_iff.1 hnil
      rw [hnil, List.length_nil] at hover
      omega
    have hdigits :
        (guard (!(wholeDigits mantissa ++ partDigits mantissa).isEmpty) : Option Unit) = some () :=
      if_pos (by simpa using hpart)
    have hshort : (guard (4 * (partDigits mantissa).length < 2 ^ (31 : Nat)) : Option Unit) =
        some () := if_pos hlt
    have hmoved :
        ¬ -2 ^ (31 : Nat) ≤ -Int.ofNat (ofDigits ds) - 4 * (partDigits mantissa).length := by
      simp only [Int.ofNat_eq_natCast]
      omega
    rw [hexOf?, hread, hdigits, hvalues, hshort]
    exact congrArg some (if_neg hmoved)

theorem readDecimal_ne_range (cs : List Char) : readDecimal cs ≠ .error .exponentRange := by
  have hunsigned : ∀ cs, readDecimal.unsigned cs ≠ .error .exponentRange := by
    intro cs h
    unfold readDecimal.unsigned at h
    split at h <;> cases h
  intro h
  unfold readDecimal at h
  split at h
  case h_1 => cases h
  case h_2 cs =>
    cases hu : readDecimal.unsigned cs with
    | ok d => rw [hu] at h; cases h
    | error cause =>
      rw [hu] at h
      cases h
      exact hunsigned cs hu
  case h_3 | h_4 => exact hunsigned _ h

theorem isHexDigit_plain (h : Lex.isHexDigit c = true) : isMark c = false ∧ c ≠ '.' := by
  refine ⟨Bool.eq_false_iff.2 fun hm => ?_, ?_⟩
  · simp only [isMark, Bool.or_eq_true, beq_iff_eq] at hm
    rcases hm with rfl | rfl <;> exact absurd h (by decide)
  · rintro rfl
    exact absurd h (by decide)

theorem dropWhile_eq_cons {p : Char → Bool} {rest : List Char} (h : cs.dropWhile p = c :: rest) :
    p c = false ∧ cs = cs.takeWhile p ++ c :: rest := by
  refine ⟨?_, by rw [← h, List.takeWhile_append_dropWhile]⟩
  have hhead := List.head?_dropWhile_not p cs
  rw [h] at hhead
  simpa using hhead

theorem readHex?_eq_range {hex : List Char} : readHex? hex = some (.error .exponentRange) ↔
    ∃ whole part mark ds, hex = whole ++ '.' :: (part ++ mark :: '-' :: ds) ∧
    (mark = 'p' ∨ mark = 'P') ∧
      (∀ c ∈ whole ++ part, Lex.isHexDigit c = true) ∧ ds ≠ [] ∧ (∀ c ∈ ds, Lex.isDigit c = true) ∧
      ofDigits ds ≤ 2 ^ (31 : Nat) ∧ 4 * part.length < 2 ^ (31 : Nat) ∧
      2 ^ (31 : Nat) < ofDigits ds + 4 * part.length := by
  constructor
  · intro h
    rw [readHex?_eq] at h
    split at h
    case h_2 => cases h
    case h_1 mark exponent hdrop =>
      obtain ⟨hmark, hhex⟩ := dropWhile_eq_cons hdrop
      obtain ⟨hdigits, ds, rfl, hne, hds, hle, hlt, hover⟩ := hexOf?_eq_range.1 h
      -- without a point there are no digits behind it, and the exponent stays as it is
      cases hpoint : (hex.takeWhile (!isMark ·)).dropWhile (· != '.') with
      | nil =>
        rw [partDigits, hpoint] at hover
        simp only [List.drop_nil, List.length_nil] at hover
        omega
      | cons c part =>
        obtain ⟨hc, hmantissa⟩ := dropWhile_eq_cons hpoint
        have hpart :
            partDigits (hex.takeWhile (!isMark ·)) = part := by rw [partDigits, hpoint]; rfl
        rw [hpart] at hdigits hlt hover
        obtain rfl : c = '.' := by simpa using hc
        refine ⟨wholeDigits (hex.takeWhile (!isMark ·)), part, mark, ds, ?_, ?_, hdigits, hne, hds,
          hle, hlt, hover⟩
        · rw [wholeDigits, ← List.cons_append, ← List.append_assoc, ← hmantissa]
          exact hhex
        · rw [Bool.not_eq_false'] at hmark
          simpa only [isMark, Bool.or_eq_true, beq_iff_eq] using hmark
  · rintro ⟨whole, part, mark, ds, rfl, hmark, hdigits, hne, hds, hle, hlt, hover⟩
    have hplain : ∀ c ∈ whole ++ part, isMark c = false ∧ c ≠ '.' :=
      fun c hc => isHexDigit_plain (hdigits c hc)
    have hwhole : ∀ c ∈ whole, c ≠ '.' := fun c hc => (hplain c (by simp [hc])).2
    obtain ⟨hfront, hback⟩ := mantissa_split hwhole (.inr rfl : IsPoint ('.' :: part) part)
    have hmantissa : ∀ c ∈ whole ++ '.' :: part, isMark c = false := by
      simp only [List.mem_append, List.mem_cons]
      rintro c (hc | rfl | hc)
      · exact (hplain c (by simp [hc])).1
      · rfl
      · exact (hplain c (by simp [hc])).1
    rw [← List.cons_append, ← List.append_assoc, readHex?_append hmantissa
      (by rcases hmark with rfl | rfl <;> rfl), hexOf?_eq_range, hfront, hback]
    exact ⟨hdigits, ds, rfl, hne, hds, hle, hlt, hover⟩

theorem readDouble_eq_range : readDouble cs = .error .exponentRange ↔ Underflows cs := by
  have hgetD : ∀ r : Option (Except DoubleError Double),
      r.getD (.error .invalid) = .error .exponentRange ↔ r = some (.error .exponentRange) := by
    rintro (_ | r) <;> simp
  constructor
  · intro h
    unfold readDouble at h
    split at h
    case h_1 hex heq | h_2 hex heq =>
      obtain ⟨whole, part, mark, ds, rfl, hrest⟩ := readHex?_eq_range.1 ((hgetD _).1 h)
      exact ⟨_, whole, part, mark, ds, heq, by simp, hrest⟩
    case h_3 => exact absurd h (readDecimal_ne_range _)
  · rintro ⟨x, whole, part, mark, ds, hcs, hx, hrest⟩
    have hread := (hgetD _).2 (readHex?_eq_range.2 ⟨whole, part, mark, ds, rfl, hrest⟩)
    unfold readDouble
    rw [hcs]
    rcases hx with rfl | rfl <;> exact hread

end GoFun.Number
