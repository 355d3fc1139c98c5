import GoFun.Proofs.Lex.Reread

/-!
# Numbers are read again

The four ways to write a number differ in what may continue them. In front of anything but a letter,
a digit, a low line or a point all of them are read again.
-/
namespace GoFun.Lex

open Lexer

variable {s cs t r : List Char} {p : Char → Bool}

theorem isHexDigit_isAlphanum {c : Char} (h : isHexDigit c = true) : c.isAlphanum = true := by
  simp only [isHexDigit, isDigit, Bool.or_eq_true, Bool.and_eq_true, decide_eq_true_eq, Char.le_def,
    UInt32.le_iff_toNat_le] at h
  delta Char.isAlphanum Char.isAlpha Char.isUpper Char.isLower Char.isDigit
  simp only [Bool.or_eq_true, Bool.and_eq_true, decide_eq_true_eq, ge_iff_le,
    UInt32.le_iff_toNat_le]
  simp only [Char.reduceVal, UInt32.reduceToNat] at h ⊢
  omega

theorem isDigit_isAlphanum {c : Char} (h : isDigit c = true) : c.isAlphanum = true :=
  isHexDigit_isAlphanum (by simp [isHexDigit, h])

def continuesNumber (c : Char) : Bool := c.isAlphanum || c == '_' || c == '.'

def continuesDecimal (c : Char) : Bool := isDigit c || c == '_' || c == '.' || c == 'e' || c == 'E'

def continuesHex (c : Char) : Bool := isHexDigit c || c == '_' || c == '.' || c == 'p' || c == 'P'

theorem eq_false_of_contains (h : s.all (fun c => !p c) = true) (c : Char)
    (hc : s.contains c = true) : p c = false := by
  simpa using List.all_eq_true.1 h c (by simpa using hc)

theorem contains_eq_false (h : s.all (fun c => !p c) = true) (c : Char) (hc : p c = true) :
    s.contains c = false := by
  cases hs : s.contains c with
  | false => rfl
  | true => simp [eq_false_of_contains h c hs] at hc

theorem of_contains (h : s.all p = true) (c : Char) (hc : s.contains c = true) : p c = true :=
  List.all_eq_true.1 h c (by simpa using hc)

theorem opens_exponentOf (s : String) :
    Opens (oneOf s ++ opt (oneOf "+-") ++ digit ++ digits) (s.toList.contains ·) :=
  (opens_one _).append.append.append

theorem rereads_exponentOf (s : String) :
    Rereads (oneOf s ++ opt (oneOf "+-") ++ digit ++ digits) fun c => isDigit c || c == '_' := by
  have hsign : Rereads (opt (oneOf "+-")) ("+-".toList.contains ·) :=
    (rereads_one _ fun _ => false).opt (opens_one _) (by simp) (by simp)
  refine .append_of_fixed (fun p => ?_) (rereads_run _)
  exact (Rereads.append_of_fixed (rereads_one _) hsign).append_closed (rereads_one _ p)
    (opens_one _) (contains_eq_false (by decide))

theorem rereads_fractionOf : Rereads (opt (text "." ++ run p)) fun c => p c || c == '.' :=
  (Rereads.append_of_fixed (rereads_text _) (rereads_run p)).opt (opens_text '.' rfl).append
    (by simp +contextual) (by simp +contextual)

theorem opens_fractionOf (p : Char → Bool) : Opens (text "." ++ run p) (· == '.') :=
  (opens_text '.' rfl).append

theorem rereads_decimalNumber : Rereads decimalNumber continuesDecimal := by
  have hint : Rereads (digit ++ digits) fun c => isDigit c || c == '_' :=
    .append_of_fixed (rereads_one _) (rereads_run _)
  have hfrac := hint.append (rereads_fractionOf (p := fun c => isDigit c || c == '_'))
    (by simp +contextual) ((opens_fractionOf _).stops_opt (by simp +contextual; decide))
  refine hfrac.append ((rereads_exponentOf "eE").opt (opens_exponentOf "eE") ?_
    (of_contains (by decide)))
    ?_ ((opens_exponentOf "eE").stops_opt (eq_false_of_contains (by decide)))
  · simp +contextual [continuesDecimal]
  · intro c hc
    simp only [continuesDecimal, hc, Bool.true_or]

theorem opens_decimalNumber : Opens decimalNumber isDigit := (opens_one _).append.append.append

theorem rereads_fractionNumber : Rereads fractionNumber continuesDecimal := by
  have hfrac : Rereads (text "." ++ digit ++ digits) fun c => isDigit c || c == '_' :=
    .append_of_fixed (fun p => .append_of_fixed (rereads_text _) (rereads_one _ p)) (rereads_run _)
  refine hfrac.append ((rereads_exponentOf "eE").opt (opens_exponentOf "eE") ?_
    (of_contains (by decide)))
    ?_ ((opens_exponentOf "eE").stops_opt (eq_false_of_contains (by decide)))
  · simp +contextual [continuesDecimal]
  · simp +contextual [continuesDecimal]

theorem opens_fractionNumber : Opens fractionNumber (· == '.') :=
  (opens_text '.' rfl).append.append.append

theorem rereads_hexNumber : Rereads hexNumber continuesHex := by
  have hint : Rereads (text "0" ++ oneOf "xX" ++ hexDigits) fun c => isHexDigit c || c == '_' :=
    .append_of_fixed (fun p => .append_of_fixed (rereads_text _) (rereads_one _ p)) (rereads_run _)
  have hfrac := hint.append (rereads_fractionOf (p := fun c => isHexDigit c || c == '_'))
    (by simp +contextual) ((opens_fractionOf _).stops_opt (by simp +contextual; decide))
  have hall := hfrac.append (q := continuesHex)
    ((rereads_exponentOf "pP").opt (opens_exponentOf "pP") ?_ (of_contains (by decide))) ?_
    ((opens_exponentOf "pP").stops_opt (eq_false_of_contains (by decide)))
  · intro cs t r h r' hr
    obtain ⟨h, hc⟩ := Option.filter_eq_some_iff.1 h
    exact Option.filter_eq_some_iff.2 ⟨hall cs t r h r' hr, hc⟩
  · intro c hc
    rcases Bool.or_eq_true_iff.1 hc with h | h
    · simp [continuesHex, isHexDigit, h]
    · simp [continuesHex, h]
  · intro c hc
    simp only [continuesHex, hc, Bool.true_or]

theorem rereads_radixNumber : Rereads radixNumber radixNumber.isAlphanum :=
  .append_of_fixed (fun p => .append_of_fixed
    (fun p => .append_of_fixed (rereads_text _) (rereads_one _ p)) (rereads_one _ p))
    (rereads_run _)

theorem base_eq {a : Lexer} {s : String} (h : (text "0" ++ oneOf s ++ a) cs = some (t, r)) :
    ∃ c cs' t', cs = '0' :: c :: cs' ∧ t = '0' :: c :: t' ∧ s.toList.contains c = true := by
  obtain ⟨_, _, _, hbase, -, rfl⟩ := append_eq_some.1 h
  obtain ⟨_, _, _, hzero, hletter, rfl⟩ := append_eq_some.1 hbase
  obtain ⟨rfl, rfl⟩ := text_eq_some.1 hzero
  obtain ⟨c, hc, rfl, rfl⟩ := one_eq_some.1 hletter
  exact ⟨c, _, _, rfl, rfl, hc⟩

theorem hexNumber_base (h : hexNumber cs = some (t, r)) :
    ∃ c cs' t', cs = '0' :: c :: cs' ∧ t = '0' :: c :: t' ∧ "xX".toList.contains c = true := by
  obtain ⟨_, _, _, h₁, -, rfl⟩ := append_eq_some.1 (Option.filter_eq_some_iff.1 h).1
  obtain ⟨_, _, _, h₂, -, rfl⟩ := append_eq_some.1 h₁
  obtain ⟨c, cs', t', hcs, rfl, hc⟩ := base_eq h₂
  exact ⟨c, cs', _, hcs, rfl, hc⟩

theorem radixNumber_base (h : radixNumber cs = some (t, r)) :
    ∃ c cs' t', cs = '0' :: c :: cs' ∧ t = '0' :: c :: t' ∧ "oObB".toList.contains c = true := by
  obtain ⟨_, _, _, h₁, -, rfl⟩ := append_eq_some.1 h
  obtain ⟨c, cs', t', hcs, rfl, hc⟩ := base_eq h₁
  exact ⟨c, cs', _, hcs, rfl, hc⟩

def NoBase (cs : List Char) : Prop := Stops ("xXoObB".toList.contains ·) cs.tail

theorem NoBase.eq_none (h : NoBase cs) {l : Lexer} {s : String}
    (hl : ∀ {t r}, l cs = some (t, r) → ∃ c cs' t', cs = '0' :: c :: cs' ∧ t = '0' :: c :: t' ∧
      s.toList.contains c = true)
    (hs : s.toList.all ("xXoObB".toList.contains ·) = true) : l cs = none := by
  cases hn : l cs with
  | none => rfl
  | some x =>
    obtain ⟨c, cs', _, rfl, -, hc⟩ := hl hn
    rw [NoBase, List.tail_cons, stops_cons] at h
    have := of_contains hs c hc
    simp only [h, Bool.false_eq_true] at this

theorem NoBase.hexNumber (h : NoBase cs) : hexNumber cs = none :=
  h.eq_none hexNumber_base (by decide)

theorem NoBase.radixNumber (h : NoBase cs) : radixNumber cs = none :=
  h.eq_none radixNumber_base (by decide)

theorem stops_run {q : Char → Bool} (hpq : ∀ c, p c → q c = false) (h : run p cs = some (t, r))
    (ht : t ≠ []) :
    Stops q t := by
  obtain ⟨rfl, rfl⟩ := result_inj h
  intro c hc
  exact hpq c (List.all_eq_true.1 List.all_takeWhile c (List.mem_of_mem_head? hc))

theorem noBase_decimalNumber {r' : List Char} (h : decimalNumber cs = some (t, r))
    (hr : Stops ("xXoObB".toList.contains ·) r') : NoBase (t ++ r') := by
  obtain ⟨_, _, e, h₁, he, rfl⟩ := append_eq_some.1 h
  obtain ⟨_, _, f, h₂, hf, rfl⟩ := append_eq_some.1 h₁
  obtain ⟨_, _, ds, hd, hds, rfl⟩ := append_eq_some.1 h₂
  obtain ⟨d, -, -, rfl⟩ := one_eq_some.1 hd
  have hds : ds ≠ [] → Stops ("xXoObB".toList.contains ·) ds :=
    stops_run (fun c hc => contains_eq_false (p := fun c => isDigit c || c == '_') (by decide) c hc)
      hds
  have hf := (opens_fractionOf _).stops_opt (p := ("xXoObB".toList.contains ·))
    (by simp only [beq_iff_eq]; rintro c rfl; decide) _ _ _ hf
  have he := (opens_exponentOf "eE").stops_opt (p := ("xXoObB".toList.contains ·))
    (eq_false_of_contains (by decide)) _ _ _ he
  simp only [NoBase, List.append_assoc, List.cons_append, List.nil_append, List.tail_cons]
  exact .append hds (.append hf (.append he hr))

theorem continuesDecimal_continuesNumber (c : Char) (h : continuesDecimal c = true) :
    continuesNumber c = true := by
  simp only [continuesDecimal, Bool.or_eq_true, beq_iff_eq] at h
  rcases h with (((h | rfl) | rfl) | rfl) | rfl
  · simp [continuesNumber, isDigit_isAlphanum h]
  all_goals decide

theorem continuesHex_continuesNumber (c : Char) (h : continuesHex c = true) :
    continuesNumber c = true := by
  simp only [continuesHex, Bool.or_eq_true, beq_iff_eq] at h
  rcases h with (((h | rfl) | rfl) | rfl) | rfl
  · simp [continuesNumber, isHexDigit_isAlphanum h]
  all_goals decide

theorem opens_hexNumber : Opens hexNumber (· == '0') := by
  intro cs t r h
  obtain ⟨h, -⟩ := Option.filter_eq_some_iff.1 h
  exact (opens_text '0' rfl).append.append.append.append _ _ _ h

theorem opens_radixNumber : Opens radixNumber (· == '0') :=
  (opens_text '0' rfl).append.append.append

theorem opens_number : Opens number fun c => isDigit c || c == '.' := by
  refine .append (.orElse (opens_hexNumber.mono ?_) (.orElse (opens_radixNumber.mono ?_)
    (.orElse (opens_decimalNumber.mono ?_) (opens_fractionNumber.mono ?_))))
  · simp only [beq_iff_eq]; rintro c rfl; decide
  · simp only [beq_iff_eq]; rintro c rfl; decide
  · simp +contextual
  · simp +contextual

theorem stops_i (hp : p 'i' = false) (cs t r : List Char) (h : opt (text "i") cs = some (t, r))
    (ht : t ≠ []) :
    Stops p t :=
  (opens_text 'i' rfl).stops_opt (by simp only [beq_iff_eq]; rintro c rfl; exact hp) cs t r h ht

theorem rereads_number : Rereads number continuesNumber := by
  intro cs t r h r' hr
  obtain ⟨t₁, c, t₂, h₁, h₂, rfl⟩ := append_eq_some.1 h
  have hi : Rereads (opt (text "i")) continuesNumber :=
    (rereads_text "i" fun _ => false).opt (opens_text 'i' rfl) (by simp)
      (by simp only [beq_iff_eq]; rintro c rfl; decide)
  refine append_eq_some.2 ⟨t₁, t₂ ++ r', t₂, ?_, hi _ _ _ h₂ r' hr, rfl⟩
  rw [List.append_assoc]
  rcases orElse_eq_some.1 h₁ with h₁ | ⟨-, h₁⟩
  · have hs : Stops continuesHex (t₂ ++ r') :=
      .append (stops_i (by decide) _ _ _ h₂) (hr.mono continuesHex_continuesNumber)
    exact orElse_eq_some.2 (.inl (rereads_hexNumber _ _ _ h₁ _ hs))
  rcases orElse_eq_some.1 h₁ with h₁ | ⟨-, h₁⟩
  · -- All letters are taken already, so none is left to mark the number as imaginary.
    have hc : Stops radixNumber.isAlphanum c := by
      obtain ⟨_, _, _, -, hrun, -⟩ := append_eq_some.1 h₁
      obtain ⟨-, rfl⟩ := result_inj hrun
      exact stops_dropWhile _ _
    obtain rfl : t₂ = [] := by
      rcases opt_eq_some.1 h₂ with h₂ | ⟨-, rfl, -⟩
      · obtain ⟨rfl, -⟩ := text_eq_some.1 h₂
        exact absurd hc (by simp; decide)
      · rfl
    have hs : Stops radixNumber.isAlphanum r' := hr.mono fun d hd => by
      simp only [radixNumber.isAlphanum] at hd
      simp only [continuesNumber, hd, Bool.true_or]
    have hread := rereads_radixNumber _ _ _ h₁ r' hs
    refine orElse_eq_some.2 (.inr ⟨?_, orElse_eq_some.2 (.inl hread)⟩)
    cases hx : hexNumber (t₁ ++ r') with
    | none => exact hx
    | some x =>
      obtain ⟨b, _, _, he, -, hb⟩ := radixNumber_base hread
      obtain ⟨d, _, _, he', -, hd⟩ := hexNumber_base hx
      obtain ⟨rfl, -⟩ : b = d ∧ _ := by simpa [he] using he'
      have := eq_false_of_contains (p := ("xX".toList.contains ·)) (by decide) b hb
      simp only [hd, Bool.true_eq_false] at this
  have hs : Stops continuesDecimal (t₂ ++ r') :=
    .append (stops_i (by decide) _ _ _ h₂) (hr.mono continuesDecimal_continuesNumber)
  rcases orElse_eq_some.1 h₁ with h₁ | ⟨-, h₁⟩
  · have hb : NoBase (t₁ ++ (t₂ ++ r')) := noBase_decimalNumber h₁
      (.append (stops_i (by decide) _ _ _ h₂) (hr.mono (of_contains (by decide))))
    exact orElse_eq_some.2 (.inr ⟨hb.hexNumber, orElse_eq_some.2 (.inr ⟨hb.radixNumber,
      orElse_eq_some.2 (.inl (rereads_decimalNumber _ _ _ h₁ _ hs))⟩)⟩)
  · obtain ⟨d, t', rfl, hd, -⟩ := opens_fractionNumber _ _ _ h₁
    obtain rfl : d = '.' := by simpa using hd
    refine orElse_eq_some.2 (.inr ⟨opens_hexNumber.eq_none (by simp), orElse_eq_some.2 (.inr
      ⟨opens_radixNumber.eq_none (by simp), orElse_eq_some.2 (.inr
        ⟨opens_decimalNumber.eq_none (by simp; decide), rereads_fractionNumber _ _ _ h₁ _ hs⟩)⟩)⟩)

end GoFun.Lex
