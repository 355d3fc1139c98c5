import GoFun.Text.Quoted

/-!
# Quoted text is read in one way

No escape begins another, so quoted text determines the text inside, and where it ends. Quoted text
has no line break.
-/
namespace GoFun.Text

variable {c c' : Char} {r r' : List Char}

/-- Where two texts end at their first mark and go on behind it, both parts agree. -/
theorem eq_and_eq_of_append_cons {α : Type} {x y r r' : List α} {a : α} (hx : a ∉ x) (hy : a ∉ y)
    (h : x ++ a :: r = y ++ a :: r') : x = y ∧ r = r' := by
  induction x generalizing y with
  | nil =>
    cases y with
    | nil => exact ⟨rfl, (List.cons.inj h).2⟩
    | cons b y => exact absurd (List.cons.inj h).1 fun hb => hy (by simp [hb])
  | cons b x ih =>
    cases y with
    | nil => exact absurd (List.cons.inj h).1.symm fun hb => hx (by simp [hb])
    | cons b' y =>
      obtain ⟨rfl, htail⟩ := List.cons.inj h
      obtain ⟨rfl, hr⟩ := ih (fun hm => hx (by simp [hm])) (fun hm => hy (by simp [hm])) htail
      exact ⟨rfl, hr⟩

theorem digitChar_inj {a b : Nat} (ha : a < 16) (hb : b < 16) (h : a.digitChar = b.digitChar) :
    a = b := by
  have hall : ∀ a < 16, ∀ b < 16, a.digitChar = b.digitChar → a = b := by decide
  exact hall a ha b hb h

theorem toDigits_sixteen_inj {a b : Nat} (h : Nat.toDigits 16 a = Nat.toDigits 16 b) : a = b := by
  induction a using Nat.strongRecOn generalizing b with
  | ind a ih =>
    rw [Nat.toDigits_eq_if (by decide), Nat.toDigits_eq_if (b := 16) (n := b) (by decide)] at h
    split at h <;> split at h
    case isTrue.isTrue ha hb => exact digitChar_inj ha hb (List.singleton_inj.1 h)
    -- the digits before the last one are never empty
    case isTrue.isFalse => simpa [Nat.toDigits_ne_nil] using congrArg List.length h
    case isFalse.isTrue => simpa [Nat.toDigits_ne_nil] using congrArg List.length h
    case isFalse.isFalse ha hb =>
      obtain ⟨hq, hr⟩ := List.append_inj' h rfl
      have hq := ih (a / 16) (by omega) hq
      have hr := digitChar_inj (by omega) (by omega) (List.singleton_inj.1 hr)
      omega

theorem isAlphanum_of_mem_toDigits {n : Nat} {d : Char} (h : d ∈ Nat.toDigits 16 n) :
    d.isAlphanum = true := by
  have hdigit : ∀ n < 16, n.digitChar.isAlphanum = true := by decide
  induction n using Nat.strongRecOn with
  | ind n ih =>
    rw [Nat.toDigits_eq_if (by decide)] at h
    split at h
    case isTrue hn => exact List.mem_singleton.1 h ▸ hdigit n hn
    case isFalse hn =>
      rcases List.mem_append.1 h with h | h
      · exact ih (n / 16) (by omega) h
      · exact List.mem_singleton.1 h ▸ hdigit _ (Nat.mod_lt _ (by decide))

/-- The characters with a short escape, each behind the letter that stands for it. -/
def shortEscapes : List (Char × Char) :=
  [('0', '\x00'), ('t', '\t'), ('n', '\n'), ('r', '\r'), ('\\', '\\'), ('"', '"')]

theorem escape_cases (c : Char) :
    (escape '"' c = [c] ∧ c ≠ '\\' ∧ c ≠ '"' ∧ c ≠ '\n') ∨
    (∃ d, (d, c) ∈ shortEscapes ∧ escape '"' c = ['\\', d]) ∨ escape '"' c = escapeNumber c := by
  unfold escape shortEscapes
  grind

theorem escapeNumber_append_inj (h : escapeNumber c ++ r = escapeNumber c' ++ r') :
    c = c' ∧ r = r' := by
  have hclose : ∀ n : Nat, '\x7d' ∉ Nat.toDigits 16 n := fun n hn => by
    simpa using isAlphanum_of_mem_toDigits hn
  have h : Nat.toDigits 16 c.toNat ++ '\x7d' :: r = Nat.toDigits 16 c'.toNat ++ '\x7d' :: r' := by
    simpa [escapeNumber] using h
  obtain ⟨hn, hr⟩ := eq_and_eq_of_append_cons (hclose _) (hclose _) h
  exact ⟨Char.toNat_inj.1 (toDigits_sixteen_inj hn), hr⟩

/-- An escape determines its character and where it ends. -/
theorem escape_append_inj (h : escape '"' c ++ r = escape '"' c' ++ r') : c = c' ∧ r = r' := by
  have hshort : ∀ x ∈ shortEscapes, x.1 ≠ 'u' ∧ ∀ y ∈ shortEscapes, x.1 = y.1 →
      x.2 = y.2 := by decide
  rcases escape_cases c with ⟨hc, hb, -⟩ | ⟨d, hd, hc⟩ | hc <;>
    rcases escape_cases c' with ⟨hc', hb', -⟩ | ⟨d', hd', hc'⟩ | hc' <;> rw [hc, hc'] at h
  · simpa using h
  · exact absurd (List.cons.inj h).1 hb
  · exact absurd (List.cons.inj h).1 hb
  · exact absurd (List.cons.inj h).1.symm hb'
  · obtain ⟨rfl, rfl⟩ : d = d' ∧ r = r' := by simpa using h
    exact ⟨(hshort _ hd).2 _ hd' rfl, rfl⟩
  · exact absurd (List.cons.inj (List.cons.inj h).2).1 (hshort _ hd).1
  · exact absurd (List.cons.inj h).1.symm hb'
  · exact absurd (List.cons.inj (List.cons.inj h).2).1.symm (hshort _ hd').1
  · exact escapeNumber_append_inj h

theorem quote_ne_head_escape : escape '"' c ++ r ≠ '"' :: r' := by
  rcases escape_cases c with ⟨hc, -, hq, -⟩ | ⟨d, -, hc⟩ | hc <;> rw [hc]
  · exact fun h => hq (List.cons.inj h).1
  · exact fun h => nomatch (List.cons.inj h).1
  · exact fun h => nomatch (List.cons.inj h).1

theorem flatMap_escape_append_inj {s s' : List Char}
    (h : s.flatMap (escape '"') ++ '"' :: r = s'.flatMap (escape '"') ++ '"' :: r') :
    s = s' ∧ r = r' := by
  induction s generalizing s' with
  | nil =>
    cases s' with
    | nil => exact ⟨rfl, (List.cons.inj h).2⟩
    | cons c s' => exact absurd (by simpa using h.symm) quote_ne_head_escape
  | cons c s ih =>
    cases s' with
    | nil => exact absurd (by simpa using h) quote_ne_head_escape
    | cons c' s' =>
      simp only [List.flatMap_cons, List.append_assoc] at h
      obtain ⟨rfl, htail⟩ := escape_append_inj h
      obtain ⟨rfl, hr⟩ := ih htail
      exact ⟨rfl, hr⟩

theorem quoteString_inj {s s' : String} (h : quoteString s = quoteString s') : s = s' := by
  have h := (List.cons.inj (String.ofList_injective h)).2
  exact String.toList_inj.1 (flatMap_escape_append_inj h).1

theorem newline_notMem_escape (c : Char) : '\n' ∉ escape '"' c := by
  rcases escape_cases c with ⟨hc, -, -, hn⟩ | ⟨d, hd, hc⟩ | hc <;> rw [hc]
  · simpa using hn.symm
  · have hshort : ∀ x ∈ shortEscapes, '\n' ∉ ['\\', x.1] := by decide
    exact hshort _ hd
  · have hdigits : '\n' ∉ Nat.toDigits 16 c.toNat :=
      fun hn => by simpa using isAlphanum_of_mem_toDigits hn
    simp [escapeNumber, hdigits]

theorem newline_notMem_quoteString (s : String) : '\n' ∉ (quoteString s).toList := by
  simp [quoteString, newline_notMem_escape]

theorem escape_single_of_ne (h : c ≠ '\'') (h' : c ≠ '"') : escape '\'' c = escape '"' c := by
  simp [escape, h, h']

theorem escape_single_cases (c : Char) :
    (c = '\'' ∧ escape '\'' c = ['\\', '\'']) ∨ (c = '"' ∧ escape '\'' c = ['"']) ∨
    (c ≠ '\'' ∧ c ≠ '"' ∧ escape '\'' c = escape '"' c) := by
  by_cases h : c = '\''
  · subst h
    exact .inl ⟨rfl, rfl⟩
  · by_cases h' : c = '"'
    · subst h'
      exact .inr (.inl ⟨rfl, by decide⟩)
    · exact .inr (.inr ⟨h, h', escape_single_of_ne h h'⟩)

/-- What stands for a quote in single quotes stands for no character in double quotes. -/
theorem escape_ne_single (h : c ≠ '"') : escape '"' c ≠ ['\\', '\''] ∧ escape '"' c ≠ ['"'] := by
  have hshort : ∀ x ∈ shortEscapes, x.1 ≠ '\'' := by decide
  rcases escape_cases c with ⟨hc, -⟩ | ⟨d, hd, hc⟩ | hc <;> rw [hc]
  · simpa using h
  · simpa using hshort _ hd
  · simp [escapeNumber]

theorem quoteChar_inj (h : quoteChar c = quoteChar c') : c = c' := by
  have h : escape '\'' c = escape '\'' c' := by
    exact List.append_cancel_right (List.cons.inj (String.ofList_injective h)).2
  rcases escape_single_cases c with ⟨hc, he⟩ | ⟨hc, he⟩ | ⟨-, hc, he⟩ <;>
    rcases escape_single_cases c' with ⟨hc', he'⟩ | ⟨hc', he'⟩ | ⟨-, hc', he'⟩ <;> rw [he, he'] at h
  · rw [hc, hc']
  · simp at h
  · exact absurd h.symm (escape_ne_single hc').1
  · simp at h
  · rw [hc, hc']
  · exact absurd h.symm (escape_ne_single hc').2
  · exact absurd h (escape_ne_single hc).1
  · exact absurd h (escape_ne_single hc).2
  · exact (escape_append_inj (congrArg (· ++ []) h)).1

theorem newline_notMem_quoteChar (c : Char) : '\n' ∉ (quoteChar c).toList := by
  have hescape : '\n' ∉ escape '\'' c := by
    rcases escape_single_cases c with ⟨-, he⟩ | ⟨-, he⟩ | ⟨-, -, he⟩ <;> rw [he]
    · decide
    · decide
    · exact newline_notMem_escape c
  simp [quoteChar, hescape]

end GoFun.Text
