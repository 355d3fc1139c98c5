import GoFun.Lex.Number
import GoFun.Lex.Quote
import GoFun.Lex.Word

/-!
# Reading a piece again

A piece that a lexer has taken is taken again, whole and nothing more, in front of any other text
that cannot continue it. `Rereads l p` says so of one lexer, where `p` holds of the characters that
might continue a piece. Words, numbers and quoted literals all have this property.
-/
namespace GoFun.Lex

open Lexer

variable {p q o : Char → Bool} {cs t r : List Char} {a b : Lexer}

/-- No character that satisfies `p` comes first. -/
def Stops (p : Char → Bool) (cs : List Char) : Prop := ∀ c ∈ cs.head?, p c = false

instance (p : Char → Bool) (cs : List Char) : Decidable (Stops p cs) := by
  unfold Stops
  cases cs.head? with
  | none => exact isTrue (by simp)
  | some c => exact decidable_of_iff (p c = false) (by simp)

@[simp] theorem stops_nil (p : Char → Bool) : Stops p [] := by simp [Stops]

@[simp] theorem stops_cons (p : Char → Bool) (c : Char) (cs : List Char) :
    Stops p (c :: cs) ↔ p c = false := by simp [Stops]

theorem Stops.mono (h : Stops q cs) (hpq : ∀ c, p c → q c) : Stops p cs := by
  intro c hc
  have hq := h c hc
  cases hp : p c with
  | false => rfl
  | true => simp [hpq c hp] at hq

theorem Stops.append {ds : List Char} (hc : cs ≠ [] → Stops p cs) (hd : Stops p ds) :
    Stops p (cs ++ ds) := by
  cases cs with
  | nil => exact hd
  | cons c cs => simpa using hc (by simp)

theorem stops_dropWhile (p : Char → Bool) (cs : List Char) : Stops p (cs.dropWhile p) := by
  intro c hc
  have h := List.head?_dropWhile_not p cs
  rw [hc] at h
  simpa using h

theorem one_eq_some : one p cs = some (t, r) ↔ ∃ c, p c = true ∧ cs = c :: r ∧ t = [c] := by
  cases cs with
  | nil => simp [one]
  | cons c cs =>
    by_cases h : p c = true
    · simp only [one, h, if_true, Option.some.injEq, Prod.mk.injEq, List.cons.injEq]
      constructor
      · rintro ⟨rfl, rfl⟩
        exact ⟨c, h, ⟨rfl, rfl⟩, rfl⟩
      · rintro ⟨d, -, ⟨rfl, rfl⟩, rfl⟩
        exact ⟨rfl, rfl⟩
    · simp only [one, h, List.cons.injEq]
      constructor
      · simp
      · rintro ⟨d, hd, ⟨rfl, -⟩, -⟩
        exact absurd hd h

theorem text_eq_some {s : String} :
    text s cs = some (t, r) ↔ cs = s.toList ++ r ∧ t = s.toList := by
  constructor
  · intro h
    obtain ⟨rfl, rfl⟩ := text_append h
    simp
  · rintro ⟨rfl, rfl⟩
    simp [text]

theorem append_eq_some : (a ++ b) cs = some (t, r) ↔
      ∃ t₁ c t₂, a cs = some (t₁, c) ∧ b c = some (t₂, r) ∧ t = t₁ ++ t₂ := by
  constructor
  · intro h
    obtain ⟨⟨t₁, c⟩, ha, h⟩ := Option.bind_eq_some_iff.1 h
    obtain ⟨⟨t₂, r'⟩, hb, h⟩ := Option.bind_eq_some_iff.1 h
    obtain ⟨rfl, rfl⟩ := result_inj h
    exact ⟨t₁, c, t₂, ha, hb, rfl⟩
  · rintro ⟨t₁, c, t₂, ha, hb, rfl⟩
    exact Option.bind_eq_some_iff.2 ⟨_, ha, Option.bind_eq_some_iff.2 ⟨_, hb, rfl⟩⟩

theorem orElse_eq_some {x : List Char × List Char} :
    (a <|> b) cs = some x ↔ a cs = some x ∨ a cs = none ∧ b cs = some x := by
  change (a cs <|> b cs) = some x ↔ _
  cases a cs <;> simp

theorem opt_eq_some :
    opt a cs = some (t, r) ↔ a cs = some (t, r) ∨ a cs = none ∧ t = [] ∧ r = cs := by
  unfold opt
  cases a cs <;> simp [eq_comm]

def Rereads (l : Lexer) (p : Char → Bool) : Prop :=
  ∀ cs t r, l cs = some (t, r) → ∀ r', Stops p r' → l (t ++ r') = some (t, r')

/-- The pieces of `l` begin with characters that satisfy `p`, and so does a text of which it takes
one. -/
def Opens (l : Lexer) (p : Char → Bool) : Prop :=
  ∀ cs t r, l cs = some (t, r) → ∃ c t', t = c :: t' ∧ p c = true ∧ cs.head? = some c

theorem Opens.eq_none {l : Lexer} (h : Opens l p) (hs : Stops p cs) : l cs = none := by
  cases hl : l cs with
  | none => rfl
  | some x =>
    obtain ⟨c, _, -, hp, hc⟩ := h cs x.1 x.2 hl
    have := hs c hc
    simp [hp] at this

theorem opens_one (p : Char → Bool) : Opens (one p) p := by
  intro cs t r h
  obtain ⟨c, hp, rfl, rfl⟩ := one_eq_some.1 h
  exact ⟨c, [], rfl, hp, rfl⟩

theorem opens_text {s : String} (c : Char) (h : s.toList.head? = some c) :
    Opens (text s) (· == c) := by
  intro cs t r ht
  obtain ⟨rfl, rfl⟩ := text_eq_some.1 ht
  obtain ⟨tail, ht⟩ := List.head?_eq_some_iff.1 h
  exact ⟨c, tail, ht, by simp, by simp [ht]⟩

theorem Opens.append (h : Opens a p) : Opens (a ++ b) p := by
  intro cs t r ht
  obtain ⟨t₁, _, t₂, ha, -, rfl⟩ := append_eq_some.1 ht
  obtain ⟨c, t', rfl, hp, hc⟩ := h _ _ _ ha
  exact ⟨c, t' ++ t₂, rfl, hp, hc⟩

theorem Opens.orElse (ha : Opens a p) (hb : Opens b p) : Opens (a <|> b) p := by
  intro cs t r ht
  rcases orElse_eq_some.1 ht with h | ⟨-, h⟩
  · exact ha _ _ _ h
  · exact hb _ _ _ h

theorem Opens.mono (h : Opens a p) (hpq : ∀ c, p c → q c) : Opens a q := by
  intro cs t r ht
  obtain ⟨c, t', he, hp, hc⟩ := h _ _ _ ht
  exact ⟨c, t', he, hpq c hp, hc⟩

theorem rereads_one (q p : Char → Bool) : Rereads (one q) p := by
  intro cs t r h r' _
  obtain ⟨c, hq, -, rfl⟩ := one_eq_some.1 h
  simp [one, hq]

theorem rereads_text (s : String) (p : Char → Bool) : Rereads (text s) p := by
  intro cs t r h r' _
  obtain ⟨-, rfl⟩ := text_eq_some.1 h
  exact text_eq_some.2 ⟨rfl, rfl⟩

theorem run_append_stops (ht : ∀ c ∈ t, p c = true) (hr : Stops p r) :
    run p (t ++ r) = some (t, r) := by
  have hnil : r.takeWhile p = [] ∧ r.dropWhile p = r := by
    cases r with
    | nil => simp
    | cons c r => simp_all
  simp [run, List.takeWhile_append_of_pos ht, List.dropWhile_append_of_pos ht, hnil]

theorem rereads_run (p : Char → Bool) : Rereads (run p) p := by
  intro cs t r h r' hr
  obtain ⟨rfl, rfl⟩ := result_inj h
  exact run_append_stops (List.all_eq_true.1 List.all_takeWhile) hr

/-- A piece of `b` must not begin with a character that would continue the piece of `a`. -/
theorem Rereads.append (ha : Rereads a p) (hb : Rereads b q) (hpq : ∀ c, p c → q c)
    (hs : ∀ cs t r, b cs = some (t, r) → t ≠ [] → Stops p t) : Rereads (a ++ b) q := by
  intro cs t r h r' hr
  obtain ⟨t₁, c, t₂, h₁, h₂, rfl⟩ := append_eq_some.1 h
  refine append_eq_some.2 ⟨t₁, t₂ ++ r', t₂, ?_, hb _ _ _ h₂ r' hr, rfl⟩
  rw [List.append_assoc]
  exact ha _ _ _ h₁ _ (.append (hs _ _ _ h₂) (hr.mono hpq))

theorem Rereads.append_closed (ha : Rereads a p) (hb : Rereads b q) (ho : Opens b o)
    (hop : ∀ c, o c → p c = false) :
    Rereads (a ++ b) q := by
  intro cs t r h r' hr
  obtain ⟨t₁, c, t₂, h₁, h₂, rfl⟩ := append_eq_some.1 h
  refine append_eq_some.2 ⟨t₁, t₂ ++ r', t₂, ?_, hb _ _ _ h₂ r' hr, rfl⟩
  obtain ⟨d, t', rfl, hd, -⟩ := ho _ _ _ h₂
  rw [List.append_assoc]
  exact ha _ _ _ h₁ _ (by simpa using hop d hd)

theorem Rereads.append_of_fixed (ha : ∀ p, Rereads a p) (hb : Rereads b q) : Rereads (a ++ b) q :=
  (ha fun _ => false).append hb (by simp) fun _ _ _ _ _ => fun _ _ => rfl

theorem Rereads.opt (ha : Rereads a p) (ho : Opens a o) (hp : ∀ c, p c → q c)
    (hq : ∀ c, o c → q c) :
    Rereads (opt a) q := by
  intro cs t r h r' hr
  rcases opt_eq_some.1 h with h | ⟨-, rfl, rfl⟩
  · exact opt_eq_some.2 (.inl (ha _ _ _ h r' (hr.mono hp)))
  · exact opt_eq_some.2 (.inr ⟨ho.eq_none (hr.mono hq), rfl, rfl⟩)

theorem Opens.stops_opt (ho : Opens a o) (hop : ∀ c, o c → p c = false) (cs t r : List Char)
    (h : Lexer.opt a cs = some (t, r)) (ht : t ≠ []) : Stops p t := by
  rcases opt_eq_some.1 h with h | ⟨-, rfl, -⟩
  · obtain ⟨c, t', rfl, hc, -⟩ := ho _ _ _ h
    simpa using hop c hc
  · exact absurd rfl ht

theorem opens_word : Opens word Text.startsWord := (opens_one _).append

theorem rereads_word : Rereads word Text.continuesWord :=
  .append_of_fixed (rereads_one _) (rereads_run _)

theorem throughQuote_cons {q c : Char} (h : c ≠ '\\') (cs : List Char) :
    throughQuote q (c :: cs) = if c == q then some ([c], cs)
      else if c == '\n' then none
      else (throughQuote q cs).map fun (s, rest) => (c :: s, rest) := by
  rw [throughQuote]
  · simp [h]
  · rintro c' cs' rfl
    exact absurd rfl h

theorem throughQuote_reread {q : Char} (hq : q ≠ '\\') (h : throughQuote q cs = some (t, r))
    (r' : List Char) :
    throughQuote q (t ++ r') = some (t, r') := by
  fun_induction throughQuote q cs generalizing t with
  | case1 => simp at h
  | case2 c cs ih =>
    obtain ⟨⟨u, v⟩, hu, he⟩ := Option.map_eq_some_iff.1 h
    obtain ⟨rfl, rfl⟩ := Prod.mk.inj he
    simp [throughQuote, ih hu]
  | case3 c cs hne hc =>
    obtain ⟨rfl, rfl⟩ := result_inj h
    obtain rfl : c = q := by simpa using hc
    simp [throughQuote_cons hq]
  | case4 c cs hne hc hb => simp at h
  | case5 c cs hne hc hb ih =>
    obtain ⟨⟨u, v⟩, hu, he⟩ := Option.map_eq_some_iff.1 h
    obtain ⟨rfl, rfl⟩ := Prod.mk.inj he
    simp only [Bool.or_eq_true, beq_iff_eq, not_or] at hb
    simp [throughQuote_cons hb.1, hc, hb.2, ih hu]

theorem opens_quoted (q : Char) : Opens (quoted q) (· == q) := (opens_one _).append

theorem rereads_quoted {q : Char} (hq : q ≠ '\\') (p : Char → Bool) : Rereads (quoted q) p :=
  .append_of_fixed (rereads_one _) fun _ _ _ h r' _ => throughQuote_reread hq h r'

theorem opens_rawString : Opens rawString (· == '\x60') := (opens_text '\x60' rfl).append.append

theorem rereads_rawString (p : Char → Bool) : Rereads rawString p := by
  have hr : Rereads (text "\x60" ++ run (· != '\x60')) (· != '\x60') :=
    .append_of_fixed (rereads_text _) (rereads_run _)
  exact hr.append_closed (rereads_text _ p) (opens_text '\x60' rfl) (by simp)

theorem opens_string : Opens string fun c => c == '"' || c == '\x60' :=
  .orElse ((opens_quoted _).mono (by simp)) (opens_rawString.mono (by simp +contextual))

theorem rereads_string (p : Char → Bool) : Rereads string p := by
  intro cs t r h r' hr
  refine orElse_eq_some.2 ?_
  rcases orElse_eq_some.1 h with h | ⟨-, h⟩
  · exact .inl (rereads_quoted (by decide) p _ _ _ h r' hr)
  · refine .inr ⟨?_, rereads_rawString p _ _ _ h r' hr⟩
    obtain ⟨c, t', rfl, hc, -⟩ := opens_rawString _ _ _ h
    obtain rfl : c = '\x60' := by simpa using hc
    exact (opens_quoted '"').eq_none (by simp)

theorem opens_char : Opens char (· == '\'') := opens_quoted _

theorem rereads_char (p : Char → Bool) : Rereads char p := rereads_quoted (by decide) p

end GoFun.Lex
