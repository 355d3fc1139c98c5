import GoFun.Lex.Layout
import GoFun.Proofs.Lex.Number

/-!
# Pieces of a text

At every place of a text there is at most one piece that can be read next: a blank, a comment, a
word, a number, a quoted literal, three dots, or a sign of one character. The kinds exclude each
other by the first character, but for the slash, which may open a comment, and the dot, which may
open a number or stand among two others.
-/
namespace GoFun.Lex

open Lexer

variable {c : Char} {j k : Kind} {a : Lexer} {cs p r : List Char}

def startsLiteral (c : Char) : Bool := isDigit c || c == '.' || c == '"' || c == '\x60' || c == '\''

theorem toNat_lt_of_isAlphanum (h : c.isAlphanum = true) : c.toNat < 0x80 := by
  delta Char.isAlphanum Char.isAlpha Char.isUpper Char.isLower Char.isDigit at h
  simp only [Bool.or_eq_true, Bool.and_eq_true, decide_eq_true_eq, ge_iff_le,
    UInt32.le_iff_toNat_le] at h
  simp only [Char.reduceVal, UInt32.reduceToNat] at h
  change c.val.toNat < 0x80
  omega

theorem startsLiteral_of_startsWord (h : Text.startsWord c = true) : startsLiteral c = false := by
  have hquote : ".\"\x60'".toList.contains c = false := contains_eq_false (by decide) c h
  have hdigit : isDigit c = false := by
    refine Bool.eq_false_iff.2 fun hd => ?_
    have hlt := toNat_lt_of_isAlphanum (isDigit_isAlphanum hd)
    simp only [isDigit, Bool.and_eq_true, decide_eq_true_eq, Char.le_def,
      UInt32.le_iff_toNat_le] at hd
    simp only [Text.startsWord, Text.isLetter, hlt, if_true] at h
    delta Char.isAlpha Char.isUpper Char.isLower at h
    simp only [Bool.or_eq_true, Bool.and_eq_true, decide_eq_true_eq, ge_iff_le,
      UInt32.le_iff_toNat_le, beq_iff_eq] at h
    rcases h with h | rfl
    · simp only [Char.reduceVal, UInt32.reduceToNat] at hd h
      omega
    · exact absurd hd (by decide)
  simp only [startsLiteral, hdigit]
  simpa [and_assoc] using hquote

theorem continuesWord_of_continuesNumber (h : continuesNumber c = true) (hne : c ≠ '.') :
    Text.continuesWord c = true := by
  simp only [continuesNumber, Bool.or_eq_true, beq_iff_eq, hne, or_false] at h
  rcases h with h | rfl
  · have hlt := toNat_lt_of_isAlphanum h
    simp only [Char.isAlphanum, Bool.or_eq_true] at h
    simp [Text.continuesWord, Text.isLetter, Text.isNumeric, hlt, h]
  · decide

inductive Kind where
  | blank | comment | word | number | string | char | dots | sign
  deriving DecidableEq, Repr

/-- Everything that is written with neither letters nor digits, one character at a time. -/
def isSign (c : Char) : Bool := "+-*/%&|^<>=!()[]\x7b\x7d,;.:".toList.contains c

def Kind.lexer : Kind → Lexer
  | blank => one isBlankOrNewline
  | comment => Lex.comment
  | word => Lex.word
  | number => Lex.number
  | string => Lex.string
  | char => Lex.char
  | dots => text "..."
  | sign => one isSign

def Kind.all : List Kind := [blank, comment, word, number, string, char, dots, sign]

/-- The piece at the front of a text and what follows it. -/
def next (cs : List Char) : Option (Kind × List Char × List Char) :=
  Kind.all.findSome? fun k => (k.lexer cs).map (k, ·)

theorem opens_comment : Opens comment (· == '/') :=
  .orElse (opens_text (s := "//") '/' rfl).append (opens_text (s := "/*") '/' rfl).append.append

/-- What the pieces of a kind begin with. -/
def Kind.opening : Kind → Char → Bool
  | blank => isBlankOrNewline
  | comment => (· == '/')
  | word => Text.startsWord
  | number => fun c => isDigit c || c == '.'
  | string => fun c => c == '"' || c == '\x60'
  | char => (· == '\'')
  | dots => (· == '.')
  | sign => isSign

theorem Kind.opens (k : Kind) : Opens k.lexer k.opening := by
  cases k with
  | blank | sign => exact opens_one _
  | comment => exact opens_comment
  | word => exact opens_word
  | number => exact opens_number
  | string => exact opens_string
  | char => exact opens_char
  | dots => exact opens_text '.' rfl

/-- Three dots and signs share their first characters with other kinds. -/
def Kind.isPlain (k : Kind) : Bool := k != .dots && k != .sign

theorem Kind.opening_eq_false (hj : j.isPlain = true) (hk : k.isPlain = true) (hjk : j ≠ k)
    (h : k.opening c = true) :
    j.opening c = false := by
  have hdigit : isDigit c = true → " \t\r\n/\"\x60'".toList.contains c = false :=
    contains_eq_false (by decide) c
  have hletter : Text.startsWord c = true → " \t\r\n/\"\x60'".toList.contains c = false :=
    contains_eq_false (by decide) c
  have hword := @startsLiteral_of_startsWord c
  simp only [startsLiteral, Bool.or_eq_false_iff, beq_eq_false_iff_ne] at hword
  simp only [List.contains_eq_mem, decide_eq_false_iff_not, String.reduceToList, List.mem_cons,
    List.not_mem_nil] at hdigit hletter
  -- There is nothing to calculate with characters, so the arithmetic of `grind` is left out.
  cases j <;> cases k <;>
    first
    | contradiction
    | (simp only [Kind.isPlain, Kind.opening, isBlankOrNewline, isBlank, Bool.or_eq_true,
      Bool.or_eq_false_iff,
        beq_iff_eq, beq_eq_false_iff_ne] at h hj hk ⊢; grind -ring -linarith -order -lia)

/-- The piece and the rest make up the text. -/
def Takes (l : Lexer) : Prop := ∀ cs t r, l cs = some (t, r) → t ++ r = cs

theorem takes_one (p : Char → Bool) : Takes (one p) := by
  intro cs t r h
  obtain ⟨c, -, rfl, rfl⟩ := one_eq_some.1 h
  rfl

theorem takes_text (s : String) : Takes (text s) := fun _ _ _ h => (text_append h).2

theorem takes_run (p : Char → Bool) : Takes (run p) := fun _ _ _ h => run_append h

theorem Takes.append {b : Lexer} (ha : Takes a) (hb : Takes b) : Takes (a ++ b) := by
  intro cs t r h
  obtain ⟨t₁, c, t₂, h₁, h₂, rfl⟩ := append_eq_some.1 h
  rw [List.append_assoc, hb _ _ _ h₂, ha _ _ _ h₁]

theorem Takes.orElse {b : Lexer} (ha : Takes a) (hb : Takes b) : Takes (a <|> b) := by
  intro cs t r h
  rcases orElse_eq_some.1 h with h | ⟨-, h⟩
  · exact ha _ _ _ h
  · exact hb _ _ _ h

theorem Takes.opt (ha : Takes a) : Takes (opt a) := by
  intro cs t r h
  rcases opt_eq_some.1 h with h | ⟨-, rfl, rfl⟩
  · exact ha _ _ _ h
  · rfl

theorem Takes.check (ha : Takes a) (p : List Char → Bool) : Takes (a.check p) :=
  fun _ _ _ h => ha _ _ _ (Option.filter_eq_some_iff.1 h).1

theorem takes_number : Takes number := by
  have hexp : ∀ s, Takes (oneOf s ++ Lexer.opt (oneOf "+-") ++ digit ++ digits) := fun s =>
    (((takes_one _).append (takes_one _).opt).append (takes_one _)).append (takes_run _)
  have hhex : Takes hexNumber :=
    .check ((((takes_text _).append (takes_one _)).append (takes_run _)).append
    ((takes_text _).append (takes_run _)).opt |>.append (hexp _).opt) _
  have hradix : Takes radixNumber :=
    (((takes_text _).append (takes_one _)).append (takes_one _)).append (takes_run _)
  have hdecimal : Takes decimalNumber :=
    (((takes_one _).append (takes_run _)).append ((takes_text _).append (takes_run _)).opt).append
      (hexp _).opt
  have hfraction : Takes fractionNumber :=
    (((takes_text _).append (takes_one _)).append (takes_run _)).append (hexp _).opt
  exact (hhex.orElse (hradix.orElse (hdecimal.orElse hfraction))).append (takes_text _).opt

theorem takes_throughQuote (q : Char) : Takes (throughQuote q) := by
  intro cs t r h
  fun_induction throughQuote q cs generalizing t with
  | case1 => simp at h
  | case2 c cs ih | case5 c cs hne hc hb ih =>
    obtain ⟨⟨u, v⟩, hu, he⟩ := Option.map_eq_some_iff.1 h
    obtain ⟨rfl, rfl⟩ := Prod.mk.inj he
    simp [ih _ hu]
  | case3 c cs hne hc =>
    obtain ⟨rfl, rfl⟩ := result_inj h
    rfl
  | case4 c cs hne hc hb => simp at h

theorem Kind.takes (k : Kind) : Takes k.lexer := by
  have hquoted : ∀ q, Takes (quoted q) := fun q => (takes_one _).append (takes_throughQuote q)
  cases k with
  | blank | sign => exact takes_one _
  | comment => exact fun _ _ _ h => (comment_append h).2
  | word => exact (takes_one _).append (takes_run _)
  | number => exact takes_number
  | string => exact (hquoted _).orElse (((takes_text _).append (takes_run _)).append (takes_text _))
  | char => exact hquoted _
  | dots => exact takes_text _

theorem lexer_of_next (h : next cs = some (k, p, r)) : k.lexer cs = some (p, r) := by
  obtain ⟨j, -, hj⟩ := List.exists_of_findSome?_eq_some h
  obtain ⟨x, hx, he⟩ := Option.map_eq_some_iff.1 hj
  obtain ⟨rfl, rfl⟩ := Prod.mk.inj he
  exact hx

theorem next_append (h : next cs = some (k, p, r)) : p ≠ [] ∧ p ++ r = cs := by
  obtain ⟨c, t, rfl, -⟩ := k.opens _ _ _ (lexer_of_next h)
  exact ⟨by simp, k.takes _ _ _ (lexer_of_next h)⟩

theorem next_of_first (before after : List Kind) (hk : Kind.all = before ++ k :: after)
    (hb : ∀ j ∈ before, j.lexer cs = none) (h : k.lexer cs = some (p, r)) :
    next cs = some (k, p, r) := by
  have hn : before.findSome? (fun j => (j.lexer cs).map (j, ·)) = none := by
    simp only [List.findSome?_eq_none_iff, Option.map_eq_none_iff]
    exact hb
  simp [next, hk, List.findSome?_append, hn, h]

theorem lexer_eq_none_of_opening (hj : j.isPlain = true) (hk : k.isPlain = true) (hjk : j ≠ k)
    (h : k.lexer cs = some (p, r)) : j.lexer cs = none := by
  obtain ⟨c, t, -, hc, hh⟩ := k.opens _ _ _ h
  refine j.opens.eq_none fun d hd => ?_
  obtain rfl : c = d := Option.some.inj (hh.symm.trans hd)
  exact Kind.opening_eq_false hj hk hjk hc

theorem Kind.exists_before (hk : k.isPlain = true) :
    ∃ before after, Kind.all = before ++ k :: after ∧ ∀ j ∈ before, j.isPlain = true ∧ j ≠ k := by
  refine ⟨Kind.all.takeWhile (· != k), (Kind.all.dropWhile (· != k)).tail, ?_⟩
  cases k with
  | dots | sign => simp [Kind.isPlain] at hk
  | _ => decide

theorem next_of_lexer (hk : k.isPlain = true) (h : k.lexer cs = some (p, r)) :
    next cs = some (k, p, r) := by
  obtain ⟨before, after, ha, hb⟩ := Kind.exists_before hk
  refine next_of_first before after ha (fun j hj => ?_) h
  exact lexer_eq_none_of_opening (hb j hj).1 hk (hb j hj).2 h

/-- A dot opens a number only before a digit. -/
theorem number_dot_eq_none (h : Stops isDigit cs) : number ('.' :: cs) = none := by
  cases hn : number ('.' :: cs) with
  | none => rfl
  | some x =>
    obtain ⟨t₁, r, t₂, hx, -, -⟩ := append_eq_some.1 hn
    rw [orElse_eq_some, opens_hexNumber.eq_none (by simp), orElse_eq_some,
      opens_radixNumber.eq_none (by simp), orElse_eq_some,
        opens_decimalNumber.eq_none (by simp; decide)] at hx
    simp only [reduceCtorEq, true_and, false_or] at hx
    obtain ⟨_, _, _, hx, -, -⟩ := append_eq_some.1 hx
    obtain ⟨_, _, _, hx, -, -⟩ := append_eq_some.1 hx
    obtain ⟨_, _, _, hdot, hdigit, -⟩ := append_eq_some.1 hx
    obtain ⟨hdot, -⟩ := text_eq_some.1 hdot
    obtain ⟨c, hc, rfl, -⟩ := one_eq_some.1 hdigit
    obtain ⟨-, rfl⟩ := List.cons.inj hdot
    simp [hc] at h

theorem Kind.opening_sign (hc : isSign c = true) (hj : j ∈ [Kind.blank, .word, .string, .char]) :
    j.opening c = false := by
  have hsigns : ∀ p : Char → Bool,
      "+-*/%&|^<>=!()[]\x7b\x7d,;.:".toList.all (fun c => !p c) = true → p c = false :=
    fun p hp => eq_false_of_contains hp c hc
  simp only [List.mem_cons, List.not_mem_nil, or_false] at hj
  rcases hj with rfl | rfl | rfl | rfl <;> exact hsigns _ (by decide)

theorem next_dots (r : List Char) : next ("...".toList ++ r) = some (.dots, "...".toList, r) := by
  refine next_of_first [.blank, .comment, .word, .number, .string, .char] [.sign] rfl ?_
    (text_eq_some.2 ⟨rfl, rfl⟩)
  intro j hj
  by_cases hn : j = .number
  · subst hn
    exact number_dot_eq_none (by simp; decide)
  · refine j.opens.eq_none ?_
    simp only [List.mem_cons, List.not_mem_nil, or_false, hn, false_or] at hj
    rcases hj with rfl | rfl | rfl | rfl | rfl <;> exact (stops_cons _ _ _).2 (by decide)

/-- A sign is next where it opens neither a comment nor a number nor three dots. -/
theorem next_sign_of_none (hc : isSign c = true) (hcomment : comment (c :: r) = none)
    (hnumber : number (c :: r) = none)
    (hdots : text "..." (c :: r) = none) : next (c :: r) = some (.sign, [c], r) := by
  refine next_of_first [.blank, .comment, .word, .number, .string, .char, .dots] [] rfl ?_
    (one_eq_some.2 ⟨c, hc, rfl, rfl⟩)
  have hopen : ∀ j ∈ [Kind.blank, .word, .string, .char], j.lexer (c :: r) = none := fun j hj =>
    j.opens.eq_none ((stops_cons _ _ _).2 (Kind.opening_sign hc hj))
  simp only [List.mem_cons, List.not_mem_nil, or_false]
  rintro j (rfl | rfl | rfl | rfl | rfl | rfl | rfl)
  · exact hopen _ (by simp)
  · exact hcomment
  · exact hopen _ (by simp)
  · exact hnumber
  · exact hopen _ (by simp)
  · exact hopen _ (by simp)
  · exact hdots

theorem next_sign (hc : isSign c = true) (hcomment : comment (c :: r) = none)
    (hdot : c = '.' → Stops (fun d => isDigit d || d == '.') r) :
    next (c :: r) = some (.sign, [c], r) := by
  have hdigit : isDigit c = false := eq_false_of_contains (by decide) c hc
  have hnumber : number (c :: r) = none := by
    by_cases h : c = '.'
    · subst h
      exact number_dot_eq_none ((hdot rfl).mono (by simp +contextual))
    · exact opens_number.eq_none (by simp [hdigit, h])
  have hdots : text "..." (c :: r) = none := by
    by_cases h : c = '.'
    · subst h
      have hr := hdot rfl
      cases r with
      | nil => rfl
      | cons d r =>
        have hd : d ≠ '.' := by
          simp only [stops_cons, Bool.or_eq_false_iff, beq_eq_false_iff_ne] at hr
          exact hr.2
        simp [text, hd.symm]
    · exact (opens_text '.' rfl).eq_none (by simp [h])
  exact next_sign_of_none hc hcomment hnumber hdots

end GoFun.Lex
