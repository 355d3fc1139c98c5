import GoFun.Proofs.Grammar.Sourced
import GoFun.Proofs.Grammar.Spelled

/-!
# Openings of comments

A comment that is not closed is no comment, so its opening is left in the text when literals and
comments are skipped. `Lex.openings` finds the openings that are left. On the way of a parser
through a text they are divisions that a star follows.
-/
namespace GoFun

open Parser List

variable {r : List Char}

namespace Lex

open Lexer

variable {k : Kind} {p : List Char} {o : Nat} {q : Char → Bool}

def skipped : Lexer := string <|> char <|> comment

/-- Looks for openings from the offset `o` on, behind a number of characters to skip. -/
def openingsFrom (o : Nat) : Nat → List Char → List Nat
  | _, [] => []
  | skip + 1, c :: cs => openingsFrom (o + utf8Length [c]) skip cs
  | 0, c :: cs =>
    match skipped (c :: cs) with
    | some (piece, _) => openingsFrom (o + utf8Length [c]) (piece.length - 1) cs
    | none => (if c == '/' && cs.head? == some '*' then [o] else []) ++
      openingsFrom (o + utf8Length [c]) 0 cs

/-- The offsets at which a block comment is opened outside of literals and closed comments. -/
def openings (text : String) : List Nat := openingsFrom 0 0 text.toList

/-- What neither opens a literal in quotes nor a comment. -/
def isQuiet (c : Char) : Bool := !("\"\x60'/".toList.contains c)

theorem lexer_eq_none {c : Char} (hc : k.opening c = false) (cs : List Char) :
    k.lexer (c :: cs) = none := by
  cases h : k.lexer (c :: cs) with
  | none => rfl
  | some x =>
    obtain ⟨d, t, he, ho, -⟩ := k.opens _ _ _ h
    have htakes := k.takes _ _ _ h
    rw [he, cons_append, List.cons.injEq] at htakes
    rw [htakes.1, hc] at ho
    cases ho

theorem skipped_eq (cs : List Char) :
    skipped cs = (Kind.string.lexer cs <|> (Kind.char.lexer cs <|> Kind.comment.lexer cs)) := rfl

theorem skipped_eq_none {c : Char} (hc : isQuiet c = true) (cs : List Char) :
    skipped (c :: cs) = none := by
  simp only [isQuiet, Bool.not_eq_true', contains_eq_mem, decide_eq_false_iff_not,
    String.reduceToList, mem_cons, not_mem_nil, or_false, not_or] at hc
  rw [skipped_eq, lexer_eq_none, lexer_eq_none, lexer_eq_none] <;> simp [Kind.opening, hc]

/-- Literals and comments are told apart by their first characters. -/
theorem skipped_of_lexer (hk : k ∈ [Kind.string, .char, .comment]) {cs : List Char}
    (h : k.lexer cs = some (p, r)) :
    skipped cs = some (p, r) := by
  simp only [mem_cons, not_mem_nil, or_false] at hk
  rw [skipped_eq]
  rcases hk with rfl | rfl | rfl
  · rw [h]; rfl
  · rw [lexer_eq_none_of_opening (j := .string) rfl rfl (by decide) h, h]; rfl
  · rw [lexer_eq_none_of_opening (j := .string) rfl rfl (by decide) h,
      lexer_eq_none_of_opening (j := .char) rfl rfl (by decide) h, h]; rfl

theorem openingsFrom_skip (o : Nat) (p r : List Char) :
    openingsFrom o p.length (p ++ r) = openingsFrom (o + utf8Length p) 0 r := by
  induction p generalizing o with
  | nil => rfl
  | cons c p ih =>
    rw [length_cons, cons_append, openingsFrom, ih, Nat.add_assoc, ← utf8Length_append,
      singleton_append]

theorem openingsFrom_skipped {cs : List Char} (hk : k ∈ [Kind.string, .char, .comment])
    (h : k.lexer cs = some (p, r)) :
    openingsFrom o 0 cs = openingsFrom (o + utf8Length p) 0 r := by
  obtain ⟨c, p, rfl, -⟩ := k.opens _ _ _ h
  obtain rfl := k.takes _ _ _ h
  have hskip := skipped_of_lexer hk h
  rw [cons_append] at hskip ⊢
  rw [openingsFrom, hskip]
  simp only [length_cons, Nat.add_sub_cancel]
  rw [openingsFrom_skip, Nat.add_assoc, ← utf8Length_append, singleton_append]

theorem openingsFrom_quiet (hp : p.all isQuiet = true) (r : List Char) :
    openingsFrom o 0 (p ++ r) = openingsFrom (o + utf8Length p) 0 r := by
  induction p generalizing o with
  | nil => rfl
  | cons c p ih =>
    obtain ⟨hc, hp⟩ := Bool.and_eq_true_iff.1 hp
    have hne : (c == '/') = false := by
      rw [beq_eq_false_iff_ne]
      rintro rfl
      exact absurd hc (by decide)
    rw [cons_append, openingsFrom, skipped_eq_none hc]
    simp only [hne, Bool.false_and, Bool.false_eq_true, if_false, nil_append]
    rw [ih hp, Nat.add_assoc, ← utf8Length_append, singleton_append]

/-- A slash that opens no comment opens one that is not closed, if a star is next. -/
theorem openingsFrom_slash (h : comment ('/' :: r) = none) : openingsFrom o 0 ('/' :: r) =
      (if r.head? = some '*' then [o] else []) ++ openingsFrom (o + utf8Length ['/']) 0 r := by
  have hskip : skipped ('/' :: r) = none := by
    rw [skipped_eq, lexer_eq_none (k := .string) (by decide),
      lexer_eq_none (k := .char) (by decide)]
    simpa [Kind.lexer] using h
  rw [openingsFrom, hskip]
  simp

/-- All pieces of the lexer are made of the characters that `p` allows. -/
def Drawn (p : Char → Bool) (l : Lexer) : Prop := ∀ cs t r, l cs = some (t, r) → t.all p = true

namespace Drawn

variable {p : Char → Bool} {a b : Lexer}

theorem one (h : ∀ c, q c = true → p c = true) : Drawn p (one q) := by
  intro cs t r ht
  obtain ⟨c, hc, -, rfl⟩ := one_eq_some.1 ht
  simpa using h c hc

theorem text {s : String} (h : s.toList.all p = true) : Drawn p (text s) := by
  intro cs t r ht
  rw [(text_append ht).1]
  exact h

theorem run (h : ∀ c, q c = true → p c = true) : Drawn p (run q) := by
  intro cs t r ht
  obtain ⟨rfl, -⟩ := result_inj ht
  exact all_eq_true.2 fun c hc => h c (all_eq_true.1 all_takeWhile c hc)

theorem append (ha : Drawn p a) (hb : Drawn p b) : Drawn p (a ++ b) := by
  intro cs t r ht
  obtain ⟨t₁, c, t₂, h₁, h₂, rfl⟩ := append_eq_some.1 ht
  rw [all_append, ha _ _ _ h₁, hb _ _ _ h₂, Bool.and_self]

theorem orElse (ha : Drawn p a) (hb : Drawn p b) : Drawn p (a <|> b) := by
  intro cs t r ht
  rcases orElse_eq_some.1 ht with h | ⟨-, h⟩
  · exact ha _ _ _ h
  · exact hb _ _ _ h

theorem opt (ha : Drawn p a) : Drawn p (opt a) := by
  intro cs t r ht
  cases h : a cs with
  | none =>
    obtain ⟨rfl, -⟩ : [] = t ∧ cs = r := by simpa [Lexer.opt, h] using ht
    rfl
  | some x =>
    obtain rfl : x = (t, r) := by simpa [Lexer.opt, h] using ht
    exact ha _ _ _ h

theorem check (ha : Drawn p a) (f : List Char → Bool) : Drawn p (a.check f) :=
  fun cs t r ht => ha cs t r (Option.filter_eq_some_iff.1 ht).1

end Drawn

theorem isQuiet_of (h : "\"\x60'/".toList.all (fun c => !q c) = true) (c : Char) (hc : q c = true) :
    isQuiet c = true := by
  rw [isQuiet, contains_eq_false h c hc]
  rfl

theorem drawn_word : Drawn isQuiet word :=
  .append (.one (isQuiet_of (by decide))) (.run (isQuiet_of (by decide)))

theorem drawn_number : Drawn isQuiet number := by
  have hdigit : Drawn isQuiet digit := .one (isQuiet_of (by decide))
  have hdigits : Drawn isQuiet digits := .run (isQuiet_of (by decide))
  have hhex : Drawn isQuiet hexDigits := .run (isQuiet_of (by decide))
  have hexponent : ∀ s : String, s.toList.all isQuiet = true →
      Drawn isQuiet (oneOf s ++ Lexer.opt (oneOf "+-") ++ digit ++ digits) := fun s hs =>
    .append (.append (.append (.one fun c hc => of_contains hs c hc)
      (.opt (.one (isQuiet_of (by decide))))) hdigit) hdigits
  have hdot : Drawn isQuiet (Lexer.text ".") := .text (by decide)
  have hzero : Drawn isQuiet (Lexer.text "0") := .text (by decide)
  refine .append (.orElse (.check ?hex _) (.orElse ?radix (.orElse ?decimal ?fraction)))
    (.opt (.text (by decide)))
  case hex =>
    exact .append (.append (.append (.append hzero (.one (isQuiet_of (by decide)))) hhex)
      (.opt (.append hdot hhex))) (.opt (hexponent "pP" (by decide)))
  case radix =>
    exact .append (.append (.append hzero (.one (isQuiet_of (by decide))))
      (.one (isQuiet_of (by decide)))) (.run (isQuiet_of (by decide)))
  case decimal =>
    exact .append (.append (.append hdigit hdigits) (.opt (.append hdot hdigits)))
      (.opt (hexponent "eE" (by decide)))
  case fraction => exact .append (.append (.append hdot hdigit) hdigits) (.opt (hexponent "eE" (by decide)))

end Lex

/-- What stands at a place of a text does not depend on the way there. -/
theorem Leads.unique {s t u : Cursor} (h : Leads s t) (h' : Leads s u) (ho : t.offset = u.offset) :
    t = u := by
  obtain ⟨p, hp, hpo⟩ := h
  obtain ⟨q, hq, hqo⟩ := h'
  have hlen : utf8Length p = utf8Length q := by omega
  obtain ⟨d, rfl, hd⟩ := append_eq_of_utf8Length_le (hp.symm.trans hq) (Nat.le_of_eq hlen)
  obtain rfl : d = [] := by
    refine utf8Length_eq_zero ?_
    rw [utf8Length_append] at hlen
    omega
  obtain ⟨o, cs⟩ := t
  obtain ⟨o', ds⟩ := u
  obtain rfl : o = o' := ho
  obtain rfl : cs = ds := hd
  rfl

/-- A token is skipped by the search for openings, a division apart, which is one if a star is
next. -/
theorem Token.Stands.openingsFrom {x : Token} (h : x.Stands r) (o : Nat) :
    Lex.openingsFrom o 0 (x.text.toList ++ r) =
      (if x.text = "/" ∧ r.head? = some '*' then [o] else []) ++
      Lex.openingsFrom (o + utf8Length x.text.toList) 0 r := by
  have hpiece : ∀ {k : Lex.Kind}, k ∈ [Lex.Kind.word, .number, .string, .char] →
      k.lexer (x.text.toList ++ r) = some (x.text.toList, r) →
      Lex.openingsFrom o 0 (x.text.toList ++ r) =
        Lex.openingsFrom (o + utf8Length x.text.toList) 0 r ∧ x.text ≠ "/" := by
    intro k hk h
    refine ⟨?_, Grammar.ne_slash_of_lexer hk h⟩
    simp only [mem_cons, not_mem_nil, or_false] at hk
    rcases hk with rfl | rfl | rfl | rfl
    · exact Lex.openingsFrom_quiet (Lex.drawn_word _ _ _ h) r
    · exact Lex.openingsFrom_quiet (Lex.drawn_number _ _ _ h) r
    · exact Lex.openingsFrom_skipped (by simp) h
    · exact Lex.openingsFrom_skipped (by simp) h
  cases h with
  | name h _ | word h =>
    obtain ⟨ho, hne⟩ := hpiece (k := .word) (by simp) h
    simpa [hne] using ho
  | literal hk h =>
    obtain ⟨ho, hne⟩ := hpiece (.tail _ hk) h
    simpa [hne] using ho
  | @sign place w _ hw hc =>
    have hor : (w ≠ "" ∧ w.toList.all Lex.isMark = true) ∨ w = "/" ∨ w = "/=" := by
      simpa [Lex.isOperator, or_assoc] using hw
    rcases hor with ⟨-, hmark⟩ | rfl | rfl
    · have hquiet : w.toList.all Lex.isQuiet = true :=
        all_eq_true.2 fun c hc => Lex.isQuiet_of (by decide) c (all_eq_true.1 hmark c hc)
      have hne : w ≠ "/" := by
        rintro rfl
        exact absurd hmark (by decide)
      simpa [hne] using Lex.openingsFrom_quiet hquiet r
    · simpa using Lex.openingsFrom_slash hc
    · have hslash := Lex.openingsFrom_slash (o := o) (r := '=' :: r) hc
      rw [← singleton_append (l := r), Lex.openingsFrom_quiet (by decide)] at hslash
      simpa [utf8Length, Nat.add_assoc] using hslash

/-- The openings on the way are the divisions with a star behind them. -/
theorem Passes.mem_openingsFrom {s t : Cursor} {ts : List Token} (h : Passes s ts t)
    {src : List Char} (hs : Leads ⟨0, src⟩ s)
    (hplace : ∀ x ∈ ts, x.text = "/" → x.place.isSome = true) (p : Nat) :
    p ∈ Lex.openingsFrom s.offset 0 s.rest ↔
      (∃ x ∈ ts, x.text = "/" ∧ x.place = some (some p) ∧ ∃ r,
      Leads ⟨0, src⟩ ⟨p, '/' :: '*' :: r⟩) ∨
        p ∈ Lex.openingsFrom t.offset 0 t.rest := by
  induction h with
  | done => simp
  | @gap o c cs ts t hc h ih =>
    have hquiet : Lex.isQuiet c = true := by
      simp only [Lex.isGap, Lex.isBlankOrNewline, Lex.isBlank, Bool.or_eq_true, beq_iff_eq] at hc
      rcases hc with (((((rfl | rfl) | rfl) | rfl) | rfl) | rfl) <;> decide
    rw [← ih (hs.trans ⟨[c], rfl, rfl⟩) hplace, ← singleton_append (l := cs),
      Lex.openingsFrom_quiet (p := [c]) (by simpa using hquiet)]
  | @comment o cs q r ts t hc h ih =>
    rw [← ih (hs.trans ⟨q, (Lex.Kind.takes .comment _ _ _ hc).symm, rfl⟩) hplace,
      Lex.openingsFrom_skipped (k := .comment) (by simp) hc]
  | @token o x r ts t hp hx h ih =>
    rw [hx.openingsFrom, mem_append,
      ih (hs.trans ⟨x.text.toList, rfl, rfl⟩) fun y hy => hplace y (mem_cons_of_mem _ hy),
      ← or_assoc]
    refine or_congr_left ?_
    simp only [mem_cons, or_and_right, exists_or, exists_eq_left]
    refine or_congr_left ⟨fun hmem => ?_, ?_⟩
    · split at hmem
      case isTrue hc =>
        obtain rfl : p = o := by simpa using hmem
        obtain ⟨q, hq⟩ := Option.isSome_iff_exists.1 (hplace x (by simp) hc.1)
        obtain ⟨r', rfl⟩ := head?_eq_some_iff.1 hc.2
        refine ⟨hc.1, by rw [hq, hp q hq], r', ?_⟩
        simpa [hc.1] using hs
      case isFalse => simp at hmem
    · rintro ⟨hx, hplaced, r', hlead⟩
      obtain rfl : p = o := Option.some.inj (hp _ hplaced)
      have he := hlead.unique hs rfl
      have hr : '*' :: r' = r := by simpa [hx] using he
      simp [hx, ← hr]

end GoFun
