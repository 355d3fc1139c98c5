import GoFun.Proofs.Grammar.Token
import GoFun.Proofs.Tree.Leaf

/-!
# Pieces of a text

A parser that succeeds has gone over the text piece by piece. `Trail stop n s ls` says that the
pieces lead from the cursor `s` to the cursor `stop`, that the leaves `ls` are met on the way in
this order, and that there are `n` closing brackets on it without their opening ones. What the
single tokens of the grammar take is read off here.
-/
namespace GoFun

open Parser Lex List

variable {n : Nat} {ls : List Leaf} {blank : Char → Bool} {c : Char} {b : Bool}
variable {cs r : List Char} {x : Nat × List Char} {a : Unit} {o : Nat}

namespace Lex

def isOpening (c : Char) : Bool := c == '(' || c == '[' || c == '\x7b'

def isClosing (c : Char) : Bool := c == ')' || c == ']' || c == '\x7d'

/-- The closing brackets that are open to match, before a piece and after it. -/
inductive Turns : Kind → List Char → Nat → Nat → Prop
  | opening {c : Char} {n : Nat} (h : isOpening c = true) : Turns .sign [c] n (n + 1)
  | closing {c : Char} {n : Nat} (h : isClosing c = true) : Turns .sign [c] (n + 1) n
  | level {k : Kind} {p : List Char} {n : Nat}
      (h : ∀ c ∈ p, k = .sign → isOpening c = false ∧ isClosing c = false) :
      Turns k p n n

end Lex

/-- The leaf that a piece at an offset is, if it is one. -/
def leafOf (k : Lex.Kind) (p : List Char) (offset : Nat) : List Leaf :=
  match k with
  | .word => if String.ofList p ∈ Lex.keywords then [] else [⟨some offset, String.ofList p⟩]
  | .number | .string | .char => [⟨some offset, String.ofList p⟩]
  | .blank | .comment | .dots | .sign => []

/-- The pieces from a cursor to `stop`. Where imports are read a dot may stand for a name, also in
front of a digit. -/
inductive Trail (imports : Bool) (stop : Cursor) : Nat → Cursor → List Leaf → Prop
  | stop : Trail imports stop 0 stop []
  | piece {o : Nat} {cs p r : List Char} {k : Lex.Kind} {n m : Nat} {ls : List Leaf}
      (hn : Lex.next cs = some (k, p, r))
      (ht : Lex.Turns k p n m) (h : Trail imports stop m ⟨o + utf8Length p, r⟩ ls) :
      Trail imports stop n ⟨o, cs⟩ (leafOf k p o ++ ls)
  | dot {o : Nat} {r : List Char} {n : Nat} {ls : List Leaf} (hi : imports = true)
      (h : Trail imports stop n ⟨o + 1, r⟩ ls) : Trail imports stop n ⟨o, '.' :: r⟩
      (⟨some o, "."⟩ :: ls)

theorem Trail.suffix {imports : Bool} {stop s : Cursor} (h : Trail imports stop n s ls) :
    stop.rest <:+ s.rest := by
  induction h with
  | stop => exact suffix_rfl
  | piece hn ht h ih =>
    rw [← (next_append hn).2]
    exact ih.trans (suffix_append ..)
  | dot hi h ih => exact ih.trans (suffix_cons ..)

/-- No blanks and no comment come next. A line break may. -/
def Trimmed (s : Cursor) : Prop := Lex.trim Lex.isBlank s.rest = s.rest

theorem Lex.trim_eq (blank : Char → Bool) (cs : List Char) :
    trim blank cs = [] ∨ ∃ c r, trim blank cs = c :: r ∧ blank c = false ∧
    comment (c :: r) = none := by
  unfold trim
  fun_induction layout blank cs with
  | case1 => exact .inl rfl
  | case2 c tail hc s rest hl ih => simpa [hl] using ih
  | case3 c tail hc s rest hcm hlt t last hl ih => simpa [hl] using ih
  | case4 c tail hc hcm => exact .inr ⟨c, tail, rfl, by simpa using hc, hcm⟩

theorem Lex.layout_comment {s rest : List Char} (hb : blank '/' = false)
    (h : comment cs = some (s, rest)) :
    layout blank cs = (s ++ (layout blank rest).1, (layout blank rest).2) := by
  obtain ⟨c, t, -, hc, hs⟩ := opens_comment _ _ _ h
  obtain rfl : c = '/' := by simpa using hc
  obtain ⟨tail, rfl⟩ := head?_eq_some_iff.1 hs
  rw [layout]
  simp only [hb, Bool.false_eq_true, if_false]
  split
  case h_1 s' rest' h' =>
    obtain ⟨rfl, rfl⟩ := Prod.mk.inj (Option.some.inj (h.symm.trans h'))
    rfl
  case h_2 h' => rw [h] at h'; cases h'

theorem Lex.layout_blank (hc : blank c = true) (cs : List Char) :
    layout blank (c :: cs) = (c :: (layout blank cs).1, (layout blank cs).2) := by
  rw [layout]
  simp [hc]

theorem Lex.layout_stop (hb : blank c = false) (h : comment (c :: cs) = none) :
    layout blank (c :: cs) = ([], c :: cs) := by
  rw [layout]
  simp only [hb, Bool.false_eq_true, if_false]
  split
  case h_1 h' => rw [h] at h'; cases h'
  case h_2 => rfl

theorem Trimmed.comment_eq_none {s : Cursor} (h : Trimmed s) : comment s.rest = none := by
  rcases trim_eq isBlank s.rest with hn | ⟨c, r, hr, -, hc⟩
  · rw [← h, hn]
    rfl
  · rw [← h, hr, hc]

/-- From `u` to `t` there is nothing but layout, and at `t` it ends. -/
def Skips (u t : Cursor) : Prop :=
  ∃ blank, (blank = Lex.isBlank ∨ blank = Lex.isBlankOrNewline) ∧ skip blank u = some ((), t)

theorem Skips.trimmed {u t : Cursor} (h : Skips u t) : Trimmed t := by
  obtain ⟨blank, hb, ht⟩ := h
  obtain ⟨-, rfl⟩ := result_inj ht
  have hle : ∀ c, blank c = false → isBlank c = false := by
    rcases hb with rfl | rfl
    · exact fun _ h => h
    · intro c hc
      exact (Bool.or_eq_false_iff.1 hc).1
  change trim isBlank (trim blank u.rest) = trim blank u.rest
  rcases trim_eq blank u.rest with hn | ⟨c, r, hr, hc, hcm⟩
  · rw [hn, trim_nil]
  · rw [hr, trim_of_comment_eq_none (hle c hc) hcm]

theorem Skips.rest_eq {u t : Cursor} (h : Skips u t) (hc : u.rest.head? = some c)
    (hb : isBlankOrNewline c = false) (hs : c ≠ '/') : t.rest = u.rest := by
  obtain ⟨blank, hblank, ht⟩ := h
  obtain ⟨-, rfl⟩ := result_inj ht
  obtain ⟨r, hr⟩ := head?_eq_some_iff.1 hc
  have hn : blank c = false := by
    rcases hblank with rfl | rfl
    · exact (Bool.or_eq_false_iff.1 hb).1
    · exact hb
  change trim blank u.rest = u.rest
  rw [hr, trim_of_ne hn hs]

theorem Skips.trail {u t stop : Cursor} (h : Skips u t) (ht : Trail b stop n t ls) :
    Trail b stop n u ls := by
  obtain ⟨blank, hb, hu⟩ := h
  obtain ⟨-, rfl⟩ := result_inj hu
  have hle : ∀ c, blank c = true → isBlankOrNewline c = true := by
    rcases hb with rfl | rfl
    · intro c hc
      simp [isBlankOrNewline, hc]
    · exact fun _ h => h
  obtain ⟨o, cs⟩ := u
  clear hu
  simp only at ht ⊢
  fun_induction layout blank cs generalizing o with
  | case1 => simpa [utf8Length] using ht
  | case2 c tail hc s rest hl ih =>
    have hn : Lex.next (c :: tail) = some (.blank, [c], tail) :=
      next_of_lexer rfl (one_eq_some.2 ⟨c, hle c hc, rfl, rfl⟩)
    refine .piece hn (.level (by simp)) (ih _ ?_)
    simpa [hl, utf8Length, Nat.add_assoc] using ht
  | case3 c tail hc s rest hcm hlt t last hl ih =>
    refine .piece (next_of_lexer (k := .comment) rfl hcm) (.level (by simp)) (ih _ ?_)
    simpa [hl, utf8Length, Nat.add_assoc] using ht
  | case4 c tail hc hcm => simpa [utf8Length] using ht

theorem Parser.lexeme_eq_some {l : Lexer} {s t : Cursor} (h : lexeme l s = some (x, t)) :
    ∃ r, l s.rest = some (x.2, r) ∧ x.1 = s.offset ∧ t = ⟨s.offset + utf8Length x.2, r⟩ := by
  unfold lexeme at h
  split at h
  case h_1 piece rest hl =>
    obtain ⟨rfl, rfl⟩ := result_inj h
    exact ⟨rest, hl, rfl, rfl⟩
  case h_2 => cases h

theorem Parser.guard_eq_some {c : Prop} [Decidable c] {s t : Cursor}
    (h : (guard c : Parser Unit) s = some (a, t)) :
    c ∧ t = s := by
  by_cases hc : c
  · rw [guard_eq_pure hc] at h
    obtain ⟨-, rfl⟩ := result_inj h
    exact ⟨hc, rfl⟩
  · rw [guard_eq_failure hc] at h
    cases h

theorem Parser.notNext_eq_some {chars : String} {s t : Cursor} (h : notNext chars s = some (a, t)) :
    Stops (chars.toList.contains ·) s.rest ∧ t = s := by
  unfold notNext at h
  split at h
  · cases h
  · rename_i hn
    obtain ⟨-, rfl⟩ := result_inj h
    refine ⟨fun c hc => ?_, rfl⟩
    simpa [Option.mem_def.1 hc] using hn

theorem Skips.length_le {u t : Cursor} (h : Skips u t) : t.rest.length ≤ u.rest.length :=
  (h.trail (b := false) .stop).suffix.length_le

/-- From `s` to `t` there is the text `sym` and layout behind it. -/
def Spells (sym : String) (s t : Cursor) : Prop :=
  ∃ u, s.rest = sym.toList ++ u.rest ∧ u.offset = s.offset + utf8Length sym.toList ∧ Skips u t

theorem Spells.length_lt {sym : String} {s t : Cursor} (h : Spells sym s t)
    (hsym : sym.toList ≠ []) :
    t.rest.length < s.rest.length := by
  obtain ⟨u, hr, -, hu⟩ := h
  have hle := hu.length_le
  have hpos := length_pos_iff.2 hsym
  rw [hr, length_append]
  omega

theorem Parser.text_eq_some {sym : String} {s u : Cursor}
    (h : lexeme (Lexer.text sym) s = some (x, u)) :
    x.1 = s.offset ∧ s.rest = sym.toList ++ u.rest ∧
    u.offset = s.offset + utf8Length sym.toList := by
  obtain ⟨r, hr, ho, rfl⟩ := lexeme_eq_some h
  obtain ⟨hs, hx⟩ := Lex.text_eq_some.1 hr
  exact ⟨ho, hs, by rw [hx]⟩

theorem Parser.skip_eq_some {α : Type} {a : Unit → α} {u t : Cursor} {x : α}
    (h : (skip blank >>= fun y => pure (a y)) u = some (x, t)) :
    x = a () ∧ skip blank u = some ((), t) := by
  obtain ⟨⟨⟩, hv, rfl⟩ := give_eq_some h
  exact ⟨rfl, hv⟩

namespace Lex

/-- The signs that are not brackets and open nothing but themselves. -/
def isPlainSign (c : Char) : Bool := "+-*%&|^<>=!,;:".toList.contains c

/-- Operators, commas, colons and semicolons. Only their first character may be a slash. -/
def isSymbol (sym : String) : Bool :=
  match sym.toList with
  | [] => false
  | c :: cs => (isPlainSign c || c == '/') && cs.all isPlainSign

theorem of_isPlainSign (h : isPlainSign c = true) :
    isSign c = true ∧ isOpening c = false ∧ isClosing c = false ∧ c ≠ '/' ∧ c ≠ '.' := by
  have hp : ∀ p : Char → Bool, "+-*%&|^<>=!,;:".toList.all p = true → p c = true :=
    fun p hp => of_contains hp c h
  have := hp (fun c => isSign c && !isOpening c && !isClosing c && c != '/' && c != '.') (by decide)
  simpa [and_assoc] using this

end Lex

theorem Trail.plainSign {stop : Cursor} (hc : Lex.isSign c = true) (ho : isOpening c = false)
    (hl : isClosing c = false) (hd : c ≠ '.') (hcm : comment (c :: r) = none)
    (h : Trail b stop n ⟨o + utf8Length [c], r⟩ ls) :
    Trail b stop n ⟨o, c :: r⟩ ls :=
  .piece (next_sign hc hcm fun h => absurd h hd) (.level (by simp [ho, hl])) h

theorem Trail.plainSigns {stop : Cursor} (sym : List Char) (hs : sym.all isPlainSign = true)
    (h : Trail b stop n ⟨o + utf8Length sym, r⟩ ls) : Trail b stop n ⟨o, sym ++ r⟩ ls := by
  induction sym generalizing o with
  | nil => simpa [utf8Length] using h
  | cons c sym ih =>
    simp only [all_cons, Bool.and_eq_true] at hs
    obtain ⟨hc, hopen, hclose, hslash, hdot⟩ := of_isPlainSign hs.1
    refine .plainSign hc hopen hclose hdot (comment_eq_none hslash) (ih hs.2 ?_)
    simpa [utf8Length, Nat.add_assoc] using h

theorem Trail.symbol {s u stop : Cursor} {sym : String} (hsym : isSymbol sym = true)
    (hs : Trimmed s) (hr : s.rest = sym.toList ++ u.rest)
    (ho : u.offset = s.offset + utf8Length sym.toList) (h : Trail b stop n u ls) :
    Trail b stop n s ls := by
  obtain ⟨o, cs⟩ := s
  obtain ⟨o', r⟩ := u
  obtain rfl : cs = sym.toList ++ r := hr
  obtain rfl : o' = o + utf8Length sym.toList := ho
  have hcm := hs.comment_eq_none
  unfold isSymbol at hsym
  split at hsym
  case h_1 => cases hsym
  case h_2 c sym' he =>
    simp only at hcm
    rw [he] at h hcm ⊢
    simp only [Bool.and_eq_true, Bool.or_eq_true, beq_iff_eq] at hsym
    rw [cons_append] at hcm ⊢
    have htail : Trail b stop n ⟨o + utf8Length [c], sym' ++ r⟩ ls :=
      .plainSigns sym' hsym.2 (by simpa [utf8Length, Nat.add_assoc] using h)
    rcases hsym.1 with hc | rfl
    · obtain ⟨hc, hopen, hclose, hslash, hdot⟩ := of_isPlainSign hc
      exact .plainSign hc hopen hclose hdot hcm htail
    · exact .plainSign (by decide) (by decide) (by decide) (by decide) hcm htail

/-- A dot before anything that begins with neither a digit nor a dot is a piece by itself. -/
theorem Spells.next_dot {s t : Cursor} (h : Spells "." s t)
    (hstop : Stops (fun d => isDigit d || d == '.') t.rest) :
    ∃ r, s.rest = '.' :: r ∧ Lex.next s.rest = some (.sign, ['.'], r) ∧
    Skips ⟨s.offset + utf8Length ['.'], r⟩ t := by
  obtain ⟨⟨o, r⟩, hr, ho, hu⟩ := h
  obtain rfl : o = s.offset + utf8Length ['.'] := ho
  refine ⟨r, hr, ?_, hu⟩
  rw [show s.rest = '.' :: r from hr]
  refine next_sign (by decide) (comment_eq_none (by decide)) fun _ d hd =>
    Bool.eq_false_iff.2 fun hdd => ?_
  -- no layout begins with a digit or a dot, so such a character would be left at `t`
  have hlayout : " \t\r\n/".toList.contains d = false :=
    contains_eq_false (p := fun d => isDigit d || d == '.') (by decide) d hdd
  simp only [contains_eq_mem, decide_eq_false_iff_not, String.reduceToList, mem_cons, not_mem_nil,
    or_false, not_or] at hlayout
  have hrest : t.rest = r :=
    hu.rest_eq hd (by simp [isBlankOrNewline, isBlank, hlayout]) hlayout.2.2.2.2
  have hfalse := hstop d (by rw [hrest]; exact hd)
  simp [hdd] at hfalse

theorem Lex.turns_dot (n : Nat) : Turns .sign ['.'] n n :=
  .level fun c hc _ => by
    rw [mem_singleton.1 hc]
    decide

end GoFun

namespace GoFun.Grammar

open Parser

variable {a : Pos}
variable {id : Ident}

theorem token_eq_some {sym : String} {s t : Cursor} (h : token sym s = some (a, t)) :
    a = some s.offset ∧ Spells sym s t := by
  obtain ⟨x, u, hx, h⟩ := bind_eq_some h
  obtain ⟨rfl, ht⟩ := skip_eq_some h
  obtain ⟨ho, hs, hu⟩ := text_eq_some hx
  exact ⟨by rw [ho], u, hs, hu, _, .inl rfl, ht⟩

theorem tokenNl_eq_some {sym : String} {s t : Cursor} (h : tokenNl sym s = some (a, t)) :
    a = some s.offset ∧ Spells sym s t := by
  obtain ⟨x, u, hx, h⟩ := bind_eq_some h
  obtain ⟨rfl, ht⟩ := skip_eq_some h
  obtain ⟨ho, hs, hu⟩ := text_eq_some hx
  exact ⟨by rw [ho], u, hs, hu, _, .inr rfl, ht⟩

theorem keyword_eq_some {w : String} {s t : Cursor} (h : keyword w s = some (a, t)) :
    a = some s.offset ∧ ∃ r, Lex.word s.rest = some (w.toList, r) ∧
    Skips ⟨s.offset + utf8Length w.toList, r⟩ t := by
  obtain ⟨x, u, hx, h⟩ := bind_eq_some h
  obtain ⟨⟨⟩, u', hg, h⟩ := bind_eq_some h
  obtain ⟨rfl, ht⟩ := skip_eq_some h
  obtain ⟨r, hw, ho, rfl⟩ := lexeme_eq_some hx
  obtain ⟨rfl, rfl⟩ := guard_eq_some hg
  exact ⟨by rw [ho], r, by simpa using hw, _, .inl rfl, by simpa using ht⟩

theorem ident_eq_some {s t : Cursor} (h : ident s = some (id, t)) :
    id = ⟨some s.offset, id.name, none⟩ ∧ id.name ∉ Lex.keywords ∧
      ∃ r, Lex.word s.rest = some (id.name.toList, r) ∧
      Skips ⟨s.offset + utf8Length id.name.toList, r⟩ t := by
  obtain ⟨x, u, hx, h⟩ := bind_eq_some h
  obtain ⟨⟨⟩, u', hg, h⟩ := bind_eq_some h
  obtain ⟨rfl, ht⟩ := skip_eq_some h
  obtain ⟨r, hw, ho, rfl⟩ := lexeme_eq_some hx
  obtain ⟨hk, rfl⟩ := guard_eq_some hg
  exact ⟨by rw [ho], hk, r, by simpa using hw, _, .inl rfl, by simpa using ht⟩

theorem ident_stops {s t : Cursor} (h : ident s = some (id, t)) :
    Lex.Stops (fun d => Lex.isDigit d || d == '.') s.rest := by
  obtain ⟨-, -, r, hr, -⟩ := ident_eq_some h
  obtain ⟨c, -, -, hc, hs⟩ := Lex.opens_word _ _ _ hr
  intro d hd
  obtain rfl : c = d := Option.some.inj (hs.symm.trans hd)
  have hl := Lex.startsLiteral_of_startsWord hc
  simp only [Lex.startsLiteral, Bool.or_eq_false_iff] at hl
  simp [hl]

theorem literalOf_eq_some {kind : List Char → LitKind} {lexer : Lexer} {s t : Cursor} {l : Literal}
    (h : literalOf kind lexer s = some (l, t)) :
    l = ⟨some s.offset, kind l.text.toList, l.text⟩ ∧
      ∃ r, lexer s.rest = some (l.text.toList, r) ∧
      Skips ⟨s.offset + utf8Length l.text.toList, r⟩ t := by
  obtain ⟨x, u, hx, h⟩ := bind_eq_some h
  obtain ⟨rfl, ht⟩ := skip_eq_some h
  obtain ⟨r, hw, ho, rfl⟩ := lexeme_eq_some hx
  exact ⟨by simp [ho], r, by simpa using hw, _, .inl rfl, by simpa using ht⟩

theorem tokenOf_eq_some {α : Type} {spelling : α → String} {choices : List α} {s u : Cursor}
    {x : Pos × α} (h : tokenOf spelling choices s = some (x, u)) :
    x.1 = some s.offset ∧ x.2 ∈ choices ∧
      s.rest = (spelling x.2).toList ++ u.rest ∧
      u.offset = s.offset + utf8Length (spelling x.2).toList := by
  obtain ⟨y, hy, h⟩ := firstM_eq_some h
  obtain ⟨z, hz, rfl⟩ := give_eq_some h
  obtain ⟨ho, hr⟩ := text_eq_some hz
  exact ⟨by rw [ho], hy, hr⟩

theorem operator_eq_some {op : BinaryOp} {longer : String} {s t : Cursor} {x : Pos × BinaryOp}
    (h : operator op longer s = some (x, t)) : x = (some s.offset, op) ∧ Spells op.symbol s t := by
  obtain ⟨y, u, hy, h⟩ := bind_eq_some h
  obtain ⟨⟨⟩, u', hn, h⟩ := bind_eq_some h
  obtain ⟨rfl, ht⟩ := skip_eq_some h
  obtain ⟨-, rfl⟩ := notNext_eq_some hn
  obtain ⟨ho, hs, hu⟩ := text_eq_some hy
  exact ⟨by rw [ho], u', hs, hu, _, .inr rfl, ht⟩

theorem operatorOf_eq_some {level : List (BinaryOp × String)} {s t : Cursor} {x : Pos × BinaryOp}
    (h : operatorOf level s = some (x, t)) : x.1 = some s.offset ∧ Spells x.2.symbol s t := by
  obtain ⟨y, -, h⟩ := firstM_eq_some h
  obtain ⟨rfl, hs⟩ := operator_eq_some h
  exact ⟨rfl, hs⟩

theorem labelColon_eq_some {s t : Cursor} (h : labelColon s = some (a, t)) :
    a = some s.offset ∧ Spells ":" s t := by
  obtain ⟨y, u, hy, h⟩ := bind_eq_some h
  obtain ⟨⟨⟩, u', hn, h⟩ := bind_eq_some h
  obtain ⟨rfl, ht⟩ := skip_eq_some h
  obtain ⟨-, rfl⟩ := notNext_eq_some hn
  obtain ⟨ho, hs, hu⟩ := text_eq_some hy
  exact ⟨by rw [ho], u', hs, hu, _, .inr rfl, ht⟩

theorem atEnd_eq_some {s t : Cursor} {a : Unit} (h : atEnd s = some (a, t)) :
    s.rest = [] ∧ t = s := by
  unfold atEnd at h
  split at h
  case isTrue he =>
    obtain ⟨-, rfl⟩ := result_inj h
    exact ⟨by simpa using he, rfl⟩
  case isFalse => cases h

end GoFun.Grammar
