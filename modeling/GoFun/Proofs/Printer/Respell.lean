import GoFun.Proofs.Printer.Plain

/-!
# Reading printed operands

The text of a plain expression is read as an expression of the same shape. The statement for a part
is made for every text behind it that does not continue it. An operand or a chain is read only as
far as the part goes, in a form that further suffixes or operators can be added to. This file has
operands and the suffixes that hold no list.
-/
namespace GoFun

open Parser Grammar Lex

variable {n : Nat} {p : Parens} {e x : Expr} {cs : List Char} {c : Char}
variable {d : Char} {l r : Pos} {bound max : Option Expr}

/-- Equal up to positions, objects and the parentheses that `p` leaves out. -/
def Same (p : Parens) (e e' : Expr) : Prop := e'.shape p = e.shape p

/-- The text behind an expression does not continue its last token. -/
structure Boundary (e : Expr) (rest : List Char) : Prop where
  word : Lex.Stops Text.continuesWord rest
  number : e.endsInNumber = true → Lex.Stops (· == '.') rest

/-- The text `cs` up to `next` is read as `e`, by the rule for the strength that `e` binds with. -/
structure Respells (n : Nat) (inHeader : Bool) (p : Parens) (e : Expr) (cs next : List Char) :
    Prop where
  primary : e.rank = 7 → Lex.Stops startsLead cs ∧
    Spine (operand (rules n)) (tail (rules n) inHeader) Suffix.apply cs next (Same p e)
  unary : e.rank = 6 → Idle (tail (rules n) inHeader) next →
    Reads (binding (primaryOf (rules n) inHeader) 6) cs next (Same p e)
  binary : e.rank < 6 → Ends n inHeader (e.rank + 1) next →
    Spine (binding (primaryOf (rules n) inHeader) (e.rank + 1))
      (do return (← operatorOf (levelAt e.rank), ← binding (primaryOf (rules n) inHeader)
        (e.rank + 1)))
      (fun x st => joinBinary x st.1 st.2) cs next (Same p e)

theorem Respells.reads {inHeader : Bool} {next : List Char} (h : Respells n inHeader p e cs next)
    {k : Nat} (hk : k ≤ e.rank) (hk' : k ≤ 6) (hends : Ends n inHeader k next) :
    Reads (binding (primaryOf (rules n) inHeader) k) cs next (Same p e) := by
  have hown : Reads (binding (primaryOf (rules n) inHeader) (min e.rank 6)) cs next (Same p e) := by
    have hle := e.rank_le
    rcases Nat.lt_trichotomy e.rank 6 with hlt | heq | hgt
    · rw [Nat.min_eq_left (Nat.le_of_lt hlt), binding_eq_chain _ e.rank_pos hlt]
      exact (h.binary hlt (hends.mono (by omega))).chain (hends.operators _ hk hlt)
    · rw [heq]
      exact h.unary heq hends.tail
    · have hseven : e.rank = 7 := by omega
      rw [hseven]
      obtain ⟨hlead, hspine⟩ := h.primary hseven
      exact reads_unaryExpr (hspine.many hends.tail) hlead
  exact reads_binding_of_le (Nat.le_min.2 ⟨hk, hk'⟩) (Nat.min_le_right _ _) hown hends.operators

theorem Respells.of_spine {inHeader : Bool} {next : List Char} (he : e.rank = 7)
    (hlead : Stops startsLead cs)
    (h : Spine (operand (rules n)) (tail (rules n) inHeader) Suffix.apply cs next (Same p e)) :
    Respells n inHeader p e cs next where
  primary _ := ⟨hlead, h⟩
  unary h6 := absurd h6 (by omega)
  binary hlt := absurd hlt (by omega)

/-- The text of `e`, in a slot that asks for no parentheses, is read as `e` in front of any text
that does not continue it. -/
def Expr.Rereads (p : Parens) (e : Expr) : Prop :=
  ∀ m level slot n inHeader rest, slot.bare = false → slot.strength ≤ e.rank →
    (e.print m level slot).toList.length ≤ n → (inHeader = true → e.exposed = false) →
    Boundary e rest →
    Respells n inHeader p e ((e.print m level slot).toList ++ rest) (Lex.trim Lex.isBlank rest)

def isCloser (c : Char) : Bool := ")]\x7d:,".toList.contains c

theorem boundary_closer (e : Expr) (hc : isCloser c = true) (rest : List Char) :
    Boundary e (c :: rest) where
  word := by simpa using eq_false_of_contains (by decide) c hc
  number _ := by simpa using eq_false_of_contains (p := (· == '.')) (by decide) c hc

theorem ends_closer (n k : Nat) (inHeader : Bool) (hc : isCloser c = true) (rest : List Char) :
    Ends n inHeader k (c :: rest) := by
  have hsuffix : startsSuffix c = false := eq_false_of_contains (by decide) c hc
  have hop : startsOperator c = false := eq_false_of_contains (by decide) c hc
  have hbrace : (c == '\x7b') = false := eq_false_of_contains (p := (· == '\x7b')) (by decide) c hc
  exact ends_of_stops n k (by simp [hsuffix, hop, hbrace])

theorem stops_layout_closer (hc : isCloser c = true) (rest : List Char) :
    Stops startsLayout (c :: rest) := by
  simpa using eq_false_of_contains (by decide) c hc

theorem Expr.Rereads.reads_expr (h : x.Rereads p) (m : SourceMap) (level depth : Nat)
    (hn : (x.print m level { depth }).toList.length ≤ n) (rest : List Char) (hb : Boundary x rest)
    (he : Ends n false 0 (trim isBlank rest)) :
    Reads (rules (n + 1)).expr ((x.print m level { depth }).toList ++ rest) (trim isBlank rest)
      (Same p x) :=
  (h m level _ n false rest rfl (Nat.zero_le _) hn (by simp) hb).reads (Nat.zero_le _)
    (Nat.zero_le _) he

theorem Expr.Rereads.reads_closed (h : x.Rereads p) (m : SourceMap) (level depth : Nat)
    (hn : (x.print m level { depth }).toList.length ≤ n) (hc : isCloser c = true)
    (rest : List Char) :
    Reads (rules (n + 1)).expr ((x.print m level { depth }).toList ++ c :: rest) (c :: rest)
      (Same p x) := by
  have htrim := trim_isBlank (stops_layout_closer hc rest)
  have hread :=
    h.reads_expr m level depth hn (c :: rest) (boundary_closer x hc rest)
      (by rw [htrim]; exact ends_closer n 0 false hc rest)
  rwa [htrim] at hread

theorem Expr.rereads_ident (p : Parens) {id : Ident} (h : IsName id.name) :
    (Expr.ident id).Rereads p := by
  intro m level slot n inHeader rest _ _ _ _ hb
  obtain ⟨c, t, ht, hc⟩ := h.head
  refine .of_spine rfl ?_ (.of_reads ((reads_operand_name (rules n) h hb.word).mono ?_))
  · have hlead : startsLead c = false := contains_eq_false (by decide) c hc
    simpa [Expr.print, ht] using hlead
  · rintro e ⟨id', rfl, hid⟩
    simp [Same, Expr.shape, Ident.shape, hid]

theorem Expr.rereads_lit (p : Parens) {l : Literal} (h : l.IsWritten) : (Expr.lit l).Rereads p := by
  intro m level slot n inHeader rest _ _ _ _ hb
  obtain ⟨c, t, ht, hc⟩ := h.head
  have hnumber : l.isNumber = true → Stops continuesNumber rest := by
    intro hl d hd
    refine Bool.eq_false_iff.2 fun hcont => ?_
    have hdot : d ≠ '.' := by simpa using hb.number hl d hd
    have hword := hb.word d hd
    simp [continuesWord_of_continuesNumber hcont hdot] at hword
  refine .of_spine rfl ?_ (.of_reads ((reads_operand_literal (rules n) h hnumber).mono ?_))
  · have hlead : startsLead c = false := contains_eq_false (by decide) c hc
    simpa [Expr.print, ht] using hlead
  · rintro e ⟨l', rfl, hl⟩
    simp [Same, Expr.shape, hl]

theorem Parens.around_of_isParen (hp : p ≠ .kept) (hx : x.isParen = true) :
    p.around (x.shape p) = x.shape p := by
  cases x with
  | paren l y r =>
    cases p with
    | kept => exact absurd rfl hp
    | merged => simp only [Parens.around, Expr.shape]; split <;> simp_all [Expr.isParen]
    | dropped => rfl
  | _ => simp [Expr.isParen] at hx

theorem Expr.rereads_paren (hp : p ≠ .kept) (hx : x.Rereads p) (hbegins : Phrase.Begins (.expr x))
    (l r : Pos) :
    (Expr.paren l x r).Rereads p := by
  intro m level slot n inHeader rest hbare _ hn _ hb
  have hprint : (Expr.paren l x r).print m level slot =
      if x.isParen then x.print m level { depth := slot.depth }
      else "(" ++ x.print m level { depth := shallower slot.depth } ++ ")" := by
    simp [Expr.print, hbare]
  rw [hprint] at hn ⊢
  split at hn
  case isTrue hparen =>
    -- The inner pair of doubled parentheses is read for both.
    have hseven : x.rank = 7 := by cases x <;> simp_all [Expr.isParen, Expr.rank]
    have hinner := hx m level { depth := slot.depth } n inHeader rest rfl (Nat.zero_le _) hn
      (by cases x <;> simp_all [Expr.isParen, Expr.exposed])
      ⟨hb.word, by cases x <;> simp_all [Expr.isParen, Expr.endsInNumber]⟩
    obtain ⟨hlead, hspine⟩ := hinner.primary hseven
    rw [if_pos hparen]
    refine .of_spine rfl hlead (hspine.mono fun y hy => ?_)
    rw [Same, Expr.shape, Parens.around_of_isParen hp hparen]
    exact hy
  case isFalse hparen =>
    rw [if_neg hparen]
    simp only [String.toList_append, List.append_assoc, List.length_append] at hn ⊢
    obtain ⟨n, rfl⟩ : ∃ n', n = n' + 1 := ⟨n - 1, by simp at hn; omega⟩
    have hlayout :=
      hbegins.stops_layout m level { depth := shallower slot.depth } rfl (Nat.zero_le _)
        (')' :: rest)
    have hread :=
      hx.reads_closed m level (shallower slot.depth) (n := n) (by simp at hn; omega) (c := ')')
        (by decide)
      rest
    refine .of_spine rfl (by simp; decide) (.of_reads ((reads_operand_paren _ (reads_parenExpr _
      (trim_isBlankOrNewline hlayout) hread (trim_isBlankOrNewline (by simp; decide)))).mono ?_))
    rintro e ⟨l', y, r', rfl, hy⟩
    rw [Same, Expr.shape, Expr.shape, hy]

theorem reads_tail_of_suffix {g : Rules} {inHeader : Bool} {next : List Char} {P : Suffix → Prop}
    (h : Reads (suffix g) cs next P) : Reads (tail g inHeader) cs next P := by
  cases inHeader with
  | true => exact h
  | false => exact .orElse h

theorem boundary_suffix {x : Expr} {d : Char} (hd : ".[(\x7b".toList.contains d = true)
    (hx : d = '.' → x.endsInNumber = false) (rest : List Char) : Boundary x (d :: rest) where
  word := by simpa using eq_false_of_contains (by decide) d hd
  number hn := by
    simp only [stops_cons, beq_eq_false_iff_ne, ne_eq]
    intro heq
    simp [hx heq] at hn

theorem Expr.Rereads.suffixed {p : Parens} {x e : Expr} (hx : x.Rereads p) (hf : x.Fits 7)
    (he : e.rank = 7) {m : SourceMap} {level n : Nat} {slot : Slot} {inHeader : Bool} {d : Char}
    {cs rest : List Char} {Q : Suffix → Prop} (hbare : slot.bare = false)
    (hslot : slot.strength ≤ 7) (hn : (x.print m level slot).toList.length ≤ n)
    (hexp : inHeader = true → x.exposed = false) (hd : ".[(\x7b".toList.contains d = true)
    (hdot : d = '.' → x.endsInNumber = false)
    (hs : Reads (tail (rules n) inHeader) (d :: cs) (trim isBlank rest) Q)
    (hle : rest.length ≤ cs.length) (hQ : ∀ x' s, Same p x x' → Q s → Same p e (s.apply x')) :
    Respells n inHeader p e ((x.print m level slot).toList ++ d :: cs) (trim isBlank rest) := by
  have hrank : x.rank = 7 := Nat.le_antisymm x.rank_le hf.1
  have hbase :=
    hx m level slot n inHeader (d :: cs) hbare (by omega) hn hexp (boundary_suffix hd hdot cs)
  obtain ⟨hlead, hspine⟩ := hbase.primary hrank
  have hlayout : startsLayout d = false := eq_false_of_contains (by decide) d hd
  rw [trim_isBlank (by simpa using hlayout)] at hspine
  refine .of_spine he hlead (hspine.snoc hs ?_ hQ)
  have hlen := length_trim_le isBlank rest
  simp only [List.length_cons]
  omega

theorem Expr.rereads_selector (hx : x.Rereads p) {sel : Ident} (hf : (Expr.selector x sel).Formed)
    (hplain : (Expr.selector x sel).isPlain = true) : (Expr.selector x sel).Rereads p := by
  intro m level slot n inHeader rest _ _ hn hexp hb
  have hnumber : x.endsInNumber = false := by simpa [hf.1.endsInNumber, Expr.isPlain] using hplain
  simp only [Expr.print, String.toList_append, List.append_assoc, List.length_append] at hn ⊢
  refine hx.suffixed hf.1 rfl rfl (Nat.le_refl 7) (by omega) hexp (by decide) (fun _ => hnumber)
    (reads_tail_of_suffix (reads_selector _ hf.2 hb.word)) (by simp) ?_
  rintro x' s hx' ⟨sel', rfl, hsel⟩
  simp only [Same, Suffix.apply, Expr.shape, Ident.shape, hsel]
  rw [hx']

theorem Expr.rereads_index {i : Expr} (hx : x.Rereads p) (hi : i.Rereads p)
    (hbegins : Phrase.Begins (.expr i))
    (hf : (Expr.index x l i r).Formed) : (Expr.index x l i r).Rereads p := by
  intro m level slot n inHeader rest _ _ hn hexp hb
  simp only [Expr.print, String.toList_append, List.append_assoc, List.length_append] at hn ⊢
  obtain ⟨n, rfl⟩ : ∃ n', n = n' + 1 := ⟨n - 1, by simp at hn; omega⟩
  have hlayout :=
    hbegins.stops_layout m level { depth := slot.depth + 1 } rfl (Nat.zero_le _) (']' :: rest)
  have hread :=
    hi.reads_closed m level (slot.depth + 1) (n := n) (by simp at hn; omega) (c := ']') (by decide)
      rest
  refine hx.suffixed hf.1 rfl rfl (Nat.le_refl 7) (by omega) hexp (by decide)
    (fun h => absurd h (by decide))
    (reads_tail_of_suffix (reads_index _ (trim_isBlankOrNewline hlayout) hread)) (by simp; omega) ?_
  rintro x' s hx' ⟨l', i', r', rfl, hi'⟩
  simp only [Same, Suffix.apply, Expr.shape]
  rw [hx', hi']

def gap (bound : Option Expr) (blanks : Bool) : List Char :=
  if bound.isSome && blanks then [' '] else []

theorem sliceColon_toList (blanks : Bool) (before after : Option Expr) :
    (sliceColon blanks before after).toList = gap before blanks ++ ':' :: gap after blanks := by
  simp only [sliceColon, gap, String.toList_append]
  split <;> split <;> rfl

theorem trim_gap (h : ∀ e ∈ bound, Phrase.Begins (.expr e)) (m : SourceMap) (level depth : Nat)
    (blanks blanks' : Bool) (hc : isCloser c = true) (rest : List Char) : trim isBlankOrNewline
        (gap bound blanks ++ ((printExpr? m level { depth } bound).toList ++
        (gap bound blanks' ++ c :: rest))) =
      (printExpr? m level { depth } bound).toList ++ (gap bound blanks' ++ c :: rest) := by
  cases bound with
  | none => simpa [gap, printExpr?] using trim_isBlankOrNewline (stops_layout_closer hc rest)
  | some e =>
    have hlayout :=
      (h e rfl).stops_layout m level { depth } rfl (Nat.zero_le _)
        (gap (some e) blanks' ++ c :: rest)
    have htrim := trim_isBlankOrNewline hlayout
    cases blanks with
    | false => simpa [gap, printExpr?] using htrim
    | true =>
      rw [show gap (some e) true = [' '] from rfl]
      exact (trim_blank (by decide) _).trans htrim

theorem reads_bound (h : ∀ e ∈ bound, e.Rereads p) (m : SourceMap) (level depth : Nat)
    (hn : (printExpr? m level { depth } bound).toList.length ≤ n) (blanks : Bool)
    (hc : isCloser c = true) (rest : List Char) : Reads (optional (rules (n + 1)).expr)
      ((printExpr? m level { depth } bound).toList ++ (gap bound blanks ++ c :: rest)) (c :: rest)
      fun b => shapeExpr? p b = shapeExpr? p bound := by
  cases bound with
  | none =>
    have hidle : Idle (rules (n + 1)).expr (c :: rest) := by
      refine idle_rules_expr (n + 1) ?_
      simpa using eq_false_of_contains (by decide) c hc
    refine (Idle.opt hidle).mono ?_
    rintro b rfl
    rfl
  | some e =>
    have htrim := trim_isBlank (stops_layout_closer hc rest)
    have hread : Reads (rules (n + 1)).expr
        ((e.print m level { depth }).toList ++ (gap (some e) blanks ++ c :: rest))
        (c :: rest) (Same p e) := by
      cases blanks with
      | false => exact (h e rfl).reads_closed m level depth hn hc rest
      | true =>
        have htrim' :
            trim isBlank (' ' :: c :: rest) = c :: rest := by rw [trim_blank (by decide), htrim]
        have hread := (h e rfl).reads_expr m level depth hn (' ' :: c :: rest)
          ⟨by simp; decide, by simp⟩ (by rw [htrim']; exact ends_closer n 0 false hc rest)
        rwa [htrim'] at hread
    refine hread.opt.mono ?_
    rintro b ⟨e', rfl, he⟩
    simp only [shapeExpr?]
    rw [he]

@[simp] theorem gap_false (bound : Option Expr) : gap bound false = [] := by simp [gap]

/-- Behind the second bound of a slice stands the closing bracket, or another colon and the last
bound. -/
theorem reads_max (h : ∀ e ∈ max, e.Rereads p ∧ Phrase.Begins (.expr e)) (m : SourceMap)
    (level depth : Nat) (hn : (printExpr? m level { depth } max).toList.length ≤ n)
    (high : Option Expr) (blanks : Bool) (rest : List Char) :
    ∃ c behind blanks', isCloser c = true ∧
      (if max.isSome = true then sliceColon blanks high max else "").toList ++
        ((printExpr? m level { depth } max).toList ++ ']' :: rest) = gap high blanks' ++ c ::
        behind ∧
      Reads (optional (tokenNl ":" *> (rules (n + 1)).expr)) (c :: behind) (']' :: rest)
        fun b => shapeExpr? p b = shapeExpr? p max := by
  cases max with
  | none =>
    refine ⟨']', rest, false, by decide, by simp [printExpr?], ?_⟩
    refine (Idle.opt (.seqRight (idle_tokenNl (by simp [List.isPrefixOf])))).mono ?_
    rintro b rfl
    rfl
  | some e =>
    refine ⟨':', gap (some e) blanks ++ ((printExpr? m level { depth } (some e)).toList ++ ']' ::
      rest), blanks, by decide, by simp [sliceColon_toList], ?_⟩
    have hcolon := reads_bracket (s := ":") rfl
      (gap (some e) blanks ++ ((printExpr? m level { depth } (some e)).toList ++ ']' :: rest))
    have htrim :=
      trim_gap (fun e he => (h e he).2) m level depth blanks false (c := ']') (by decide) rest
    rw [gap_false, List.nil_append] at htrim
    rw [htrim] at hcolon
    have hread := (h e rfl).1.reads_closed m level depth hn (c := ']') (by decide) rest
    refine (hcolon.seqRight hread).opt.mono ?_
    rintro b ⟨e', rfl, he⟩
    simp only [shapeExpr?]
    rw [he]

theorem Expr.rereads_slice {low high : Option Expr} (hx : x.Rereads p)
    (hlow : ∀ e ∈ low, e.Rereads p ∧ Phrase.Begins (.expr e))
    (hhigh : ∀ e ∈ high, e.Rereads p ∧ Phrase.Begins (.expr e))
    (hmax : ∀ e ∈ max, e.Rereads p ∧ Phrase.Begins (.expr e))
    (hf : (Expr.slice x l low high max r).Formed) :
    (Expr.slice x l low high max r).Rereads p := by
  intro m level slot n inHeader rest _ _ hn hexp hb
  simp only [Expr.print, String.toList_append, List.append_assoc, List.length_append,
    sliceColon_toList] at hn ⊢
  obtain ⟨n, rfl⟩ : ∃ n', n = n' + 1 := ⟨n - 1, by simp at hn; omega⟩
  generalize sliceBlanks slot.depth low high max = blanks at hn ⊢
  obtain ⟨c, behind, blanks', hc, hbehind, hlast⟩ :=
    reads_max hmax m level (slot.depth + 1) (n := n) (by simp at hn; omega) high blanks rest
  have hsecond :=
    reads_bound (fun e he => (hhigh e he).1) m level (slot.depth + 1) (n := n)
      (by simp at hn; omega)
    blanks' hc behind
  have htrim₁ :=
    trim_gap (fun e he => (hhigh e he).2) m level (slot.depth + 1) blanks blanks' hc behind
  have hfirst :=
    reads_bound (fun e he => (hlow e he).1) m level (slot.depth + 1) (n := n) (by simp at hn; omega)
    blanks (c := ':') (by decide) (gap high blanks ++
      ((printExpr? m level { depth := slot.depth + 1 } high).toList ++
        (gap high blanks' ++ c :: behind)))
  have htrim :=
    trim_gap (fun e he => (hlow e he).2) m level (slot.depth + 1) false blanks (c := ':')
      (by decide)
    (gap high blanks ++ ((printExpr? m level { depth := slot.depth + 1 } high).toList ++
        (gap high blanks' ++ c :: behind)))
  rw [gap_false, List.nil_append] at htrim
  rw [show "]".toList ++ rest = ']' :: rest from rfl, hbehind]
  have hlen : rest.length ≤ (gap high blanks' ++ c :: behind).length := by
    rw [← hbehind]
    simp
    omega
  simp only [List.cons_append]
  refine hx.suffixed hf.1 rfl rfl (Nat.le_refl 7) (by omega) hexp (by decide)
    (fun h => absurd h (by decide))
    (reads_tail_of_suffix (reads_slice _ htrim hfirst htrim₁ hsecond hlast))
    (by simp at hlen ⊢; omega) ?_
  rintro x' s hx' ⟨l', low', high', max', r', rfl, hl, hh, hm⟩
  simp only [Same, Suffix.apply, Expr.shape]
  rw [hx', hl, hh, hm]

end GoFun
