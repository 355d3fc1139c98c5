import GoFun.Proofs.Printer.Respell

/-!
# Reading printed lists

The arguments of a call and the elements of a composite literal are printed with commas between
them, on as many lines as they had. A list that ends on a line before its closing bracket gets a
comma and a line break at its end.
-/
namespace GoFun

open Parser Grammar Lex List

variable {c : Char} {e : Expr} {es : List Expr} {p : Parens} {n : Nat}

theorem isBlankOrNewline_of_mem_tabs (level : Nat) (h : c ∈ '\n' :: (tabs level).toList) :
    isBlankOrNewline c = true := by
  simp only [tabs, String.toList_ofList, mem_cons, mem_replicate] at h
  rcases h with rfl | ⟨-, rfl⟩ <;> decide

theorem printItems_cons (m : SourceMap) (level depth line : Nat) (first : Bool) (e : Expr)
    (es : List Expr) :
    ∃ sep, (∀ c ∈ sep, isBlankOrNewline c = true) ∧
      (printItems m level depth line first (e :: es)).1.toList =
        (if first then [] else [',']) ++ (sep ++ ((e.print m level { depth }).toList ++
          (printItems m level depth (m.line e.stop) false es).1.toList)) := by
  by_cases hbreak : (0 < line && line < m.line e.start) = true
  · refine ⟨'\n' :: (tabs level).toList, fun c => isBlankOrNewline_of_mem_tabs level, ?_⟩
    cases first <;> simp [printItems, hbreak]
  · cases first with
    | true => exact ⟨[], by simp, by simp [printItems, hbreak]⟩
    | false => exact ⟨[' '], by simp; decide, by simp [printItems, hbreak]⟩

theorem length_print_le_printItems (m : SourceMap) (level depth line : Nat) (first : Bool)
    (he : e ∈ es) :
    (e.print m level { depth }).toList.length ≤
      (printItems m level depth line first es).1.toList.length := by
  induction es generalizing line first with
  | nil => cases he
  | cons d es ih =>
    obtain ⟨sep, -, htext⟩ := printItems_cons m level depth line first d es
    rw [htext]
    simp only [length_append]
    rcases mem_cons.1 he with rfl | he
    · omega
    · have := ih (m.line d.stop) false he
      omega

structure ItemEnd (n : Nat) (e : Expr) (rest : List Char) : Prop where
  boundary : Boundary e rest
  ends : Ends n false 0 (Lex.trim Lex.isBlank rest)
  colon : Lex.Stops (· == ':') (Lex.trim Lex.isBlank rest)

theorem ItemEnd.closer (n : Nat) (e : Expr) {c : Char} (hc : ")]\x7d,".toList.contains c = true)
    (rest : List Char) :
    ItemEnd n e (c :: rest) := by
  have hc' : isCloser c = true := of_contains (by decide) c hc
  have htrim := trim_isBlank (stops_layout_closer hc' rest)
  refine ⟨boundary_closer e hc' rest, ?_, ?_⟩
  · rw [htrim]
    exact ends_closer n 0 false hc' rest
  · rw [htrim]
    simpa using eq_false_of_contains (p := (· == ':')) (by decide) c hc

theorem ItemEnd.dots (n : Nat) (he : e.endsInNumber = false) (rest : List Char) :
    ItemEnd n e ('.' :: '.' :: rest) := by
  have htrim : trim isBlank ('.' :: '.' :: rest) = '.' :: '.' :: rest :=
    trim_isBlank (by simp; decide)
  refine ⟨⟨by simp; decide, by simp [he]⟩, ?_, ?_⟩
  · rw [htrim]
    exact ends_dots n false 0 rest
  · rw [htrim]
    simp

section Items

variable {p : Parens} {item : Parser Expr} {n : Nat} {m : SourceMap} {level depth : Nat}

/-- Items are read by `item` in front of every text that ends them. -/
def ReadsItems (p : Parens) (item : Parser Expr) (n : Nat) (m : SourceMap) (level depth : Nat)
    (es : List Expr) : Prop :=
  ∀ e ∈ es, Phrase.Begins (.expr e) ∧ ∀ rest, ItemEnd n e rest →
    Reads item ((e.print m level { depth }).toList ++ rest) (Lex.trim Lex.isBlank rest) (Same p e)

theorem itemEnd_items {line : Nat} {after : List Char}
    (hlast : ∀ d ∈ (e :: es).getLast?, ItemEnd n d after) :
    ItemEnd n e ((printItems m level depth line false es).1.toList ++ after) := by
  cases es with
  | nil => exact hlast e rfl
  | cons d es =>
    obtain ⟨sep, -, htext⟩ := printItems_cons m level depth line false d es
    rw [htext]
    exact .closer n e (by decide) _

theorem series_items (h : ReadsItems p item n m level depth es) {after : List Char}
    (hlast : ∀ e ∈ es.getLast?, ItemEnd n e after) (line : Nat) : Series (tokenNl "," *> item)
      (trim isBlank ((printItems m level depth line false es).1.toList ++ after))
      (trim isBlank after)
      fun xs => shapeExprs p xs = shapeExprs p es := by
  induction es generalizing line with
  | nil => exact .nil rfl
  | cons e es ih =>
    obtain ⟨hbegins, hread⟩ := h e (by simp)
    obtain ⟨sep, hsep, htext⟩ := printItems_cons m level depth line false e es
    have hlast' : ∀ d ∈ es.getLast?, ItemEnd n d after := by
      cases es with
      | nil => simp
      | cons d es => simpa using hlast
    have hcomma := reads_bracket (s := ",") rfl (sep ++ ((e.print m level { depth }).toList ++
      ((printItems m level depth (m.line e.stop) false es).1.toList ++ after)))
    rw [trim_append_of_all hsep, trim_isBlankOrNewline
      (hbegins.stops_layout m level _ rfl (Nat.zero_le _) _)] at hcomma
    rw [htext]
    simp only [Bool.false_eq_true, if_false, append_assoc, cons_append, nil_append]
    rw [trim_isBlank (by simp; decide)]
    refine .cons (hcomma.seqRight (hread _ (itemEnd_items hlast))) ?_
      (ih (fun d hd => h d (by simp [hd])) hlast' (m.line e.stop)) fun x xs hx hxs => ?_
    · have hlen :=
        length_trim_le isBlank ((printItems m level depth (m.line e.stop) false es).1.toList ++
          after)
      simp only [length_cons, length_append] at hlen ⊢
      omega
    · simp only [shapeExprs]
      rw [hx, hxs]

theorem reads_items (h : ReadsItems p item n m level depth (e :: es)) {after : List Char}
    (hlast : ∀ d ∈ (e :: es).getLast?, ItemEnd n d after)
    (hidle : Idle (tokenNl "," *> item) (trim isBlank after)) (line : Nat) :
    Reads (sepBy1 item (tokenNl ","))
      (trim isBlankOrNewline ((printItems m level depth line true (e :: es)).1.toList ++ after))
      (trim isBlank after) fun xs => shapeExprs p xs = shapeExprs p (e :: es) := by
  obtain ⟨hbegins, hread⟩ := h e (by simp)
  obtain ⟨sep, hsep, htext⟩ := printItems_cons m level depth line true e es
  have hlast' : ∀ d ∈ es.getLast?, ItemEnd n d after := by
    cases es with
    | nil => simp
    | cons d es => simpa using hlast
  rw [htext]
  simp only [if_true, append_assoc, nil_append]
  rw [trim_append_of_all hsep, trim_isBlankOrNewline
    (hbegins.stops_layout m level _ rfl (Nat.zero_le _) _)]
  refine (hread _ (itemEnd_items hlast)).sepBy1
    (series_items (fun d hd => h d (by simp [hd])) hlast' _) hidle ?_
  intro x xs hx hxs
  simp only [shapeExprs]
  rw [hx, hxs]

end Items

/-- What can stand between the last item and the closing bracket. -/
inductive Trailing : List Char → Prop
  | nothing : Trailing []
  | comma {sep : List Char} (blank : ∀ c ∈ sep, Lex.isBlankOrNewline c = true) : Trailing
      (',' :: sep)

theorem trailing_closeItems (m : SourceMap) (level lastLine : Nat) (closing : Pos) :
    Trailing (closeItems m level lastLine false closing).toList := by
  unfold closeItems
  split
  · simpa using Trailing.comma (fun c => isBlankOrNewline_of_mem_tabs level)
  · exact .nothing

theorem blank_closeItems (m : SourceMap) (level lastLine : Nat) (closing : Pos) :
    ∀ c ∈ (closeItems m level lastLine true closing).toList, isBlankOrNewline c = true := by
  unfold closeItems
  split
  · intro c hc
    exact isBlankOrNewline_of_mem_tabs level (by simpa using hc)
  · simp

namespace Trailing

variable {close : List Char} {c : Char} {rest : List Char}

theorem stops_layout (h : Trailing close) (hc : isCloser c = true) (rest : List Char) :
    Stops startsLayout (close ++ c :: rest) := by
  cases h with
  | nothing => exact stops_layout_closer hc rest
  | comma _ => simp; decide

theorem itemEnd (h : Trailing close) (hc : ")]\x7d,".toList.contains c = true) (n : Nat)
    (e : Expr) :
    ItemEnd n e (close ++ c :: rest) := by
  cases h with
  | nothing => exact .closer n e hc rest
  | comma _ => exact .closer n e (by decide) _

theorem idle_item (h : Trailing close) (hc : isCloser c = true) (hne : c ≠ ',') {item : Parser Expr}
    (hi : Idle item (c :: rest)) : Idle (tokenNl "," *> item) (close ++ c :: rest) := by
  cases h with
  | nothing => exact .seqRight (idle_tokenNl (by simpa [List.isPrefixOf] using hne.symm))
  | @comma sep hblank =>
    have hcomma := reads_bracket (s := ",") rfl (sep ++ c :: rest)
    rw [trim_append_of_all hblank, trim_isBlankOrNewline (stops_layout_closer hc rest)] at hcomma
    exact .seqRight' hcomma hi

theorem reads_comma (h : Trailing close) (hc : isCloser c = true) (hne : c ≠ ',')
    (rest : List Char) :
    Reads (optional (tokenNl ",")) (close ++ c :: rest) (c :: rest) fun _ => True := by
  cases h with
  | nothing =>
    have hidle : Idle (tokenNl ",") (c :: rest) :=
      idle_tokenNl (by simpa [List.isPrefixOf] using hne.symm)
    exact hidle.opt.mono fun _ _ => trivial
  | @comma sep hblank =>
    have hcomma := reads_bracket (s := ",") rfl (sep ++ c :: rest)
    rw [trim_append_of_all hblank, trim_isBlankOrNewline (stops_layout_closer hc rest)] at hcomma
    exact hcomma.opt.mono fun _ _ => trivial

end Trailing

theorem Pos.mark_eq_mark {a b : Pos} (h : a.isSome = b.isSome) : a.mark = b.mark := by
  cases a <;> cases b <;> simp_all [Pos.mark]

theorem readsItems_exprs (h : ∀ e ∈ es, e.Rereads p ∧ Phrase.Begins (.expr e)) (m : SourceMap)
    (level depth : Nat) (hn : ∀ e ∈ es, (e.print m level { depth }).toList.length ≤ n) :
    ReadsItems p (rules (n + 1)).expr n m level depth es := fun e he =>
  ⟨(h e he).2, fun rest hend => (h e he).1.reads_expr m level depth (hn e he) rest hend.boundary
    hend.ends⟩

theorem reads_args {m : SourceMap} {level depth : Nat} {args : List Expr} {dots : Pos}
    (h : ReadsItems p (rules (n + 1)).expr n m level depth args)
    (hdots : dots.isSome = true → ∀ a ∈ args.getLast?, a.endsInNumber = false)
    (line lastLine level' : Nat) (closing : Pos) (rest : List Char) : ∃ cs₁ cs₂ cs₃,
      Reads (sepBy (rules (n + 1)).expr (tokenNl ",")) (trim isBlankOrNewline
        ((printItems m level depth line true args).1.toList ++
        ((if dots.isSome then "..." else "").toList ++
          ((closeItems m level' lastLine args.isEmpty closing).toList ++ ')' :: rest)))) cs₁
        (fun xs => shapeExprs p xs = shapeExprs p args) ∧
      Reads (optional (tokenNl "...")) cs₁ cs₂ (fun d => d.join.isSome = dots.isSome) ∧
      Reads (optional (tokenNl ",")) cs₂ cs₃ (fun _ => True) ∧
      trim isBlankOrNewline cs₃ = ')' :: rest := by
  have hclose : trim isBlankOrNewline (')' :: rest) = ')' :: rest :=
    trim_isBlankOrNewline (by simp; decide)
  have hparen : Idle (rules (n + 1)).expr (')' :: rest) := idle_rules_expr _ (by simp; decide)
  have hnone : ∀ c cs, c ≠ '.' → Reads (optional (tokenNl "...")) (c :: cs) (c :: cs) fun d =>
      d.join.isSome = false := by
    intro c cs hc
    refine (idle_tokenNl (by simp [List.isPrefixOf, hc.symm])).opt.mono ?_
    rintro d rfl
    rfl
  have hsome :
      ∀ cs, Reads (optional (tokenNl "...")) ("...".toList ++ cs) (trim isBlankOrNewline cs)
      fun d => d.join.isSome = true := by
    intro cs
    refine (reads_tokenNl "..." cs).opt.mono ?_
    rintro d ⟨pos, rfl, hpos⟩
    exact hpos
  cases args with
  | nil =>
    have htrim := trim_append_of_all (blank_closeItems m level' lastLine closing) (')' :: rest)
    rw [hclose] at htrim
    have hcomma := Trailing.nothing.reads_comma (c := ')') (by decide) (by decide) rest
    simp only [isEmpty_nil]
    generalize (closeItems m level' lastLine true closing).toList = close at htrim
    cases hd : dots.isSome with
    | true =>
      refine ⟨"...".toList ++ (close ++ ')' :: rest), ')' :: rest, ')' :: rest, ?_, ?_, hcomma,
        hclose⟩
      · rw [trim_isBlankOrNewline (by simp [printItems]; decide)]
        exact .orElse' (.sepBy1 (idle_rules_expr_dots _ _)) (.pure rfl)
      · have hread := hsome (close ++ ')' :: rest)
        rwa [htrim] at hread
    | false =>
      refine ⟨')' :: rest, ')' :: rest, ')' :: rest, ?_, hnone ')' rest (by decide), hcomma, hclose⟩
      simp only [printItems, Bool.false_eq_true, if_false]
      rw [show "".toList = [] from rfl, nil_append, nil_append, htrim]
      exact .orElse' (.sepBy1 hparen) (.pure rfl)
  | cons a args =>
    have htrail := trailing_closeItems m level' lastLine closing
    simp only [isEmpty_cons]
    generalize (closeItems m level' lastLine false closing).toList = close at htrail
    have hstops := htrail.stops_layout (c := ')') (by decide) rest
    have hcomma := htrail.reads_comma (c := ')') (by decide) (by decide) rest
    cases hd : dots.isSome with
    | true =>
      have hlast : ∀ d ∈ (a :: args).getLast?,
          ItemEnd n d ("...".toList ++ (close ++ ')' :: rest)) :=
        fun d hmem => .dots n (hdots hd d hmem) _
      have htrim : trim isBlank ("...".toList ++ (close ++ ')' :: rest)) = "...".toList ++
          (close ++ ')' :: rest) :=
        trim_isBlank (by simp; decide)
      have hidle : Idle (tokenNl "," *> (rules (n + 1)).expr)
          (trim isBlank ("...".toList ++ (close ++ ')' :: rest))) := by
        rw [htrim]
        exact .seqRight (idle_tokenNl (by simp [List.isPrefixOf]))
      refine ⟨_, close ++ ')' :: rest, _, .orElse (reads_items h hlast hidle line), ?_, hcomma,
        hclose⟩
      have hread := hsome (close ++ ')' :: rest)
      rwa [trim_isBlankOrNewline hstops, ← htrim] at hread
    | false =>
      have hlast : ∀ d ∈ (a :: args).getLast?, ItemEnd n d ("".toList ++ (close ++ ')' :: rest)) :=
        fun d _ => htrail.itemEnd (by decide) n d
      have hidle :
          Idle (tokenNl "," *> (rules (n + 1)).expr) (trim isBlank (close ++ ')' :: rest)) := by
        rw [trim_isBlank hstops]
        exact htrail.idle_item (by decide) (by decide) hparen
      refine ⟨_, close ++ ')' :: rest, _, .orElse (reads_items h hlast hidle line), ?_, hcomma,
        hclose⟩
      rw [show "".toList ++ (close ++ ')' :: rest) = close ++ ')' :: rest from rfl,
        trim_isBlank hstops]
      cases htrail with
      | nothing => exact hnone ')' rest (by decide)
      | comma _ => exact hnone ',' _ (by decide)

theorem Expr.rereads_call {f : Expr} {args : List Expr} (hf : f.Rereads p)
    (hargs : ∀ a ∈ args, a.Rereads p ∧ Phrase.Begins (.expr a)) {l dots r : Pos}
    (hformed : (Expr.call f l args dots r).Formed)
    (hplain : (Expr.call f l args dots r).isPlain = true) :
    (Expr.call f l args dots r).Rereads p := by
  intro m level slot n inHeader rest _ _ hn hexp hb
  have hdots : dots.isSome = true → ∀ a ∈ args.getLast?, a.endsInNumber = false := by
    intro hsome a ha
    cases dots with
    | none => cases hsome
    | some d => simpa [Expr.isPlain, Option.mem_def.1 ha] using hplain
  simp only [Expr.print, String.toList_append, append_assoc, length_append] at hn ⊢
  obtain ⟨n, rfl⟩ : ∃ n', n = n' + 1 := ⟨n - 1, by simp at hn; omega⟩
  generalize (if 1 < args.length then slot.depth + 1 else slot.depth) = depth at hn ⊢
  have hitems : ReadsItems p (rules (n + 1)).expr n m (level + 1) depth args := by
    refine readsItems_exprs hargs m (level + 1) depth fun a ha => ?_
    have := length_print_le_printItems m (level + 1) depth (m.line l) true ha
    simp at hn
    omega
  obtain ⟨cs₁, cs₂, cs₃, hlist, hthree, hcomma, hclose⟩ := reads_args hitems hdots (m.line l)
    (printItems m (level + 1) depth (m.line l) true args).2 level r rest
  refine hf.suffixed hformed.1 rfl rfl (Nat.le_refl 7) (by omega) hexp (by decide)
    (fun h => absurd h (by decide))
    (reads_tail_of_suffix (reads_call _ rfl hlist hthree hcomma hclose)) (by simp; omega) ?_
  rintro f' s hf' ⟨l', args', dots', r', rfl, ha, hd⟩
  simp only [Same, Suffix.apply, Expr.shape]
  rw [hf', ha, Pos.mark_eq_mark hd]

/-- The text is read as an element of a composite literal, without a key. -/
def Expr.RereadsElement (p : Parens) (e : Expr) : Prop :=
  ∀ m level depth n rest, (e.print m level { depth }).toList.length ≤ n → Boundary e rest →
    Ends n false 0 (Lex.trim Lex.isBlank rest) →
    Reads (element (rules (n + 1))) ((e.print m level { depth }).toList ++ rest)
    (Lex.trim Lex.isBlank rest) (Same p e)

/-- The text is read as an element of a composite literal, with a key or without. -/
def Expr.RereadsItem (p : Parens) (e : Expr) : Prop :=
  ∀ m level depth n rest, (e.print m level { depth }).toList.length ≤ n → ItemEnd n e rest →
    Reads (keyedElement (rules (n + 1))) ((e.print m level { depth }).toList ++ rest)
    (Lex.trim Lex.isBlank rest) (Same p e)

theorem Expr.Rereads.element (h : e.Rereads p) (hbegins : Phrase.Begins (.expr e))
    (hrole : e.role = .plain) :
    e.RereadsElement p := by
  intro m level depth n rest hn hb hends
  have hbrace : Stops (· == '\x7b') ((e.print m level { depth }).toList ++ rest) := by
    obtain ⟨c, t, ht, hc⟩ := hbegins m level { depth } rfl (Nat.zero_le _)
    rw [ht]
    simp only [cons_append, stops_cons, beq_eq_false_iff_ne, ne_eq]
    rintro rfl
    rcases Expr.opens_cases hc with h | h | ⟨h, -⟩
    · exact absurd h (by decide)
    · exact absurd h (by decide)
    · exact h hrole
  exact .orElse' (.bind (idle_rules_elements (n + 1) hbrace))
    (h.reads_expr m level depth hn rest hb hends)

theorem Expr.RereadsElement.item (h : e.RereadsElement p) : e.RereadsItem p := by
  intro m level depth n rest hn hend
  have hcolon : Idle (tokenNl ":") (trim isBlank rest) :=
    idle_tokenNl_of_stops (by decide) hend.colon
  refine (h m level depth n rest hn hend.boundary hend.ends).bind fun x hx => ?_
  refine (Idle.opt (.bind hcolon)).bind ?_
  rintro o rfl
  exact .pure hx

theorem Expr.rereadsItem_keyValue {key value : Expr} (hk : key.RereadsElement p)
    (hv : value.RereadsElement p) (hbegins : Phrase.Begins (.expr value)) (colon : Pos) :
    (Expr.keyValue key colon value).RereadsItem p := by
  intro m level depth n rest hn hend
  simp only [Expr.print, String.toList_append, append_assoc, length_append] at hn ⊢
  have htrim : ∀ cs, trim isBlank (':' :: cs) = ':' :: cs :=
    fun cs => trim_isBlank (by simp; decide)
  have hkey :=
    hk m level depth n (':' :: (' ' :: ((value.print m level { depth }).toList ++ rest))) (by omega)
    (boundary_closer key (by decide) _) (by rw [htrim]; exact ends_closer n 0 false (by decide) _)
  rw [htrim] at hkey
  have hcolon :=
    reads_bracket (s := ":") rfl (' ' :: ((value.print m level { depth }).toList ++ rest))
  rw [trim_blank (by decide),
    trim_isBlankOrNewline (hbegins.stops_layout m level _ rfl (Nat.zero_le _) rest)] at hcolon
  have hvalue :=
    hv m level depth n rest (by omega) ⟨hend.boundary.word, hend.boundary.number⟩ hend.ends
  refine hkey.bind fun k hk => ?_
  have hpair : Reads (do return (← tokenNl ":", ← element (rules (n + 1))))
      (':' :: (' ' :: ((value.print m level { depth }).toList ++ rest))) (trim isBlank rest)
      fun x => Same p value x.2 := hcolon.bind fun c _ => hvalue.bind fun v hv => .pure hv
  refine hpair.opt.bind ?_
  rintro o ⟨⟨c, v⟩, rfl, hv⟩
  refine .pure ?_
  simp only [Same, Expr.shape]
  rw [hk, hv]

theorem idle_keyedElement (n : Nat) (hc : isCloser c = true) (rest : List Char) :
    Idle (keyedElement (rules (n + 1))) (c :: rest) := by
  have hbrace : (c == '\x7b') = false := eq_false_of_contains (p := (· == '\x7b')) (by decide) c hc
  have hexpr : startsExpr c = false := eq_false_of_contains (by decide) c hc
  exact .bind (.orElse (.bind (idle_rules_elements _ (by simpa using hbrace)))
    (idle_rules_expr _ (by simpa using hexpr)))

theorem reads_braced {elems : List Expr}
    (h : ∀ e ∈ elems, e.RereadsItem p ∧ Phrase.Begins (.expr e)) (m : SourceMap)
    (level depth line : Nat) (hn : (printItems m level depth line true elems).1.toList.length ≤ n)
    (level' lastLine : Nat) (closing : Pos) (rest : List Char) :
    Reads (elements (rules (n + 1)))
      ('\x7b' :: ((printItems m level depth line true elems).1.toList ++
        ((closeItems m level' lastLine elems.isEmpty closing).toList ++ '\x7d' :: rest)))
        (trim isBlank rest)
      fun els => shapeExprs p els.list = shapeExprs p elems := by
  have hclose : trim isBlankOrNewline ('\x7d' :: rest) = '\x7d' :: rest :=
    trim_isBlankOrNewline (by simp; decide)
  have hidle := idle_keyedElement n (c := '\x7d') (by decide) rest
  cases elems with
  | nil =>
    have htrim := trim_append_of_all (blank_closeItems m level' lastLine closing) ('\x7d' :: rest)
    rw [hclose] at htrim
    have hlist : Reads (sepEndBy (keyedElement (rules (n + 1))) (tokenNl ",")) ('\x7d' :: rest)
        ('\x7d' :: rest)
        fun xs => shapeExprs p xs = shapeExprs p [] :=
          .orElse' (.seqLeft (.sepBy1 hidle)) (.pure rfl)
    exact reads_elements (rules (n + 1)) htrim hlist hclose
  | cons e es =>
    have hitems : ReadsItems p (keyedElement (rules (n + 1))) n m level depth (e :: es) :=
      fun d hd =>
      ⟨(h d hd).2, fun rest hend => (h d hd).1 m level depth n rest
        (Nat.le_trans (length_print_le_printItems m level depth line true hd) hn) hend⟩
    have htrail := trailing_closeItems m level' lastLine closing
    simp only [isEmpty_cons]
    generalize (closeItems m level' lastLine false closing).toList = close at htrail
    have hstops := htrail.stops_layout (c := '\x7d') (by decide) rest
    have hlast : ∀ d ∈ (e :: es).getLast?, ItemEnd n d (close ++ '\x7d' :: rest) :=
      fun d _ => htrail.itemEnd (by decide) n d
    have hlist := reads_items hitems hlast
      (by rw [trim_isBlank hstops]; exact htrail.idle_item (by decide) (by decide) hidle) line
    rw [trim_isBlank hstops] at hlist
    exact reads_elements (rules (n + 1)) rfl
      (.orElse (hlist.seqLeft (htrail.reads_comma (by decide) (by decide) rest))) hclose

theorem Expr.rereadsElement_elided {elems : List Expr}
    (h : ∀ e ∈ elems, e.RereadsItem p ∧ Phrase.Begins (.expr e))
    (l r : Pos) : (Expr.composite none l elems r).RereadsElement p := by
  intro m level depth n rest hn _ _
  simp only [Expr.print, printExpr?, String.toList_append, append_assoc, length_append] at hn ⊢
  obtain ⟨n, rfl⟩ : ∃ n', n = n' + 1 := ⟨n - 1, by simp at hn; omega⟩
  have hread := reads_braced h m (level + 1) 1 (m.line l) (n := n) (by simp at hn; omega) level
    (printItems m (level + 1) 1 (m.line l) true elems).2 r rest
  refine .orElse (hread.bind fun els hels => .pure ?_)
  simp only [Same, Grammar.composite, Expr.shape, shapeExpr?]
  rw [hels]

theorem Expr.rereads_composite {t : Expr} {elems : List Expr} (ht : t.Rereads p)
    (h : ∀ e ∈ elems, e.RereadsItem p ∧ Phrase.Begins (.expr e)) {l r : Pos}
    (hformed : (Expr.composite (some t) l elems r).Formed) (hspelled : t.isSpelledOut = false) :
    (Expr.composite (some t) l elems r).Rereads p := by
  intro m level slot n inHeader rest _ _ hn hexp _
  obtain rfl : inHeader = false := by
    cases inHeader with
    | false => rfl
    | true => simp [Expr.exposed, hspelled] at hexp
  simp only [Expr.print, printExpr?, String.toList_append, append_assoc, length_append] at hn ⊢
  obtain ⟨n, rfl⟩ : ∃ n', n = n' + 2 := ⟨n - 2, by simp at hn; omega⟩
  have hread := reads_braced h m (level + 1) 1 (m.line l) (n := n) (by simp at hn; omega) level
    (printItems m (level + 1) 1 (m.line l) true elems).2 r rest
  have htail : Reads (tail (rules (n + 2)) false) _ _ fun s => ∃ els, s = .elements els ∧
      shapeExprs p els.list = shapeExprs p elems :=
    .orElse' (idle_suffix _ (by simp; decide)) (hread.bind fun els hels => .pure ⟨els, rfl, hels⟩)
  refine ht.suffixed (hformed.1 t rfl) rfl rfl (Nat.le_refl 7) (by omega) (by simp) (by decide)
    (fun h => absurd h (by decide)) htail (by simp; omega) ?_
  rintro t' s ht' ⟨els, rfl, hels⟩
  simp only [Same, Suffix.apply, Grammar.composite, Expr.shape, shapeExpr?]
  rw [ht', hels]

end GoFun
