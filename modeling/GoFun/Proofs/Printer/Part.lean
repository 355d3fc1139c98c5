import GoFun.Proofs.Grammar.Header
import GoFun.Proofs.Printer.Misread

/-!
# Parts of printed headers

The header of a statement is made of simple statements and of one operand before the body, which is
printed without the parentheses around it. This file reads the texts of these parts, each up to the
semicolon or the brace behind it.
-/
namespace GoFun

open Parser Grammar Lex List

variable {e : Expr} {rest : List Char}

/-- The expression inside all parentheses around it. -/
def Expr.bare : Expr → Expr
  | .paren _ x _ => x.bare
  | e => e

theorem Expr.print_bare (m : SourceMap) (level : Nat) (e : Expr) :
    e.print m level { bare := true } = e.bare.print m level {} := by
  fun_induction Expr.bare e with
  | case1 l x r ih => simpa [Expr.print] using ih
  | case2 e hne =>
    cases e with
    | paren l x r => exact absurd rfl (hne l x r)
    | funcLit type body => cases body; simp only [Expr.print]
    | _ => simp only [Expr.print]

theorem Expr.shape_bare (e : Expr) : e.bare.shape .dropped = e.shape .dropped := by
  fun_induction Expr.bare e with
  | case1 l x r ih => rw [ih, Expr.shape, Parens.around]
  | case2 e hne => rfl

theorem Expr.isParen_bare (e : Expr) : e.bare.isParen = false := by
  fun_induction Expr.bare e with
  | case1 l x r ih => exact ih
  | case2 e hne =>
    cases e with
    | paren l x r => exact absurd rfl (hne l x r)
    | _ => rfl

theorem Throughout.bare {P : Phrase → Prop} (h : Throughout P (.expr e)) :
    Throughout P (.expr e.bare) := by
  fun_induction Expr.bare e with
  | case1 l x r ih => exact ih (h.child (by simp [Phrase.children, Expr.children]))
  | case2 e hne => exact h

theorem Expr.role_bare (h : Throughout Phrase.Formed (.expr e)) (hrole : e.role = .plain) :
    e.bare.role = .plain := by
  fun_induction Expr.bare e with
  | case1 l x r ih => exact ih (h.child (by simp [Phrase.children, Expr.children])) h.here.2
  | case2 e hne => exact hrole

/-- A part of a header ends with the text `rest`, at most one blank before `next`. -/
structure PartEnd (rest next : List Char) : Prop where
  head : ∃ c r, next = c :: r ∧ endsPart c = true
  blank : rest = next ∨ rest = ' ' :: next

namespace PartEnd

variable {rest next : List Char}

theorem semicolon (rest : List Char) : PartEnd (';' :: rest) (';' :: rest) :=
  ⟨⟨_, _, rfl, by decide⟩, .inl rfl⟩

theorem body (rest : List Char) : PartEnd (' ' :: '\x7b' :: rest) ('\x7b' :: rest) :=
  ⟨⟨_, _, rfl, by decide⟩, .inr rfl⟩

theorem boundary (h : PartEnd rest next) (e : Expr) : Boundary e rest := by
  obtain ⟨c, r, rfl, hc⟩ := h.head
  rcases h.blank with rfl | rfl
  · refine ⟨?_, fun _ => ?_⟩
    · simpa using eq_false_of_contains (by decide) c hc
    · simpa using eq_false_of_contains (p := (· == '.')) (by decide) c hc
  · exact ⟨by simp; decide, by simp⟩

theorem trim (h : PartEnd rest next) : trim isBlank rest = next := by
  obtain ⟨c, r, rfl, hc⟩ := h.head
  have hlayout : Stops startsLayout (c :: r) := by simpa using eq_false_of_contains (by decide) c hc
  rcases h.blank with rfl | rfl
  · exact trim_isBlank hlayout
  · rw [trim_blank (by decide), trim_isBlank hlayout]

theorem ends (h : PartEnd rest next) (n : Nat) : Ends n true 0 next := by
  obtain ⟨c, r, rfl, hc⟩ := h.head
  have hsuffix : startsSuffix c = false := eq_false_of_contains (by decide) c hc
  have hop : startsOperator c = false := eq_false_of_contains (by decide) c hc
  exact ends_of_stops n 0 (by simp [hsuffix, hop])

theorem comma (h : PartEnd rest next) : Stops (· == ',') next := by
  obtain ⟨c, r, rfl, hc⟩ := h.head
  simpa using eq_false_of_contains (p := (· == ',')) (by decide) c hc

end PartEnd

/-- The text `rest`, with `next` behind its blanks, ends expressions. -/
structure ExprEnd (n : Nat) (rest next : List Char) : Prop where
  boundary : ∀ e, Boundary e rest
  trim : Lex.trim Lex.isBlank rest = next
  ends : Ends n true 0 next

theorem PartEnd.exprEnd {next : List Char} (h : PartEnd rest next) (n : Nat) :
    ExprEnd n rest next :=
  ⟨h.boundary, h.trim, h.ends n⟩

theorem ExprEnd.comma (n : Nat) (cs : List Char) : ExprEnd n (',' :: cs) (',' :: cs) :=
  ⟨fun e => boundary_closer e (by decide) cs, trim_isBlank (stops_layout_closer (by decide) cs),
    ends_closer n 0 true (by decide) cs⟩

theorem Expr.Rereads.reads_header {p : Parens} {x : Expr} (h : x.Rereads p)
    (hexp : x.exposed = false) (m : SourceMap) (level depth : Nat) {n : Nat}
    (hn : (x.print m level { depth }).toList.length ≤ n) {next : List Char}
    (hend : ExprEnd n rest next) :
    Reads (headerExpr (rules n)) ((x.print m level { depth }).toList ++ rest) next (Same p x) := by
  have hread :=
    h m level { depth } n true rest rfl (Nat.zero_le _) hn (fun _ => hexp) (hend.boundary x)
  rw [hend.trim] at hread
  exact hread.reads (Nat.zero_le _) (Nat.zero_le _) hend.ends

section Operand

variable {e : Expr} (h : Throughout Phrase.Printable (.expr e)) (m : SourceMap) {n : Nat}
  (hn : (e.print m 0 { bare := true }).toList.length ≤ n)

include h

theorem Expr.stops_layout_bare (rest : List Char) :
    Stops startsLayout ((e.print m 0 { bare := true }).toList ++ rest) := by
  rw [Expr.print_bare]
  exact (Phrase.Printable.begins h.bare).stops_layout m 0 {} rfl (Nat.zero_le _) rest

include hn

theorem Expr.reads_bare (hrole : e.role = .plain) (hexp : e.bare.exposed = false) {next : List Char}
    (hend : PartEnd rest next) :
    Reads (headerExpr (rules n)) ((e.print m 0 { bare := true }).toList ++ rest) next
      (Same .dropped e) := by
  rw [Expr.print_bare] at hn ⊢
  have hbare := (Phrase.Printable.rereads (p := .dropped) (by decide) h.bare).plain
    (Expr.role_bare (h.mono fun _ hm => hm.2) hrole)
  refine (hbare.reads_header hexp m 0 1 hn (hend.exprEnd n)).mono fun x hx => ?_
  rw [Same, ← Expr.shape_bare e]
  exact hx

/-- An exposed literal ends the operand too early. -/
theorem Expr.misreads_bare (hexp : e.bare.exposed = true) (rest : List Char) :
    ∃ cs, Reads (headerExpr (rules n)) ((e.print m 0 { bare := true }).toList ++ rest)
      ('\x7b' :: cs)
      fun x => ¬ Same .dropped e x := by
  rw [Expr.print_bare] at hn ⊢
  obtain ⟨e', cs, -, hsize, -, -, hread⟩ :=
    Phrase.Printable.misreads (p := .dropped) (by decide) h.bare hexp m 0 {} n
    rest rfl (Nat.zero_le _) hn
  refine ⟨cs, (hread.reads (Nat.zero_le _) (Nat.zero_le _)
    (ends_of_stops n 0 (by simp; decide))).mono fun x hx hsame => ?_⟩
  rw [← hx, hsame, Expr.shape_bare] at hsize
  exact Nat.lt_irrefl _ hsize

end Operand

/-- An expression that is read back inside a header. -/
structure Expr.Steady (p : Parens) (e : Expr) : Prop where
  rereads : e.Rereads p
  hidden : e.exposed = false
  begins : Phrase.Begins (.expr e)

theorem Expr.Steady.of_printable {p : Parens} (hp : p ≠ .kept)
    (h : Throughout Phrase.Printable (.expr e)) (he : e.InHeader) : e.Steady p where
  rereads := (Phrase.Printable.rereads hp h).plain he.1.2
  hidden := he.2
  begins := Phrase.Printable.begins h

section Steady

variable {p : Parens} (m : SourceMap) (level depth : Nat) {n : Nat} {rest next : List Char}
variable {es : List Expr} {cs : List Char} {s : Stmt}

theorem Expr.Steady.reads (h : e.Steady p) (hn : (e.print m level { depth }).toList.length ≤ n)
    (hend : ExprEnd n rest next) :
    Reads (headerExpr (rules n)) ((e.print m level { depth }).toList ++ rest) next (Same p e) :=
  h.rereads.reads_header h.hidden m level depth hn hend

theorem Expr.Steady.stops_layout (h : e.Steady p) (rest : List Char) :
    Stops startsLayout ((e.print m level { depth }).toList ++ rest) :=
  h.begins.stops_layout m level _ rfl (Nat.zero_le _) rest

def moreExprs (es : List Expr) : List Char :=
  es.flatMap fun e => ',' :: ' ' :: (e.print m level { depth }).toList

theorem commas_printExprs (e : Expr) (es : List Expr) :
    (commas (printExprs m level { depth } (e :: es))).toList =
    (e.print m level { depth }).toList ++ moreExprs m level depth es := by
  induction es generalizing e with
  | nil => simp [commas, printExprs, moreExprs]
  | cons d es ih =>
    have hcons : commas (printExprs m level { depth } (e :: d :: es)) =
        e.print m level { depth } ++ ", " ++ commas (printExprs m level { depth } (d :: es)) :=
      String.intercalate_cons_of_ne_nil (by simp [printExprs])
    rw [hcons, String.toList_append, String.toList_append, ih d]
    simp [moreExprs]

theorem moreExprs_cons (e : Expr) (es : List Expr) (rest : List Char) :
    moreExprs m level depth (e :: es) ++ rest =
    ',' :: ' ' :: ((e.print m level { depth }).toList ++ (moreExprs m level depth es ++ rest)) := by
  simp [moreExprs]

theorem ExprEnd.more (h : ExprEnd n rest next) (es : List Expr) :
    ∃ mid, ExprEnd n (moreExprs m level depth es ++ rest) mid ∧
    mid.length ≤ (moreExprs m level depth es ++ rest).length := by
  cases es with
  | nil =>
    refine ⟨next, h, ?_⟩
    rw [← h.trim]
    exact length_trim_le _ _
  | cons d es =>
    refine ⟨_, ?_, Nat.le_refl _⟩
    rw [moreExprs_cons]
    exact .comma n _

theorem series_exprs (h : ∀ e ∈ es, e.Steady p) (hn : (moreExprs m level depth es).length ≤ n)
    (hend : ExprEnd n rest next) {mid : List Char}
    (hmid : trim isBlank (moreExprs m level depth es ++ rest) = mid) :
    Series (tokenNl "," *> headerExpr (rules n)) mid next fun xs => shapeExprs p xs =
      shapeExprs p es := by
  induction es generalizing mid with
  | nil =>
    obtain rfl : next = mid := hend.trim.symm.trans hmid
    exact .nil rfl
  | cons e es ih =>
    have he := h e (by simp)
    have hlen :
        (e.print m level { depth }).toList.length + (moreExprs m level depth es).length ≤ n := by
      simp only [moreExprs, flatMap_cons, length_append, length_cons] at hn ⊢
      omega
    rw [moreExprs_cons, (ExprEnd.comma n _).trim] at hmid
    subst hmid
    have hcomma := reads_bracket (s := ",") rfl
      (' ' :: ((e.print m level { depth }).toList ++ (moreExprs m level depth es ++ rest)))
    rw [trim_blank (by decide), trim_isBlankOrNewline (he.stops_layout m level depth _)] at hcomma
    obtain ⟨mid, hmore, hle⟩ := hend.more m level depth es
    refine .cons (hcomma.seqRight (he.reads m level depth (by omega) hmore)) ?_
      (ih (fun d hd => h d (by simp [hd])) (by omega) hmore.trim) fun x xs hx hxs => ?_
    · simp only [length_cons, length_append] at hle ⊢
      omega
    · simp only [shapeExprs]
      rw [hx, hxs]

theorem reads_exprs (hne : es ≠ []) (h : ∀ e ∈ es, e.Steady p)
    (hn : (commas (printExprs m level { depth } es)).toList.length ≤ n) (hend : ExprEnd n rest next)
    (hcomma : Stops (· == ',') next) : Reads (sepBy1 (headerExpr (rules n)) (tokenNl ","))
      ((commas (printExprs m level { depth } es)).toList ++ rest) next fun xs => shapeExprs p xs =
      shapeExprs p es := by
  cases es with
  | nil => exact absurd rfl hne
  | cons e es =>
    rw [commas_printExprs] at hn ⊢
    rw [append_assoc]
    simp only [length_append] at hn
    obtain ⟨mid, hmore, -⟩ := hend.more m level depth es
    refine ((h e (by simp)).reads m level depth (by omega) hmore).sepBy1
      (series_exprs m level depth (fun d hd => h d (by simp [hd])) (by omega) hend hmore.trim)
      (.seqRight (idle_tokenNl_of_stops (by decide) hcomma)) fun x xs hx hxs => ?_
    simp only [shapeExprs]
    rw [hx, hxs]

theorem ends_sign (n : Nat) (hsuffix : Stops startsSuffix cs)
    (habsent : levels.flatten.all (absent · cs) = true) :
    Ends n true 0 cs where
  tail := idle_tail n (idle_suffix _ hsuffix) (by intro c _; rfl)
  operators j _ _ := idle_operatorOf fun x hx => by
    refine all_eq_true.1 habsent x (mem_flatten.2 ?_)
    unfold levelAt at hx
    cases hl : levels[5 - j]? with
    | none => simp [hl] at hx
    | some l => exact ⟨l, mem_of_getElem? hl, by simpa [hl] using hx⟩

theorem ExprEnd.assignOp (n : Nat) (op : AssignOp) (rest : List Char) :
    ExprEnd n (' ' :: (op.symbol.toList ++ ' ' :: rest)) (op.symbol.toList ++ ' ' :: rest) where
  boundary e := ⟨by simp; decide, by simp⟩
  trim := by
    rw [trim_blank (by decide)]
    by_cases hop : op = .quo
    · subst hop
      exact trim_slash (by decide) (by decide) (by decide) _
    · refine trim_isBlank ?_
      cases op <;> first | exact absurd rfl hop | (simp [AssignOp.symbol]; decide)
  ends := ends_sign n (by cases op <;> (simp [AssignOp.symbol]; decide)) (by cases op <;> rfl)

theorem ExprEnd.step (n : Nat) (step : Step) (rest : List Char) :
    ExprEnd n (step.symbol.toList ++ rest) (step.symbol.toList ++ rest) where
  boundary e := by cases step <;> exact ⟨by simp [Step.symbol]; decide, by simp [Step.symbol]⟩
  trim := by cases step <;> exact trim_isBlank (by simp [Step.symbol]; decide)
  ends := ends_sign n (by cases step <;> (simp [Step.symbol]; decide)) (by cases step <;> rfl)

theorem ExprEnd.arrow (n : Nat) (rest : List Char) :
    ExprEnd n (' ' :: '<' :: '-' :: ' ' :: rest) ('<' :: '-' :: ' ' :: rest) where
  boundary e := ⟨by simp; decide, by simp⟩
  trim := by rw [trim_blank (by decide), trim_isBlank (by simp; decide)]
  ends := ends_sign n (by simp; decide) rfl

/-- A simple statement of a header whose expressions are read back. -/
def Stmt.Steady (p : Parens) : Stmt → Prop
  | .expr x | .incDec x _ _ => x.Steady p
  | .assign lhs _ _ rhs => (lhs ≠ [] ∧ ∀ e ∈ lhs, e.Steady p) ∧ rhs ≠ [] ∧ ∀ e ∈ rhs, e.Steady p
  | .send x _ y => x.Steady p ∧ y.Steady p
  | _ => False

theorem stops_layout_exprs (hne : es ≠ []) (h : ∀ e ∈ es, e.Steady p) (rest : List Char) :
    Stops startsLayout ((commas (printExprs m level { depth } es)).toList ++ rest) := by
  cases es with
  | nil => exact absurd rfl hne
  | cons e es =>
    rw [commas_printExprs, append_assoc]
    exact (h e (by simp)).stops_layout m level depth _

theorem Stmt.Steady.stops_layout (h : s.Steady p) (rest : List Char) :
    Stops startsLayout ((s.print m level).toList ++ rest) := by
  cases s with
  | expr x => exact Expr.Steady.stops_layout m level 1 h rest
  | incDec x pos step =>
    simp only [Stmt.print, String.toList_append, append_assoc]
    exact Expr.Steady.stops_layout m level 2 h _
  | assign lhs pos op rhs =>
    simp only [Stmt.print, String.toList_append, append_assoc]
    exact stops_layout_exprs m level _ h.1.1 h.1.2 _
  | send x pos y =>
    simp only [Stmt.print, String.toList_append, append_assoc]
    exact h.1.stops_layout m level 1 _
  | _ => exact h.elim

theorem assign_text (lhs rhs : List Expr) (pos : Pos) (op : AssignOp) (rest : List Char) :
    ∃ depth, ((Stmt.assign lhs pos op rhs).print m level).toList ++ rest =
      (commas (printExprs m level { depth } lhs)).toList ++
        ' ' :: (op.symbol.toList ++ ' ' :: ((commas (printExprs m level { depth } rhs)).toList ++
        rest)) := by
  simp only [Stmt.print, String.toList_append, append_assoc]
  exact ⟨_, rfl⟩

theorem send_text (x y : Expr) (pos : Pos) (rest : List Char) :
    ((Stmt.send x pos y).print m level).toList ++ rest =
    (x.print m level {}).toList ++ ' ' :: '<' :: '-' :: ' ' ::
      ((y.print m level {}).toList ++ rest) := by
  simp only [Stmt.print, String.toList_append, append_assoc]
  rfl

theorem Stmt.Steady.reads (h : s.Steady p) (hn : (s.print m level).toList.length ≤ n)
    (hend : PartEnd rest next) :
    Reads (headerSimple (rules n)) ((s.print m level).toList ++ rest) next fun s' => s'.shape p =
      s.shape p := by
  cases s with
  | expr x =>
    obtain ⟨c, r, rfl, hc⟩ := hend.head
    refine (reads_simple_expr (Expr.Steady.reads m level 1 h hn (hend.exprEnd n)) hc).mono ?_
    rintro _ ⟨x', rfl, hx'⟩
    simp only [Stmt.shape]
    rw [hx']
  | incDec x pos step =>
    simp only [Stmt.print, String.toList_append, append_assoc, length_append] at hn ⊢
    have hread := reads_simple_incDec (Expr.Steady.reads m level 2 h (by omega) (.step n step rest))
    rw [hend.trim] at hread
    refine hread.mono ?_
    rintro _ ⟨x', pos', rfl, hx'⟩
    simp only [Stmt.shape]
    rw [hx']
  | assign lhs pos op rhs =>
    obtain ⟨⟨hl, hlhs⟩, hr, hrhs⟩ := h
    obtain ⟨depth, htext⟩ := assign_text m level lhs rhs pos op rest
    have hlen := congrArg List.length htext
    simp only [length_append, length_cons] at hlen
    rw [htext]
    refine (reads_simple_assign (reads_exprs m level depth hl hlhs (by omega) (.assignOp n op _) ?_)
      (stops_layout_exprs m level depth hr hrhs rest)
      (reads_exprs m level depth hr hrhs (by omega) (hend.exprEnd n) hend.comma)).mono ?_
    · cases op <;> simp [AssignOp.symbol]
    · rintro _ ⟨lhs', pos', rhs', rfl, hl', hr'⟩
      simp only [Stmt.shape]
      rw [hl', hr']
  | send x pos y =>
    have hlen := congrArg List.length (send_text m level x y pos rest)
    simp only [length_append, length_cons] at hlen
    rw [send_text]
    refine (reads_simple_send (h.1.reads m level 1 (by omega) (.arrow n _))
      (h.2.stops_layout m level 1 rest) (h.2.reads m level 1 (by omega) (hend.exprEnd n))).mono ?_
    rintro _ ⟨x', pos', y', rfl, hx', hy'⟩
    simp only [Stmt.shape]
    rw [hx', hy']
  | _ => exact h.elim

theorem reads_first (hne : es ≠ []) (h : ∀ e ∈ es, e.Steady p)
    (hn : (commas (printExprs m level { depth } es)).toList.length ≤ n)
    (hend : ExprEnd n rest next) :
    ∃ mid, Reads (headerExpr (rules n)) ((commas (printExprs m level { depth } es)).toList ++ rest)
      mid fun _ => True := by
  cases es with
  | nil => exact absurd rfl hne
  | cons e es =>
    rw [commas_printExprs] at hn ⊢
    rw [append_assoc]
    simp only [length_append] at hn
    obtain ⟨mid, hmore, -⟩ := hend.more m level depth es
    exact ⟨mid, ((h e (by simp)).reads m level depth (by omega) hmore).mono fun _ _ => trivial⟩

theorem reads_noValue (g : Rules) (h : Stops (· == ',') cs) :
    Reads (optional (token "," *> headerExpr g)) cs cs fun v => v = none :=
  Idle.opt (.seqRight (idle_token_of_stops (by decide) h))

theorem reads_value (h : e.Steady p) (hn : (e.print m level { depth }).toList.length ≤ n)
    (hend : ExprEnd n rest next) :
    Reads (optional (token "," *> headerExpr (rules n)))
      (',' :: ' ' :: ((e.print m level { depth }).toList ++ rest)) next
      fun v => ∃ e', v = some e' ∧ Same p e e' := by
  have hcomma := reads_close (s := ",") rfl (' ' :: ((e.print m level { depth }).toList ++ rest))
  rw [trim_blank (by decide), trim_isBlank (h.stops_layout m level depth rest)] at hcomma
  exact (hcomma.seqRight (h.reads m level depth hn hend)).opt

theorem sign_noRange {g : Rules} (op : AssignOp) {P : Expr → Prop} (hcs : Stops startsLayout cs)
    (h : Reads (headerExpr g) cs next P) :
    Idle (tokenOf AssignOp.symbol [.define, .assign] <* blanks) (op.symbol.toList ++ ' ' :: cs) ∨
      ∃ next, Reads (tokenOf AssignOp.symbol [.define, .assign] <* blanks)
      (op.symbol.toList ++ ' ' :: cs) next (fun _ => True) ∧ Idle (keyword "range") next := by
  by_cases hop : op ∈ [AssignOp.define, .assign]
  · have hskip := reads_skip isBlank (' ' :: cs)
    rw [trim_blank (by decide), trim_isBlank hcs] at hskip
    exact .inr ⟨cs, ((reads_assignOp hop cs).seqLeft hskip).mono fun _ _ => trivial,
      idle_keyword_of_reads h (by decide) (by decide)⟩
  · have hprefix : ∀ b ∈ [AssignOp.define, .assign],
        b.symbol.toList.isPrefixOf (op.symbol.toList ++ ' ' :: cs) = false := by
      intro b hb
      have hb : b = .define ∨ b = .assign := by simpa using hb
      rcases hb with rfl | rfl <;> cases op <;> first | exact absurd (by decide) hop | rfl
    exact .inl (.seqLeft (idle_tokenOf hprefix))

theorem idle_rangeClause_exprs (hne : es ≠ []) (h : ∀ e ∈ es, e.Steady p)
    (hn : (commas (printExprs m level { depth } es)).toList.length ≤ n) (pos : Pos) {op : AssignOp}
    (hsign : Idle (tokenOf AssignOp.symbol [.define, .assign] <* blanks)
      (op.symbol.toList ++ ' ' :: cs) ∨
      ∃ next, Reads (tokenOf AssignOp.symbol [.define, .assign] <* blanks)
      (op.symbol.toList ++ ' ' :: cs) next (fun _ => True) ∧ Idle (keyword "range") next) :
    Idle (rangeClause (rules n) pos)
      ((commas (printExprs m level { depth } es)).toList ++ ' ' ::
      (op.symbol.toList ++ ' ' :: cs)) := by
  have hcomma : Stops (· == ',') (op.symbol.toList ++ ' ' :: cs) := by cases op
    <;> simp [AssignOp.symbol]
  match es, hne, h with
  | [a], _, h =>
    rw [commas_printExprs] at hn ⊢
    simp only [moreExprs, flatMap_nil, append_nil] at hn ⊢
    exact idle_rangeClause ((h a (by simp)).reads m level depth hn (.assignOp n op cs))
      ((reads_noValue _ hcomma).mono fun _ _ => trivial) hsign
  | [a, b], _, h =>
    rw [commas_printExprs] at hn ⊢
    rw [append_assoc, moreExprs_cons]
    simp only [moreExprs, flatMap_nil, nil_append, flatMap_cons, length_append, length_cons] at hn ⊢
    exact idle_rangeClause ((h a (by simp)).reads m level depth (by omega) (.comma n _))
      ((reads_value m level depth (h b (by simp)) (by omega) (.assignOp n op cs)).mono fun _ _ =>
        trivial) hsign
  | a :: b :: c :: es, _, h =>
    -- A range has two variables at most.
    rw [commas_printExprs] at hn ⊢
    rw [append_assoc, moreExprs_cons, moreExprs_cons]
    simp only [moreExprs, flatMap_cons, length_append, length_cons] at hn
    exact idle_rangeClause ((h a (by simp)).reads m level depth (by omega) (.comma n _))
      ((reads_value m level depth (h b (by simp)) (by omega) (.comma n _)).mono fun _ _ => trivial)
      (.inl (.seqLeft (idle_tokenOf_of_stops (fun op _ => head_assignOp op) (by simp; decide))))

theorem Stmt.Steady.idle_rangeClause (h : s.Steady p) (hn : (s.print m level).toList.length ≤ n)
    (pos : Pos)
    (hend : PartEnd rest next) :
    Idle (rangeClause (rules n) pos) ((s.print m level).toList ++ rest) := by
  cases s with
  | expr x =>
    obtain ⟨c, r, rfl, hc⟩ := hend.head
    exact Grammar.idle_rangeClause (Expr.Steady.reads m level 1 h hn (hend.exprEnd n))
      ((reads_noValue _ hend.comma).mono fun _ _ => trivial)
      (.inl (.seqLeft (idle_tokenOf_of_stops (fun op _ => head_assignOp op)
        (stops_startsSign hc r))))
  | incDec x opPos step =>
    simp only [Stmt.print, String.toList_append, append_assoc, length_append] at hn ⊢
    have hcomma : Stops (· == ',') (step.symbol.toList ++ rest) := by cases step
      <;> simp [Step.symbol]
    have hsign : ∀ op ∈ [AssignOp.define, .assign],
        op.symbol.toList.isPrefixOf (step.symbol.toList ++ rest) = false := by
      intro op _
      cases step <;> cases op <;> rfl
    exact Grammar.idle_rangeClause (Expr.Steady.reads m level 2 h (by omega) (.step n step rest))
      ((reads_noValue _ hcomma).mono fun _ _ => trivial) (.inl (.seqLeft (idle_tokenOf hsign)))
  | assign lhs opPos op rhs =>
    obtain ⟨⟨hl, hlhs⟩, hr, hrhs⟩ := h
    obtain ⟨depth, htext⟩ := assign_text m level lhs rhs opPos op rest
    have hlen := congrArg List.length htext
    simp only [length_append, length_cons] at hlen
    obtain ⟨mid, hfirst⟩ := reads_first m level depth hr hrhs (by omega) (hend.exprEnd n)
    rw [htext]
    exact idle_rangeClause_exprs m level depth hl hlhs (by omega) pos
      (sign_noRange op (stops_layout_exprs m level depth hr hrhs rest) hfirst)
  | send x opPos y =>
    have hlen := congrArg List.length (send_text m level x y opPos rest)
    simp only [length_append, length_cons] at hlen
    rw [send_text]
    generalize (y.print m level {}).toList ++ rest = right
    have hsign : ∀ op ∈ [AssignOp.define, .assign],
        op.symbol.toList.isPrefixOf ('<' :: '-' :: ' ' :: right) = false := by
      intro op _
      cases op <;> rfl
    exact Grammar.idle_rangeClause (h.1.reads m level 1 (by omega) (.arrow n right))
      ((reads_noValue _ (by simp)).mono fun _ _ => trivial) (.inl (.seqLeft (idle_tokenOf hsign)))
  | _ => exact h.elim

end Steady

end GoFun
