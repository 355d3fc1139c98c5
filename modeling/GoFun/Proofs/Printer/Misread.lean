import GoFun.Proofs.Printer.Reread

/-!
# Composite literals in headers

In a header the first brace outside of all brackets opens the body. So an expression with a
composite literal that is not inside brackets is read only up to the brace of the first such
literal, as a smaller expression.
-/
namespace GoFun

open Parser Grammar List

attribute [local simp] Phrase.children Expr.children

variable {p : Parens} {x : Expr}

/-- In a header, another expression is read from the text: a smaller one, up to a brace. -/
def Expr.Misreads (p : Parens) (e : Expr) : Prop :=
  ∀ m level slot n rest, slot.bare = false → slot.strength ≤ e.rank →
    (e.print m level slot).toList.length ≤ n →
    ∃ e' cs, e.rank ≤ e'.rank ∧ sizeOf (e'.shape p) < sizeOf (e.shape p) ∧
    (e'.shape p).isContextual = false ∧
      cs.length < ((e.print m level slot).toList ++ rest).length ∧
      Respells n true p e' ((e.print m level slot).toList ++ rest) ('\x7b' :: cs)

theorem stops_layout_brace (cs : List Char) :
    Lex.Stops Lex.startsLayout ('\x7b' :: cs) := by simp; decide

/-- In front of its elements, a literal is read as its type. -/
theorem Expr.misreads_composite {t : Expr} (ht : t.Rereads p) (hexp : t.exposed = false)
    (hcontext : (t.shape p).isContextual = false) (hf : t.Fits 7) (l : Pos) (elems : List Expr)
    (r : Pos) :
    (Expr.composite (some t) l elems r).Misreads p := by
  intro m level slot n rest _ _ hn
  have hseven : t.rank = 7 := Nat.le_antisymm t.rank_le hf.1
  simp only [Expr.print, printExpr?, String.toList_append, append_assoc, length_append] at hn ⊢
  obtain ⟨cs, hcs⟩ :
      ∃ cs, "\x7b".toList ++ ((printItems m (level + 1) 1 (m.line l) true elems).fst.toList ++
      ((closeItems m level (printItems m (level + 1) 1 (m.line l) true elems).snd elems.isEmpty
        r).toList ++
        ("\x7d".toList ++ rest))) = '\x7b' :: cs := ⟨_, rfl⟩
  have hlen := congrArg List.length hcs
  simp only [length_append, length_cons] at hlen
  have hread :=
    ht m level { strength := 7, depth := slot.depth } n true ('\x7b' :: cs) rfl (by simp [hseven])
    (by omega) (fun _ => hexp) (boundary_suffix (by decide) (by simp) cs)
  rw [Lex.trim_isBlank (stops_layout_brace cs)] at hread
  refine ⟨t, cs, Nat.le_of_eq hseven.symm, ?_, hcontext, by omega, by rw [hcs]; exact hread⟩
  simp only [Expr.shape, shapeExpr?, composite.sizeOf_spec, Option.some.sizeOf_spec]
  omega

/-- What an expression begins with is misread in front of the rest of it, too. -/
theorem Expr.Misreads.of_front {e : Expr} (hx : x.Misreads p) (hrank : e.rank ≤ x.rank)
    (hsize : sizeOf (x.shape p) < sizeOf (e.shape p))
    (htext : ∀ m level slot, slot.strength ≤ e.rank → ∃ slot' after, slot'.bare = false ∧
      slot'.strength ≤ x.rank ∧
      (e.print m level slot).toList = (x.print m level slot').toList ++ after) :
    e.Misreads p := by
  intro m level slot n rest _ hslot hn
  obtain ⟨slot', after, hbare, hstrength, htext⟩ := htext m level slot hslot
  rw [htext] at hn ⊢
  rw [append_assoc]
  obtain ⟨e', cs, hle, hlt, hcontext, hlen, hread⟩ :=
    hx m level slot' n (after ++ rest) hbare hstrength (by simp only [length_append] at hn; omega)
  exact ⟨e', cs, by omega, by omega, hcontext, hlen, hread⟩

theorem Expr.Misreads.star (hx : x.Misreads p) (hf : x.Fits 6) (hbegins : Phrase.Begins (.expr x))
    (pos : Pos) :
    (Expr.star pos x).Misreads p := by
  intro m level slot n rest _ hslot hn
  have hs : ¬ 6 < slot.strength := Nat.not_lt.2 hslot
  simp only [Expr.print, hs, if_false, String.toList_append, append_assoc, length_append] at hn ⊢
  obtain ⟨x', cs, hrank, hsize, -, hlen, hread⟩ :=
    hx m level {} n rest rfl (Nat.zero_le _) (by omega)
  refine ⟨.star pos x', cs, Nat.le_refl 6, ?_, rfl, ?_, hread.lead (Nat.le_trans hf.1 hrank)
    (hbegins.stops_layout m level _ rfl (Nat.zero_le _) rest) rfl .deref fun pos' _ h =>
      same_star h pos pos'⟩
  · simpa [Expr.shape] using hsize
  · simp only [length_append] at hlen
    omega

theorem Expr.Misreads.unary (hx : x.Misreads p) (hf : x.Fits 6) (hbegins : Phrase.Begins (.expr x))
    (pos : Pos) (op : UnaryOp) : (Expr.unary pos op x).Misreads p := by
  intro m level slot n rest _ hslot hn
  have hs : ¬ 6 < slot.strength := Nat.not_lt.2 hslot
  simp only [Expr.print, hs, if_false, String.toList_append, append_assoc, length_append] at hn ⊢
  obtain ⟨x', cs, hrank, hsize, hcontext, hlen, hread⟩ :=
    hx m level { strength := 6, depth := slot.depth } n rest rfl hf.1 (by omega)
  refine ⟨.unary pos op x', cs, Nat.le_refl 6, ?_, rfl, ?_, hread.lead (Nat.le_trans hf.1 hrank)
    (hbegins.stops_layout m level _ rfl hf.1 rest) rfl (.op op) fun pos' _ h =>
      same_unary h hcontext pos pos' op⟩
  · simpa [Expr.shape] using hsize
  · simp only [length_append] at hlen
    omega

theorem Expr.Misreads.binary {y : Expr} (hx : x.Rereads p) (hexp : x.exposed = false)
    (hy : y.Misreads p) (hbegins : Phrase.Begins (.expr y)) {opPos : Pos} {op : BinaryOp}
    (hf : (Expr.binary x opPos op y).Formed) (hplain : (Expr.binary x opPos op y).isPlain = true) :
    (Expr.binary x opPos op y).Misreads p := by
  intro m level slot n rest _ hslot hn
  have hs : ¬ op.precedence < slot.strength := Nat.not_lt.2 hslot
  simp only [Expr.print, hs, decide_false, Bool.false_eq_true, if_false, String.toList_append,
    append_assoc, length_append] at hn ⊢
  obtain ⟨sp, hsp, hblank, hapart⟩ :=
    blanks_apart hf.2 (by simpa [Expr.isPlain] using hplain) hbegins m level slot.depth
    (slot.depth + 1) rest
  rw [hsp] at hn ⊢
  obtain ⟨y', cs, hrank, hsize, -, hlen, hread⟩ :=
    hy m level { strength := op.precedence + 1, depth := slot.depth + 1 } n rest rfl hf.2.1
      (by omega)
  refine ⟨.binary x opPos op y', cs, Nat.le_refl _, ?_, rfl, ?_,
    .join (fun behind hb => hx m level _ n true behind rfl hf.1.1 (by omega) (fun _ => hexp) hb)
    hf.1.1 hread
      (Nat.le_trans hf.2.1 hrank) hblank hapart (hbegins.stops_layout m level _ rfl hf.2.1 rest)
        hlen⟩
  · simpa [Expr.shape] using hsize
  · simp only [length_append] at hlen
    omega

/-- With a literal outside of all brackets, the text is misread in headers. -/
def Phrase.Misreads (p : Parens) : Phrase → Prop
  | .expr e => e.exposed = true → e.Misreads p
  | .stmt _ => True

theorem Phrase.Printable.misreads (hp : p ≠ .kept) {n : Phrase}
    (h : Throughout Phrase.Printable n) : n.Misreads p := by
  induction h with
  | @intro n here below ih =>
    obtain ⟨hplain, hformed⟩ := here
    cases n with
    | stmt s => trivial
    | expr e =>
      intro hexp
      cases e with
      | selector x sel =>
        have hx := ih (.expr x) (by simp) hexp
        refine hx.of_front hformed.1.1 ?_ fun m level slot _ => ?_
        · simp only [Expr.shape, Expr.selector.sizeOf_spec]; omega
        · simp only [Expr.print, String.toList_append, append_assoc]
          exact ⟨⟨7, _, false⟩, _, rfl, hformed.1.1, rfl⟩
      | index x l i r =>
        have hx := ih (.expr x) (by simp) hexp
        refine hx.of_front hformed.1.1 ?_ fun m level slot _ => ?_
        · simp only [Expr.shape, Expr.index.sizeOf_spec]; omega
        · simp only [Expr.print, String.toList_append, append_assoc]
          exact ⟨⟨7, _, false⟩, _, rfl, hformed.1.1, rfl⟩
      | slice x l low high max r =>
        have hx := ih (.expr x) (by simp) hexp
        refine hx.of_front hformed.1.1 ?_ fun m level slot _ => ?_
        · simp only [Expr.shape, Expr.slice.sizeOf_spec]; omega
        · simp only [Expr.print, String.toList_append, append_assoc]
          exact ⟨⟨7, _, false⟩, _, rfl, hformed.1.1, rfl⟩
      | call f l args dots r =>
        have hx := ih (.expr f) (by simp) hexp
        refine hx.of_front hformed.1.1 ?_ fun m level slot _ => ?_
        · simp only [Expr.shape, Expr.call.sizeOf_spec]; omega
        · simp only [Expr.print, String.toList_append, append_assoc]
          exact ⟨⟨7, _, false⟩, _, rfl, hformed.1.1, rfl⟩
      | composite t l elems r =>
        cases t with
        | none => simp [Expr.exposed] at hexp
        | some t =>
          have hmem : Phrase.expr t ∈ (Phrase.expr (.composite (some t) l elems r)).children := by
            simp
          have hf := hformed.1 t rfl
          by_cases ht : t.exposed = true
          · refine (ih _ hmem ht).of_front hf.1 ?_ fun m level slot _ => ?_
            · simp only [Expr.shape, shapeExpr?, Expr.composite.sizeOf_spec,
                Option.some.sizeOf_spec]; omega
            · simp only [Expr.print, printExpr?, String.toList_append, append_assoc]
              exact ⟨⟨7, _, false⟩, _, rfl, hf.1, rfl⟩
          · exact Expr.misreads_composite ((Phrase.Printable.rereads hp (below _ hmem)).plain hf.2)
              (Bool.eq_false_iff.2 ht) (Expr.isContextual_shape p (below _ hmem)) hf l elems r
      | star pos x =>
        have hmem : Phrase.expr x ∈ (Phrase.expr (.star pos x)).children := by simp
        exact (ih _ hmem hexp).star hformed (Phrase.Printable.begins (below _ hmem)) pos
      | unary pos op x =>
        have hmem : Phrase.expr x ∈ (Phrase.expr (.unary pos op x)).children := by simp
        exact (ih _ hmem hexp).unary hformed (Phrase.Printable.begins (below _ hmem)) pos op
      | binary x opPos op y =>
        have hx : Phrase.expr x ∈ (Phrase.expr (.binary x opPos op y)).children := by simp
        have hy : Phrase.expr y ∈ (Phrase.expr (.binary x opPos op y)).children := by simp
        by_cases hleft : x.exposed = true
        · refine (ih _ hx hleft).of_front hformed.1.1 ?_ fun m level slot hslot => ?_
          · simp only [Expr.shape, Expr.binary.sizeOf_spec]; omega
          · have hs : ¬ op.precedence < slot.strength := Nat.not_lt.2 hslot
            simp only [Expr.print, hs, decide_false, Bool.false_eq_true, if_false,
              String.toList_append, append_assoc]
            exact ⟨⟨op.precedence, _, false⟩, _, rfl, hformed.1.1, rfl⟩
        · have hright : y.exposed = true := by simpa [Expr.exposed, hleft] using hexp
          exact .binary ((Phrase.Printable.rereads hp (below _ hx)).plain hformed.1.2)
            (Bool.eq_false_iff.2 hleft)
            (ih _ hy hright) (Phrase.Printable.begins (below _ hy)) hformed hplain
      | assertion _ _ _ _ => simp [Phrase.isPlain, Expr.isPlain] at hplain
      | _ => simp [Expr.exposed] at hexp

end GoFun
