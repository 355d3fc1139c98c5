import GoFun.Proofs.Printer.Items

/-!
# Reading printed expressions

The text of a plain expression, put before any text that does not continue it, is read as an
expression of the same shape. Unary operators are added in front of what they are applied to, binary
operators behind a chain of their own level.
-/
namespace GoFun

open Parser Grammar Lex

attribute [local simp] Phrase.children Expr.children

variable {n : Nat} {p : Parens} {e x y : Expr} {cs : List Char} {opPos : Pos} {op : BinaryOp}

theorem Respells.of_unary {inHeader : Bool} {next : List Char} (he : e.rank = 6)
    (h : Idle (tail (rules n) inHeader) next → Reads (binding (primaryOf (rules n) inHeader) 6) cs
      next (Same p e)) :
    Respells n inHeader p e cs next where
  primary h7 := absurd h7 (by omega)
  unary _ := h
  binary hlt := absurd hlt (by omega)

theorem Respells.lead {inHeader : Bool} {next : List Char} (hx : Respells n inHeader p x cs next)
    (hf : 6 ≤ x.rank) (hcs : Stops startsLayout cs) (he : e.rank = 6) (l : Lead)
    (hsame : ∀ pos x', Same p x x' → Same p e (applyLead (pos, l) x')) :
    Respells n inHeader p e (l.symbol.toList ++ cs) next := by
  refine .of_unary he fun htail => ?_
  have hread := hx.reads hf (Nat.le_refl 6) ⟨htail, fun j hj hlt => absurd hj (by omega)⟩
  refine (reads_unaryExpr_lead hread l (trim_isBlank hcs)).mono ?_
  rintro y ⟨pos, x', hx', rfl⟩
  exact hsame pos x' hx'

theorem same_star {x' : Expr} (h : Same p x x') (pos pos' : Pos) :
    Same p (.star pos x) (applyLead (pos', .deref) x') := by
  simp only [Same, applyLead, Expr.shape]
  rw [h]

theorem Expr.rereads_star (hx : x.Rereads p) (hf : x.Fits 6) (hbegins : Phrase.Begins (.expr x))
    (pos : Pos) :
    (Expr.star pos x).Rereads p := by
  intro m level slot n inHeader rest _ hslot hn hexp hb
  have hs : ¬ 6 < slot.strength := Nat.not_lt.2 hslot
  simp only [Expr.print, hs, if_false, String.toList_append, List.append_assoc,
    List.length_append] at hn ⊢
  exact (hx m level _ n inHeader rest rfl (Nat.zero_le _) (by omega) hexp ⟨hb.word, hb.number⟩).lead
    hf.1
    (hbegins.stops_layout m level _ rfl (Nat.zero_le _) rest) rfl .deref fun pos' _ hx' =>
    same_star hx' pos pos'

/-- Forms that mean something else behind an arrow or behind `switch`. -/
def Expr.isContextual : Expr → Bool
  | .chan _ _ _ | .assertion _ _ _ _ => true
  | _ => false

theorem Expr.isContextual_of_shape (h : (e.shape p).isContextual = false) :
    e.isContextual = false := by
  cases e <;> simp_all [Expr.shape, Expr.isContextual]

/-- No plain expression has the shape of such a form. -/
theorem Expr.isContextual_shape (p : Parens) (h : Throughout Phrase.Printable (.expr e)) :
    (e.shape p).isContextual = false := by
  generalize hn : Phrase.expr e = n at h
  induction h generalizing e with
  | @intro n here below ih =>
    subst hn
    cases e with
    | paren l x r =>
      have hx := ih (.expr x) (by simp) rfl
      rw [Expr.shape]
      cases p with
      | kept => rfl
      | dropped => exact hx
      | merged => simp only [Parens.around]; split <;> simp_all [Expr.isContextual]
    | chan _ _ _ => exact absurd here.1 (by simp [Phrase.isPlain, Expr.isPlain])
    | assertion _ _ _ _ => exact absurd here.1 (by simp [Phrase.isPlain, Expr.isPlain])
    | _ => simp [Expr.shape, Expr.isContextual]

theorem same_unary {x' : Expr} (h : Same p x x') (hx : (x.shape p).isContextual = false)
    (pos pos' : Pos) (op : UnaryOp) :
    Same p (.unary pos op x) (applyLead (pos', .op op) x') := by
  have hx' : x'.isContextual = false := Expr.isContextual_of_shape (by rw [h]; exact hx)
  have happly : applyLead (pos', .op op) x' = .unary pos' op x' := by
    cases x' with
    | chan _ _ _ => cases hx'
    | _ => cases op <;> rfl
  simp only [Same, happly, Expr.shape]
  rw [h]

theorem Expr.rereads_unary (hx : x.Rereads p) (hf : x.Fits 6)
    (h : Throughout Phrase.Printable (.expr x)) (pos : Pos)
    (op : UnaryOp) : (Expr.unary pos op x).Rereads p := by
  intro m level slot n inHeader rest _ hslot hn hexp hb
  have hs : ¬ 6 < slot.strength := Nat.not_lt.2 hslot
  simp only [Expr.print, hs, if_false, String.toList_append, List.append_assoc,
    List.length_append] at hn ⊢
  exact (hx m level _ n inHeader rest rfl hf.1 (by omega) hexp ⟨hb.word, hb.number⟩).lead hf.1
    ((Phrase.Printable.begins h).stops_layout m level _ rfl hf.1 rest) rfl (.op op)
    fun pos' _ hx' => same_unary hx' (Expr.isContextual_shape p h) pos pos' op

theorem Respells.of_binary {inHeader : Bool} {next : List Char}
    (h : Ends n inHeader (op.precedence + 1) next →
      Spine (binding (primaryOf (rules n) inHeader) (op.precedence + 1))
      (do return (← operatorOf (levelAt op.precedence),
      ← binding (primaryOf (rules n) inHeader) (op.precedence + 1)))
      (fun x st => joinBinary x st.1 st.2) cs next (Same p (.binary x opPos op y))) :
    Respells n inHeader p (.binary x opPos op y) cs next where
  primary h7 := absurd h7 (Nat.ne_of_lt (Nat.lt_succ_of_lt op.precedence_lt))
  unary h6 := absurd h6 (Nat.ne_of_lt op.precedence_lt)
  binary _ := h

theorem apart_operand (h : ∀ c, y.opens c = true → (longer op).toList.contains c = false ∧
      (op = .quo → c ≠ '*'))
    {c : Char} (hc : y.opens c = true) (cs : List Char) : Apart op (c :: cs) where
  longer := by simpa using (h c hc).1
  comment hq := by
    have hslash : c ≠ '/' := by
      rintro rfl
      exact absurd (Expr.layout_of_opens hc) (by decide)
    simp [hslash, (h c hc).2 hq]

theorem blanks_apart (hy : y.Fits (op.precedence + 1)) (hs : repeatsSign op y = false)
    (hbegins : Phrase.Begins (.expr y)) (m : SourceMap) (level depth depth' : Nat)
    (rest : List Char) :
    ∃ sp, (if op.precedence < cutoff (.binary x opPos op y) depth then " " else "").toList = sp ∧
      (sp = [] ∨ sp = [' ']) ∧
      Apart op (sp ++ ((y.print m level { strength := op.precedence + 1, depth := depth' }).toList ++ rest)) := by
  by_cases hcut : op.precedence < cutoff (.binary x opPos op y) depth
  · exact ⟨[' '], by simp [hcut], .inr rfl, apart_blank op rfl _⟩
  · rcases blank_or_apart depth hy hs with h | h
    · exact absurd h hcut
    · obtain ⟨c, t, ht, hc⟩ :=
        hbegins m level { strength := op.precedence + 1, depth := depth' } rfl hy.1
      refine ⟨[], by simp [hcut], .inl rfl, ?_⟩
      rw [ht]
      exact apart_operand h hc (t ++ rest)

theorem boundary_operator (x : Expr) (op : BinaryOp) {sp : List Char} (hsp : sp = [] ∨ sp = [' '])
    (cs : List Char) :
    Boundary x (sp ++ (op.symbol.toList ++ cs)) := by
  rcases hsp with rfl | rfl
  · obtain ⟨c, t, ht, hc⟩ := symbol_head op
    rw [ht]
    refine ⟨?_, fun _ => ?_⟩
    · simpa using eq_false_of_contains (by decide) c hc
    · simpa using eq_false_of_contains (p := (· == '.')) (by decide) c hc
  · exact ⟨by simp; decide, by simp⟩

/-- An operator and its right operand are added to what is read as the left operand. -/
theorem Respells.join {inHeader : Bool} {left sp next : List Char}
    (hx : ∀ behind, Boundary x behind → Respells n inHeader p x (left ++ behind)
      (trim isBlank behind))
    (hfx : op.precedence ≤ x.rank) (hy : Respells n inHeader p y cs next)
    (hfy : op.precedence + 1 ≤ y.rank) (hsp : sp = [] ∨ sp = [' ']) (hapart : Apart op (sp ++ cs))
    (hcs : Stops startsLayout cs) (hle : next.length ≤ cs.length) :
    Respells n inHeader p (.binary x opPos op y) (left ++ (sp ++ (op.symbol.toList ++ (sp ++ cs))))
      next := by
  refine .of_binary fun hends => ?_
  have hblank : ∀ c ∈ sp, isBlank c = true ∧ isBlankOrNewline c = true := by
    rcases hsp with rfl | rfl <;> simp
    decide
  have hxr := hx _ (boundary_operator x op hsp (sp ++ cs))
  rw [trim_append_of_all fun c hc => (hblank c hc).1, trim_operator hapart] at hxr
  have hends' := ends_operator n inHeader hapart
  -- A left operand of the same strength is a chain already.
  have hleft : Spine (binding (primaryOf (rules n) inHeader) (op.precedence + 1))
      (do return (← operatorOf (levelAt op.precedence),
        ← binding (primaryOf (rules n) inHeader) (op.precedence + 1)))
      (fun x st => joinBinary x st.1 st.2) (left ++ (sp ++ (op.symbol.toList ++ (sp ++ cs))))
      (op.symbol.toList ++ (sp ++ cs)) (Same p x) := by
    have hlt := op.precedence_lt
    by_cases hrank : x.rank = op.precedence
    · have hspine := hxr.binary (by omega)
      rw [hrank] at hspine
      exact hspine hends'
    · exact .of_reads (hxr.reads (by omega) (by omega) hends')
  have hop := reads_operatorOf op hapart.longer
  rw [trim_append_of_all fun c hc => (hblank c hc).2, trim_isBlankOrNewline hcs] at hop
  have hright := hy.reads hfy op.precedence_lt hends
  have hstep : Reads (do return (← operatorOf (levelAt op.precedence),
      ← binding (primaryOf (rules n) inHeader) (op.precedence + 1)))
      (op.symbol.toList ++ (sp ++ cs)) next fun st => st.1.2 = op ∧ Same p y st.2 :=
    hop.bind fun o ho => hright.bind fun y' hy' => .pure ⟨ho, hy'⟩
  refine hleft.snoc hstep ?_ ?_
  · obtain ⟨c, t, ht, -⟩ := symbol_head op
    simp only [ht, List.length_append, List.length_cons]
    omega
  · rintro x' ⟨⟨opPos', op'⟩, y'⟩ hx' ⟨rfl, hy'⟩
    simp only [Same, joinBinary, Expr.shape]
    rw [hx', hy']

theorem Expr.rereads_binary (hx : x.Rereads p) (hy : y.Rereads p)
    (hbegins : Phrase.Begins (.expr y)) (hf : (Expr.binary x opPos op y).Formed)
    (hplain : (Expr.binary x opPos op y).isPlain = true) :
    (Expr.binary x opPos op y).Rereads p := by
  intro m level slot n inHeader rest _ hslot hn hexp hb
  have hs : ¬ op.precedence < slot.strength := Nat.not_lt.2 hslot
  simp only [Expr.print, hs, decide_false, Bool.false_eq_true, if_false, String.toList_append,
    List.append_assoc, List.length_append] at hn ⊢
  obtain ⟨sp, hsp, hblank, hapart⟩ :=
    blanks_apart hf.2 (by simpa [Expr.isPlain] using hplain) hbegins m level slot.depth
    (slot.depth + 1) rest
  rw [hsp] at hn ⊢
  have hexp' : inHeader = true → x.exposed = false ∧ y.exposed = false :=
    fun h => Bool.or_eq_false_iff.1 (hexp h)
  refine .join (fun behind hbehind => hx m level _ n inHeader behind rfl hf.1.1 (by omega) (fun h =>
    (hexp' h).1) hbehind)
    hf.1.1 (hy m level _ n inHeader rest rfl hf.2.1 (by omega) (fun h => (hexp' h).2) ⟨hb.word,
      hb.number⟩) hf.2.1 hblank
    hapart (hbegins.stops_layout m level _ rfl hf.2.1 rest) ?_
  have hlen := length_trim_le isBlank rest
  simp only [List.length_append]
  omega

/-- The text is read back in the places where the expression can stand. -/
def Phrase.Rereads (p : Parens) : Phrase → Prop
  | .expr e =>
    match e.role with
    | .plain => e.Rereads p
    | .elided => e.RereadsElement p
    | .keyed => e.RereadsItem p
    | .dots => True
  | .stmt _ => True

namespace Phrase.Rereads

variable {p : Parens} {e : Expr}

theorem plain (h : Phrase.Rereads p (.expr e)) (hr : e.role = .plain) : e.Rereads p := by
  simpa only [Phrase.Rereads, hr] using h

theorem element (h : Phrase.Rereads p (.expr e)) (hb : Phrase.Begins (.expr e))
    (hr : e.role = .plain ∨ e.role = .elided) : e.RereadsElement p := by
  rcases hr with hr | hr
  · exact (h.plain hr).element hb hr
  · simpa only [Phrase.Rereads, hr] using h

theorem item (h : Phrase.Rereads p (.expr e)) (hb : Phrase.Begins (.expr e)) (hr : e.role ≠ .dots) :
    e.RereadsItem p := by
  cases hrole : e.role with
  | plain => exact (h.element hb (.inl hrole)).item
  | elided => exact (h.element hb (.inr hrole)).item
  | keyed => simpa only [Phrase.Rereads, hrole] using h
  | dots => exact absurd hrole hr

end Phrase.Rereads

theorem Phrase.Printable.rereads (hp : p ≠ .kept) {n : Phrase} (h : Throughout Phrase.Printable n) :
    n.Rereads p := by
  induction h with
  | @intro n here below ih =>
    obtain ⟨hplain, hformed⟩ := here
    have hbegins : ∀ c ∈ n.children, c.Begins := fun c hc => Phrase.Printable.begins (below c hc)
    cases n with
    | stmt s => trivial
    | expr e =>
      cases e with
      | ident id => exact Expr.rereads_ident p hformed
      | lit l => exact Expr.rereads_lit p hformed
      | paren l x r =>
        have hx : Phrase.expr x ∈ (Phrase.expr (.paren l x r)).children := by simp
        exact Expr.rereads_paren hp ((ih _ hx).plain hformed.2) (hbegins _ hx) l r
      | selector x sel =>
        have hx : Phrase.expr x ∈ (Phrase.expr (.selector x sel)).children := by simp
        exact Expr.rereads_selector ((ih _ hx).plain hformed.1.2) hformed hplain
      | index x l i r =>
        have hx : Phrase.expr x ∈ (Phrase.expr (.index x l i r)).children := by simp
        have hi : Phrase.expr i ∈ (Phrase.expr (.index x l i r)).children := by simp
        exact Expr.rereads_index ((ih _ hx).plain hformed.1.2) ((ih _ hi).plain hformed.2.2)
          (hbegins _ hi) hformed
      | slice x l low high max r =>
        have hx : Phrase.expr x ∈ (Phrase.expr (.slice x l low high max r)).children := by
          simp
        have hbounds : ∀ e, e ∈ low ∨ e ∈ high ∨ e ∈ max →
            Phrase.expr e ∈ (Phrase.expr (.slice x l low high max r)).children := by
          simp +contextual
        obtain ⟨hfx, hlow, hhigh, hmax⟩ := hformed
        exact Expr.rereads_slice ((ih _ hx).plain hfx.2)
          (fun e he => ⟨(ih _ (hbounds e (.inl he))).plain (hlow e he).2,
            hbegins _ (hbounds e (.inl he))⟩)
          (fun e he => ⟨(ih _ (hbounds e (.inr (.inl he)))).plain (hhigh e he).2,
            hbegins _ (hbounds e (.inr (.inl he)))⟩)
          (fun e he => ⟨(ih _ (hbounds e (.inr (.inr he)))).plain (hmax e he).2,
            hbegins _ (hbounds e (.inr (.inr he)))⟩)
          ⟨hfx, hlow, hhigh, hmax⟩
      | call f l args dots r =>
        have hf : Phrase.expr f ∈ (Phrase.expr (.call f l args dots r)).children := by
          simp
        have hargs :
            ∀ a ∈ args, Phrase.expr a ∈ (Phrase.expr (.call f l args dots r)).children := by
          simp +contextual
        exact Expr.rereads_call ((ih _ hf).plain hformed.1.2)
          (fun a ha => ⟨(ih _ (hargs a ha)).plain (hformed.2 a ha).2, hbegins _ (hargs a ha)⟩)
          hformed hplain
      | star pos x =>
        have hx : Phrase.expr x ∈ (Phrase.expr (.star pos x)).children := by simp
        exact Expr.rereads_star ((ih _ hx).plain hformed.2) hformed (hbegins _ hx) pos
      | unary pos op x =>
        have hx : Phrase.expr x ∈ (Phrase.expr (.unary pos op x)).children := by simp
        exact Expr.rereads_unary ((ih _ hx).plain hformed.2) hformed (below _ hx) pos op
      | binary x opPos op y =>
        have hx : Phrase.expr x ∈ (Phrase.expr (.binary x opPos op y)).children := by
          simp
        have hy : Phrase.expr y ∈ (Phrase.expr (.binary x opPos op y)).children := by
          simp
        exact Expr.rereads_binary ((ih _ hx).plain hformed.1.2) ((ih _ hy).plain hformed.2.2)
          (hbegins _ hy) hformed hplain
      | composite t l elems r =>
        have helems :
            ∀ e ∈ elems, Phrase.expr e ∈ (Phrase.expr (.composite t l elems r)).children := by
          simp +contextual
        have hitems : ∀ e ∈ elems, e.RereadsItem p ∧ Phrase.Begins (.expr e) := fun e he =>
          ⟨(ih _ (helems e he)).item (hbegins _ (helems e he)) (hformed.2 e he),
            hbegins _ (helems e he)⟩
        cases t with
        | none => exact Expr.rereadsElement_elided hitems l r
        | some t =>
          have ht : Phrase.expr t ∈ (Phrase.expr (.composite (some t) l elems r)).children := by
            simp
          have hspelled : t.isSpelledOut = false := by
            have hplain := (below _ ht).here.1
            cases t <;> simp_all [Expr.isSpelledOut, Phrase.isPlain, Expr.isPlain]
          exact Expr.rereads_composite ((ih _ ht).plain (hformed.1 t rfl).2) hitems hformed hspelled
      | keyValue key colon value =>
        have hk : Phrase.expr key ∈ (Phrase.expr (.keyValue key colon value)).children := by
          simp
        have hv : Phrase.expr value ∈ (Phrase.expr (.keyValue key colon value)).children := by
          simp
        exact Expr.rereadsItem_keyValue ((ih _ hk).element (hbegins _ hk) hformed.1)
          ((ih _ hv).element (hbegins _ hv) hformed.2) (hbegins _ hv) colon
      | _ => simp [Phrase.isPlain, Expr.isPlain] at hplain

end GoFun
