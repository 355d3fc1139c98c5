import GoFun.Proofs.Printer.Spaced
import GoFun.Proofs.Tree.Heard
import GoFun.Proofs.Tree.Tidy

/-!
# Lists, bodies and signatures printed a second time

What prints are put together from: if the tokens of another list, body or signature with the same
tidy form are just where the print has them, then it is printed the same.
-/
namespace GoFun

open Parser Token Lex List

variable {ts : List Token}
variable (m : SourceMap)

namespace Token.Sound

variable {x : Token}

theorem opening (h : x.Sound) (hk : x.kind ≠ .fixed) :
    ∃ c cs, x.text.toList = c :: cs ∧ isGap c = false ∧ (x.kind = .literal → c ≠ 'c') := by
  obtain ⟨-, r, hs⟩ := h
  cases hs with
  | name h =>
    obtain ⟨c, cs, hw, hc, -⟩ := Kind.word.opens _ _ _ h
    refine ⟨c, cs, hw, ?_, by simp⟩
    have hgap := contains_eq_false (s := " \t\r\n,;".toList) (by decide) c hc
    simp only [String.reduceToList, contains_cons, contains_nil, Bool.or_false,
      Bool.or_eq_false_iff] at hgap
    simp [isGap, isBlankOrNewline, isBlank, hgap]
  | @literal _ w r k hlit h =>
    obtain ⟨c, cs, hw, hc, -⟩ := k.opens _ _ _ h
    have hgap : " \t\r\n,;c".toList.contains c = false := by
      simp only [mem_cons, not_mem_nil, or_false] at hlit
      rcases hlit with rfl | rfl | rfl
      · exact contains_eq_false (by decide) c hc
      · exact contains_eq_false (by decide) c hc
      · exact contains_eq_false (by decide) c hc
    simp only [String.reduceToList, contains_cons, contains_nil, Bool.or_false,
      Bool.or_eq_false_iff] at hgap
    exact ⟨c, cs, hw, by simp [isGap, isBlankOrNewline, isBlank, hgap],
      fun _ => by simpa using hgap.2.2.2.2.2.2⟩
  | word | sign => exact absurd rfl hk

theorem opensToken (h : x.Sound) (hk : x.kind ≠ .fixed) : Lex.opensToken x.text.toList = true := by
  obtain ⟨c, cs, hw, hc, -⟩ := h.opening hk
  simp [hw, Lex.opensToken, hc]

theorem ne_chan (h : x.Sound) (hk : x.kind ≠ .fixed) : x.text ≠ "chan" := by
  rintro ht
  obtain ⟨c, cs, hw, -, hc⟩ := h.opening hk
  obtain ⟨-, r, hs⟩ := h
  cases hs with
  | name _ hkey =>
    obtain rfl := ht
    exact hkey (by decide)
  | literal =>
    rw [ht] at hw
    exact hc rfl (List.cons.inj hw).1.symm
  | word | sign => exact hk rfl

end Token.Sound

/-! ### Texts of single tokens -/

namespace Echo

variable (m : SourceMap)
variable {w : String}

theorem sound {x y : Token} (hx : x.Sound) (hk : x.kind ≠ .fixed) (ht : y.text = x.text) :
    Echo m x.text [y] fun o o' => (∀ p ∈ y.place, p = some o) ∧
    o' = o + utf8Length x.text.toList := by
  rw [← ht]
  exact .token m (by rw [ht]; exact hx.opensToken hk) (by rw [ht]; exact hx.ne_chan hk)

theorem sign (p : Pos) (hw : opensToken w.toList = true) (hn : w ≠ "chan") :
    Echo m w [placed p w] fun o _ => p = some o :=
  (token m (x := .placed p w) hw hn).mono fun _ _ h => h.1 p rfl

theorem opening (t : String) (p : Pos) (w : String) (ts : List Token) (ws : List String)
    (hws : ts.map Token.text = ws) (ht : spaces (w :: ws) t.toList = true)
    (ho : opensToken t.toList = true) : Echo m t (.placed p w :: ts) fun o o' =>
      p = some o ∧ m.line (some o') = m.line (some o) + t.toList.count '\n' :=
  (lit m t (.placed p w :: ts) (w :: ws) (by simp [hws]) ht).mono fun _ _ h =>
    ⟨h.1 ho _ rfl _ rfl, h.2.2⟩

theorem first (t : String) (p : Pos) (w : String) (ht : spaces [w] t.toList = true)
    (ho : opensToken t.toList = true) : Echo m t [.placed p w] fun o o' =>
      p = some o ∧ m.line (some o') = m.line (some o) + t.toList.count '\n' :=
  opening m t p w [] [] rfl ht ho

theorem closing (p : Pos) {n : Nat} (hw : opensToken w.toList = true) (hn : w ≠ "chan")
    (hl : utf8Length w.toList = n) :
    Echo m w [.placed p w] fun o o' => p = some o ∧ Pos.plus p n = some o' :=
  (token m (x := .placed p w) hw hn).mono fun o o' h => by
    obtain ⟨hp, ho⟩ := h
    obtain rfl : p = some o := hp p rfl
    rw [Token.text_placed, hl] at ho
    exact ⟨rfl, by rw [ho]; rfl⟩

end Echo

theorem Echo.ident {id id' : Ident} (hs : id.token.Sound) (h : id'.shape = id.shape) :
    Echo m id.name [id'.token] fun o o' => id'.name = id.name ∧ id'.pos = some o ∧
    id'.stop = some o' := by
  have hname : id'.name = id.name := (Ident.mk.inj h).2.1
  refine (Echo.sound m (y := id'.token) hs (by simp [Ident.token]) hname).mono fun o o' hplace => ?_
  obtain ⟨hp, ho⟩ := hplace
  have hpos : id'.pos = some o := hp _ rfl
  refine ⟨hname, hpos, ?_⟩
  rw [Ident.stop, hpos, utf8ByteSize_eq, hname, ho]
  rfl

theorem Echo.rbrack (p : Pos) :
    Echo m "]" [placed p "]"] fun o o' => p = some o ∧ Pos.plus p 1 = some o' :=
  .closing m p (by decide) (by decide) (by decide)

theorem Echo.rparen (p : Pos) :
    Echo m ")" [placed p ")"] fun o o' => p = some o ∧ Pos.plus p 1 = some o' :=
  .closing m p (by decide) (by decide) (by decide)

theorem Echo.rbrace (p : Pos) :
    Echo m "\x7d" [placed p "\x7d"] fun o o' => p = some o ∧ Pos.plus p 1 = some o' :=
  .closing m p (by decide) (by decide) (by decide)

theorem Echoes.commas {m : SourceMap} {tl ul : List String} (h : Echoes m tl ts ul) :
    Echo m (commas tl) ts fun _ _ => ul = tl :=
  h.intercalate (by decide)

theorem all_isGap_tabs (level : Nat) : (tabs level).toList.all isGap = true := by
  rw [tabs, String.toList_ofList]
  exact all_eq_true.2 fun c hc => by rw [(mem_replicate.1 hc).2]; decide

theorem count_tabs (level : Nat) : (tabs level).toList.count '\n' = 0 := by
  rw [tabs, String.toList_ofList, count_replicate]
  simp

/-! ### Phrases that are printed the same -/

/-- What is left of an expression in a slot. -/
def Slot.view (slot : Slot) (x : Expr) : Expr := if slot.bare then x.unparen else x

/-- The expression needs no parentheses in the slot. Slots that drop parentheses are all alike. -/
structure Slot.Takes (slot : Slot) (e : Expr) : Prop where
  strength : slot.strength ≤ e.rank
  bare : slot.bare = true → slot = { bare := true }

section Reprints

variable (m m' : SourceMap)

/-- The print of `e` has the tokens of `a`, and `a` is printed the same when its tokens are
there. -/
def Expr.Echoed (level : Nat) (slot : Slot) (e a : Expr) : Prop :=
  Echo m' (e.print m level slot) a.tokens fun o o' =>
    a.print m' level slot = e.print m level slot ∧ a.start = some o ∧ a.stop = some o'

def FuncType.Echoed (level : Nat) (t a : FuncType) : Prop :=
  Echo m' (t.printSignature m level) a.tokens fun _ o' =>
    a.printSignature m' level = t.printSignature m level ∧ a.stop = some o'

def Stmt.Echoed (level : Nat) (s a : Stmt) : Prop :=
  Echo m' (s.print m level) a.tokens fun _ _ => a.print m' level = s.print m level

structure Expr.Reprints (e : Expr) : Prop where
  print : ∀ {a : Expr} {level : Nat} {slot : Slot}, slot.Takes e →
    a.tidy .kept = slot.view (e.tidy .merged) → e.Echoed m m' level slot a
  /-- A signature may be without the word in front. -/
  signature : ∀ {t a : FuncType} {level : Nat}, e = .func t → a.tidy .kept = t.tidy .merged →
    t.Echoed m m' level a

def Stmt.Reprints (s : Stmt) : Prop :=
  ∀ (a : Stmt) (level : Nat), a.tidy .kept = s.tidy .merged → s.Echoed m m' level a

def Phrase.Reprints : Phrase → Prop
  | expr e => e.Reprints m m'
  | stmt s => s.Reprints m m'

end Reprints

/-- What the printer relies on. -/
structure Phrase.Sturdy (n : Phrase) : Prop where
  formed : n.Formed
  whole : n.IsWhole
  sound : ∀ x ∈ n.heard, x.Sound

section

variable {m m' : SourceMap} {level : Nat}
variable {e : Expr} {a b : Block} {es as : List Expr} {ss : List Stmt} {ids : List Ident}
variable {tag tag' : Option Literal} {list : List Field}

theorem Expr.Reprints.inner {a : Expr} (he : e.Reprints m m') (h : a.tidy .kept = e.tidy .merged)
    (level : Nat)
    (slot : Slot) (hs : slot.strength ≤ e.rank) (hb : slot.bare = false) :
    e.Echoed m m' level slot a :=
  he.print ⟨hs, by simp [hb]⟩ (by simpa [Slot.view, hb] using h)

theorem Expr.Reprints.plain {a : Expr} (he : e.Reprints m m') (h : a.tidy .kept = e.tidy .merged)
    (level depth : Nat) :
    e.Echoed m m' level { depth := depth } a :=
  he.inner h level { depth := depth } (Nat.zero_le _) rfl

theorem Expr.Reprints.header {a : Expr} (he : e.Reprints m m')
    (h : a.tidy .kept = (e.tidy .merged).unparen) (level : Nat) :
    e.Echoed m m' level { bare := true } a :=
  he.print ⟨Nat.zero_le _, fun _ => rfl⟩ (by simpa [Slot.view] using h)

theorem Expr.unparen_of_isParen (h : e.isParen = false) : e.unparen = e := by
  cases e with
  | paren => cases h
  | _ => rfl

theorem Expr.Reprints.of_plain (hp : e.isParen = false) (hf : ∀ t, e ≠ .func t)
    (h : ∀ a level slot, slot.strength ≤ e.rank → a.tidy .kept = e.tidy .merged →
      e.Echoed m m' level slot a) :
    e.Reprints m m' where
  print ht ha := by
    refine h _ _ _ ht.strength (ha.trans ?_)
    rw [Slot.view, Expr.unparen_of_isParen (by rw [Expr.isParen_tidy (by simp), hp]), ite_self]
  signature he := absurd he (hf _)

/-! ### Lists of expressions -/

theorem echo_expr? (level depth : Nat) {e a : Option Expr} (he : ∀ x ∈ e, Expr.Reprints m m' x)
    (h : tidyExpr? .kept a = tidyExpr? .merged e) :
    Echo m' (printExpr? m level { depth := depth } e) (tokensOfExpr? [] a) fun _ _ =>
      printExpr? m' level { depth := depth } a = printExpr? m level { depth := depth } e := by
  cases e with
  | none =>
    cases a with
    | none => exact (Echo.empty m').mono fun _ _ _ => rfl
    | some a => simp [tidyExpr?] at h
  | some e =>
    cases a with
    | none => simp [tidyExpr?] at h
    | some a =>
      refine ((he e rfl).plain (by simpa [tidyExpr?] using h) level depth).as rfl
        (by simp [tokensOfExpr?]) ?_
      exact fun _ _ h => h.1

theorem echoes_exprs (level depth : Nat) (he : ∀ e ∈ es, Expr.Reprints m m' e)
    (h : tidyExprs .kept as = tidyExprs .merged es) :
    Echoes m' (printExprs m level { depth := depth } es) (tokensOfExprs as)
      (printExprs m' level { depth := depth } as) := by
  rw [tidyExprs_eq_map, tidyExprs_eq_map] at h
  induction es generalizing as with
  | nil =>
    obtain rfl := map_eq_nil_iff.1 h
    exact .nil
  | cons e es ih =>
    obtain ⟨a, as, rfl, ha, has⟩ := map_eq_cons_iff.1 h
    obtain ⟨he, hes⟩ := forall_mem_cons.1 he
    exact .cons ((he.plain ha level depth).mono fun _ _ h => h.1) (ih hes has)

theorem length_of_tidyExprs (h : tidyExprs .kept as = tidyExprs .merged es) :
    as.length = es.length := by
  have hlen := congrArg List.length h
  simpa [tidyExprs_eq_map] using hlen

theorem isEmpty_of_tidyExprs (h : tidyExprs .kept as = tidyExprs .merged es) :
    as.isEmpty = es.isEmpty := by
  have hempty := congrArg List.isEmpty h
  simpa [tidyExprs_eq_map] using hempty

theorem echo_items (level depth line : Nat) (first : Bool) (he : ∀ e ∈ es, Expr.Reprints m m' e)
    (h : tidyExprs .kept as = tidyExprs .merged es) :
    Echo m' (printItems m level depth line first es).1 (tokensOfExprs as) fun o o' =>
      printItems m' level depth (m'.line (some o)) first as =
        ((printItems m level depth line first es).1, m'.line (some o')) := by
  rw [tidyExprs_eq_map, tidyExprs_eq_map] at h
  induction es generalizing as line first with
  | nil =>
    obtain rfl := map_eq_nil_iff.1 h
    exact (Echo.empty m').mono fun o o' ho => by rw [ho]; rfl
  | cons e es ih =>
    obtain ⟨a, as, rfl, ha, has⟩ := map_eq_cons_iff.1 h
    obtain ⟨he, hes⟩ := forall_mem_cons.1 he
    have hitem := he.plain ha level depth
    have hrest := ih (m.line e.stop) false hes has
    simp only [printItems, tokensOfExprs]
    -- a line break in the text is one between the lines of the map
    by_cases hbreaks : (0 < line && line < m.line e.start) = true
    · simp only [hbreaks, decide_true, if_true]
      refine ((Echo.gap m' (t := (if first = true then "" else ",") ++ ("\n" ++ tabs level))
        ?_).append (hitem.append hrest)).as (by simp [String.append_assoc]) (by simp) ?_
      · cases first <;> simp [all_isGap_tabs] <;> decide
      · rintro o o' ⟨o₁, hline, o₂, ⟨hprint, hstart, hstop⟩, hitems⟩
        have hlt : m'.line (some o) < m'.line (some o₁) := by
          rw [hline]
          cases first <;> simp [count_tabs]
        simp only [hstart, hstop, hitems, hprint, hlt, SourceMap.line_pos, decide_true,
          Bool.and_self, if_true]
    · simp only [hbreaks, decide_false, if_false, Bool.false_eq_true]
      refine ((Echo.gap m' (t := if first = true then "" else ", ") ?_).append
        (hitem.append hrest)).as (by simp [String.append_assoc]) (by simp) ?_
      · cases first <;> decide
      · rintro o o' ⟨o₁, hline, o₂, ⟨hprint, hstart, hstop⟩, hitems⟩
        have hnlt : ¬ m'.line (some o) < m'.line (some o₁) := by
          rw [hline]
          cases first <;> simp
        simp only [hstart, hstop, hitems, hprint, hnlt, decide_false, Bool.and_false,
          Bool.false_eq_true, if_false]

/-- What stands in front of the closing bracket, given how many lines below the last item the
bracket is. -/
theorem closeItems_eq {last : Nat} {isEmpty : Bool} {closing closing' : Pos} {o : Nat}
    (h : m'.line closing' = m'.line (some o) + (closeItems m level last isEmpty
      closing).toList.count '\n') :
    closeItems m' level (m'.line (some o)) isEmpty closing' =
      closeItems m level last isEmpty closing := by
  rw [closeItems] at h ⊢
  by_cases hb : (0 < last && last < m.line closing) = true
  · rw [closeItems, if_pos hb]
    rw [if_pos hb] at h
    refine if_pos ?_
    have hpos := m'.line_pos o
    cases isEmpty <;> simp_all [count_tabs]
  · rw [closeItems, if_neg hb]
    rw [if_neg hb] at h
    exact if_neg (by simp_all)

theorem all_isGap_closeItems (last : Nat) (isEmpty : Bool) (closing : Pos) :
    (closeItems m level last isEmpty closing).toList.all isGap = true := by
  rw [closeItems]
  split
  · cases isEmpty <;> simp [all_isGap_tabs] <;> decide
  · rfl

theorem echo_bracketed (level depth : Nat) {before after dots : String}
    (opening closing opening' closing' : Pos) (he : ∀ e ∈ es, Expr.Reprints m m' e)
    (h : tidyExprs .kept as = tidyExprs .merged es)
    (hbefore : Echo m' before [placed opening' before] fun o o' => opening' = some o ∧
      m'.line (some o') = m'.line (some o))
    (hdots : Echo m' dots ts fun o o' => m'.line (some o') = m'.line (some o))
    (hafter : Echo m' after [placed closing' after] fun o o' => closing' = some o ∧
      Pos.plus closing' 1 = some o') :
    Echo m' (before ++ (printItems m (level + 1) depth (m.line opening) true es).1 ++ dots ++
        closeItems m level (printItems m (level + 1) depth (m.line opening) true es).2 es.isEmpty
        closing ++ after)
      (placed opening' before :: (tokensOfExprs as ++ ts ++ [placed closing' after])) fun o o' =>
        opening' = some o ∧ Pos.plus closing' 1 = some o' ∧
        (printItems m' (level + 1) depth (m'.line opening') true as).1 =
          (printItems m (level + 1) depth (m.line opening) true es).1 ∧
        closeItems m' level (printItems m' (level + 1) depth (m'.line opening') true as).2
        as.isEmpty closing' =
          closeItems m level (printItems m (level + 1) depth (m.line opening) true es).2 es.isEmpty
          closing := by
  have hitems := echo_items (level + 1) depth (m.line opening) true he h
  refine ((((hbefore.append hitems).append hdots).append
    (.gap m' (all_isGap_closeItems _ es.isEmpty closing))).append hafter).as rfl (by simp) ?_
  rintro o o' ⟨_, ⟨_, ⟨_, ⟨_, ⟨hopening, hline⟩, hitems⟩, hdots⟩, hgap⟩, hclosing, hstop⟩
  rw [hdots] at hgap
  rw [hopening, ← hline, hitems, isEmpty_of_tidyExprs h]
  exact ⟨rfl, hstop, rfl, closeItems_eq (by rw [hclosing, hgap])⟩

theorem Pos.isSome_of_mark {p q : Pos} (h : p.mark = q.mark) : p.isSome = q.isSome := by
  have hmark := congrArg Option.isSome h
  simpa [Pos.mark] using hmark

theorem echo_dots {dots dots' : Pos} (h : dots'.mark = dots.mark) :
    Echo m' (if dots.isSome then "..." else "") (known dots' "...") fun o o' => m'.line (some o') =
      m'.line (some o) := by
  rw [known, Pos.isSome_of_mark h]
  cases dots.isSome with
  | true => exact (Echo.first m' "..." dots' "..." (by decide) (by decide)).mono fun _ _ h => h.2
  | false => exact (Echo.empty m').mono fun _ _ h => by rw [h]

/-! ### Lists of statements -/

@[elab_as_elim]
theorem tidyStmts_induction {motive : List Stmt → List Stmt → Prop} {as : List Stmt}
    (hs : ∀ s ∈ ss, s.Reprints m m') (h : tidyStmts .kept as = tidyStmts .merged ss)
    (nil : motive [] [])
    (cons : ∀ {a s as ss}, a.tidy .kept = s.tidy .merged → s.Reprints m m' →
      motive as ss → motive (a :: as) (s :: ss)) : motive as ss := by
  rw [tidyStmts_eq_map, tidyStmts_eq_map] at h
  induction ss generalizing as with
  | nil =>
    obtain rfl := map_eq_nil_iff.1 h
    exact nil
  | cons s ss ih =>
    obtain ⟨a, as, rfl, ha, has⟩ := map_eq_cons_iff.1 h
    obtain ⟨hs, hss⟩ := forall_mem_cons.1 hs
    exact cons ha hs (ih hss has)

theorem echoes_stmts (level : Nat) {as : List Stmt} (hs : ∀ s ∈ ss, s.Reprints m m')
    (h : tidyStmts .kept as = tidyStmts .merged ss) :
    Echoes m' (printStmts m level ss) (tokensOfStmts as) (printStmts m' level as) :=
  tidyStmts_induction hs h .nil fun ha hs hrest => .cons (hs _ _ ha) hrest

theorem Stmt.indent_tidy (p : Parens) (level : Nat) (s : Stmt) :
    (s.tidy p).indent level = s.indent level := by
  cases s <;> rfl

theorem indent_eq {s a : Stmt} (h : a.tidy .kept = s.tidy .merged) (level : Nat) :
    a.indent level = s.indent level := by
  rw [← a.indent_tidy .kept, h, s.indent_tidy]

theorem all_isGap_indent (s : Stmt) (level : Nat) : (s.indent level).toList.all isGap = true := by
  cases s <;> exact all_isGap_tabs _

theorem echo_lines (level : Nat) {as : List Stmt} (hs : ∀ s ∈ ss, s.Reprints m m')
    (h : tidyStmts .kept as = tidyStmts .merged ss) :
    Echo m' (printLines m level ss) (tokensOfStmts as) fun _ _ => printLines m' level as =
      printLines m level ss := by
  refine tidyStmts_induction hs h ((Echo.empty m').mono fun _ _ _ => rfl)
    fun {_ s _ _} ha hs ih => ?_
  refine ((((Echo.gap m' (all_isGap_indent s level)).append (hs _ _ ha)).append
    (.gap m' (t := "\n") (by decide))).append ih).as rfl (by simp [tokensOfStmts]) ?_
  rintro _ _ ⟨_, ⟨_, ⟨_, -, hprint⟩, -⟩, hrest⟩
  rw [printLines, printLines, indent_eq ha, hprint, hrest]

theorem echo_clauseBody (level : Nat) {as : List Stmt} (hs : ∀ s ∈ ss, s.Reprints m m')
    (h : tidyStmts .kept as = tidyStmts .merged ss) :
    Echo m' (printClauseBody m level ss) (tokensOfStmts as) fun _ _ =>
      printClauseBody m' level as = printClauseBody m level ss := by
  refine tidyStmts_induction hs h ((Echo.empty m').mono fun _ _ _ => rfl)
    fun {_ s _ _} ha hs ih => ?_
  refine ((((Echo.gap m' (t := "\n") (by decide)).append
    (.gap m' (all_isGap_indent s level))).append (hs _ _ ha)).append ih).as rfl (by simp [tokensOfStmts]) ?_
  rintro _ _ ⟨_, ⟨_, -, hprint⟩, hrest⟩
  rw [printClauseBody, printClauseBody, indent_eq ha, hprint, hrest]

theorem echo_block (level : Nat) {lines lines' : String} {as : List Stmt} (lbrace rbrace : Pos)
    (h : Echo m' lines (tokensOfStmts as) fun _ _ => lines' = lines) :
    Echo m' ("\x7b\n" ++ lines ++ tabs level ++ "\x7d") (Block.mk lbrace as rbrace).tokens
      fun _ _ => "\x7b\n" ++ lines' ++ tabs level ++ "\x7d" = "\x7b\n" ++ lines ++ tabs level ++ "\x7d" := by
  refine ((((Echo.word m' "\x7b\n" lbrace "\x7b" (by decide)).append h).append
    (.gap m' (all_isGap_tabs level))).append (.rbrace m' rbrace)).as rfl (by simp [Block.tokens]) ?_
  rintro _ _ ⟨_, ⟨_, ⟨_, -, hlines⟩, -⟩, -⟩
  rw [hlines]

theorem Block.echo (level : Nat) (hs : ∀ s ∈ b.list, s.Reprints m m')
    (h : a.tidy .kept = b.tidy .merged) :
    Echo m' (b.print m level) a.tokens fun _ _ => a.print m' level = b.print m level := by
  obtain ⟨_, _, _⟩ := a
  obtain ⟨_, _, _⟩ := b
  exact echo_block level _ _ (echo_lines (level + 1) hs (Block.mk.inj h).2.1)

theorem Block.echoClauses (level : Nat) (hs : ∀ s ∈ b.list, s.Reprints m m')
    (h : a.tidy .kept = b.tidy .merged) :
    Echo m' (b.printClauses m level) a.tokens fun _ _ => a.printClauses m' level =
      b.printClauses m level := by
  obtain ⟨_, _, _⟩ := a
  obtain ⟨_, _, _⟩ := b
  have hclauses := (echoes_stmts level hs (Block.mk.inj h).2.1).join (all_isGap_tabs level)
    (show "\n".toList.all isGap = true by decide)
  exact echo_block level _ _ (hclauses.mono fun _ _ h => by rw [h])

def printBody (m : SourceMap) (level : Nat) (signature : String) : Block → String
  | ⟨lbrace, list, rbrace⟩ =>
    match if m.line lbrace == m.line rbrace then inlineBody? signature (printStmts m level list)
      else none with
    | some body => body
    | none => "\x7b\n" ++ printLines m (level + 1) list ++ tabs level ++ "\x7d"

theorem inlineBody?_eq_some {signature body : String} {stmts : List String}
    (h : inlineBody? signature stmts = some body) :
    stmts = [] ∧ body = "\x7b\x7d" ∨
      body = "\x7b " ++ "; ".intercalate stmts ++ " \x7d" ∧
      ("; ".intercalate stmts).toList.count '\n' = 0 := by
  rw [inlineBody?] at h
  split at h
  · next he => exact .inl ⟨isEmpty_iff.1 he, (Option.some.inj h).symm⟩
  · split at h
    · cases h
    · next hlong =>
      rw [Bool.or_eq_true, String.contains_char_eq, decide_eq_true_eq, not_or] at hlong
      exact .inr ⟨(Option.some.inj h).symm, count_eq_zero.2 hlong.1⟩

/-- A body on one line is on one line again, and other bodies are not. -/
theorem echo_body (level : Nat) (signature : String) (hs : ∀ s ∈ b.list, s.Reprints m m')
    (h : a.tidy .kept = b.tidy .merged) :
    Echo m' (printBody m level signature b) a.tokens fun _ o' =>
      printBody m' level signature a = printBody m level signature b ∧
      Pos.plus a.rbrace 1 = some o' := by
  obtain ⟨lbrace, list, rbrace⟩ := b
  obtain ⟨lbrace', list', rbrace'⟩ := a
  have hlist : tidyStmts .kept list' = tidyStmts .merged list := (Block.mk.inj h).2.1
  have hstmts := echoes_stmts level hs hlist
  rw [printBody]
  split
  · next body hbody =>
    have hinline : inlineBody? signature (printStmts m level list) = some body := by
      split at hbody
      · exact hbody
      · cases hbody
    have hagain : m'.line lbrace' = m'.line rbrace' →
        printStmts m' level list' = printStmts m level list →
        printBody m' level signature ⟨lbrace', list', rbrace'⟩ = body := by
      intro hline hprint
      rw [printBody, hline, hprint, hinline]
      simp
    rcases inlineBody?_eq_some hinline with ⟨hnil, rfl⟩ | ⟨rfl, hcount⟩
    · rw [hnil] at hstmts
      generalize hts : tokensOfStmts list' = ts, hul : printStmts m' level list' = ul at hstmts
      cases hstmts
      refine ((Echo.first m' "\x7b" lbrace' "\x7b" (by decide) (by decide)).append
        (.rbrace m' rbrace')).as rfl (by simp [Block.tokens, hts]) ?_
      rintro o o' ⟨_, ⟨hl, hline⟩, hr, hstop⟩
      refine ⟨hagain ?_ (hul.trans hnil.symm), hstop⟩
      rw [hl, hr, hline]
      rfl
    · refine ((((Echo.first m' "\x7b " lbrace' "\x7b" (by decide) (by decide)).append
        (hstmts.intercalate (show "; ".toList.all isGap = true by decide)).lines).append
          (.gap m' (t := " ") (by decide))).append (.rbrace m' rbrace')).as
            (by simp [String.append_assoc]) (by simp [Block.tokens]) ?_
      rintro o o' ⟨_, ⟨_, ⟨_, ⟨hl, hline⟩, hprint, hline'⟩, hline''⟩, hr, hstop⟩
      refine ⟨hagain ?_ hprint, hstop⟩
      rw [hl, hr, hline'', hline', hline, hcount]
      rfl
  · refine ((((Echo.first m' "\x7b\n" lbrace' "\x7b" (by decide) (by decide)).append
      (echo_lines (level + 1) hs hlist).lines).append (.gap m' (all_isGap_tabs level))).append
        (.rbrace m' rbrace')).as rfl (by simp [Block.tokens]) ?_
    rintro o o' ⟨_, ⟨_, ⟨_, ⟨hl, hline⟩, hlines, hline'⟩, hline''⟩, hr, hstop⟩
    have hne : (m'.line lbrace' == m'.line rbrace') = false := by
      have hone : "\x7b\n".toList.count '\n' = 1 := by decide
      rw [beq_eq_false_iff_ne, hl, hr, hline'', hline', hline, hone]
      omega
    rw [printBody, hne, hlines]
    exact ⟨rfl, hstop⟩

/-! ### Fields and signatures -/

def printTag (tag : Option Literal) : String := (tag.map (" " ++ ·.text)).getD ""

def Expr.printBehind (m : SourceMap) (level : Nat) (names : String) : Expr → String
  | .func t => (if names.isEmpty then "func" else if t.funcPos.isSome then " func" else "") ++
      t.printSignature m level
  | e => (if names.isEmpty then "" else " ") ++ e.print m level {}

theorem printFields_cons (ids : List Ident) (e : Expr) (tag : Option Literal)
    (fields : List Field) :
    printFields m level (⟨ids, e, tag⟩ :: fields) =
      (Ident.names ids ++ e.printBehind m level (Ident.names ids) ++ printTag tag) ::
      printFields m level fields := by
  cases e <;> simp [printFields, Expr.printBehind, printTag, String.append_assoc]

theorem Expr.printBehind_eq (hids : (Ident.names ids).isEmpty = ids.isEmpty)
    (h : silentTokens ids e = 0) :
    e.printBehind m level (Ident.names ids) = (if ids.isEmpty then "" else " ") ++
      e.print m level {} := by
  cases e with
  | func t =>
    obtain ⟨funcPos, params, results⟩ := t
    rw [Expr.printBehind, hids, Expr.print]
    cases hi : ids.isEmpty with
    | true => simp
    | false =>
      cases funcPos with
      | none => simp [silentTokens, hi] at h
      | some p => simp [← String.append_assoc]
  | _ => simp [Expr.printBehind, hids]

theorem Expr.printBehind_method {params : FieldList} {results : Option FieldList}
    (hids : (Ident.names ids).isEmpty = ids.isEmpty) (hne : ids.isEmpty = false) :
    (Expr.func ⟨none, params, results⟩).printBehind m level (Ident.names ids) =
      FuncType.printSignature m level ⟨none, params, results⟩ := by
  simp [Expr.printBehind, hids, hne]

@[simp] theorem Ident.names_shape (ids : List Ident) :
    Ident.names (ids.map Ident.shape) = Ident.names ids := by
  simp [Ident.names, Function.comp_def, Ident.shape]

structure SameNames (ids as : List Ident) : Prop where
  shape : as.map Ident.shape = ids.map Ident.shape
  sound : ∀ x ∈ ids.map Ident.token, x.Sound

namespace SameNames

variable {ids as : List Ident}

theorem names (h : SameNames ids as) :
    Ident.names as = Ident.names ids := by rw [← Ident.names_shape, h.shape, Ident.names_shape]

theorem isEmpty (h : SameNames ids as) : as.isEmpty = ids.isEmpty := by
  have hlen := congrArg List.isEmpty h.shape
  simpa using hlen

theorem echoes (h : SameNames ids as) :
    Echoes m' (ids.map Ident.name) (as.map Ident.token) (as.map Ident.name) := by
  obtain ⟨hshape, hsound⟩ := h
  induction ids generalizing as with
  | nil =>
    obtain rfl := map_eq_nil_iff.1 hshape
    exact .nil
  | cons id ids ih =>
    obtain ⟨a, as, rfl, ha, has⟩ := map_eq_cons_iff.1 hshape
    obtain ⟨hid, hids⟩ := forall_mem_cons.1 hsound
    have hname : a.name = id.name := (Ident.mk.inj ha).2.1
    exact .cons ((Echo.sound m' hid (by simp [Ident.token]) hname).mono fun _ _ _ => hname)
      (ih has hids)

theorem echo (h : SameNames ids as) :
    Echo m' (Ident.names ids) (as.map Ident.token) fun _ _ => Ident.names as = Ident.names ids :=
  h.echoes.commas.mono fun _ _ he => congrArg commas he

theorem isEmpty_names (h : SameNames ids as) : (Ident.names ids).isEmpty = ids.isEmpty := by
  cases ids with
  | nil => rfl
  | cons id ids =>
    obtain ⟨c, cs, hname, -, -⟩ := (h.sound id.token (by simp)).opening (by simp [Ident.token])
    have hlist : (Ident.names (id :: ids)).toList ≠ [] := by
      have hid : id.name.toList = c :: cs := hname
      cases ids with
      | nil => simp [Ident.names, commas, hid]
      | cons id' ids => simp [Ident.names, commas, hid]
    rw [isEmpty_cons, String.isEmpty_eq_false_iff]
    rintro he
    exact hlist (by rw [he]; rfl)

theorem symm_isEmpty (h : SameNames ids as) : (Ident.names as).isEmpty = as.isEmpty := by
  rw [h.names, h.isEmpty_names, h.isEmpty]

end SameNames

theorem echo_tag (h : tag'.map Literal.shape = tag.map Literal.shape)
    (hs : ∀ x ∈ tag.toList.map Literal.token, x.Sound) :
    Echo m' (printTag tag) (tag'.toList.map Literal.token) fun _ _ => printTag tag' =
      printTag tag := by
  cases tag with
  | none =>
    obtain rfl : tag' = none := by simpa using h
    exact (Echo.empty m').mono fun _ _ _ => rfl
  | some l =>
    cases tag' with
    | none => simp at h
    | some l' =>
      have htext : l'.text = l.text := by
        have hl : l'.shape = l.shape := by simpa using h
        simpa [Literal.shape] using congrArg Literal.text hl
      have hl :=
        Echo.sound (x := l.token) (y := l'.token) m' (hs _ (by simp)) (by simp [Literal.token])
          htext
      refine ((Echo.gap m' (t := " ") (by decide)).append hl).as rfl rfl fun _ _ _ => ?_
      simp [printTag, htext]

/-- The types of the fields are printed the same, with the word in front of a signature and
without. -/
theorem echo_field {as : List Ident} {a : Expr} (hids : SameNames ids as) (he : e.Reprints m m')
    (ha : a.tidy .kept = e.tidy .merged) (htag : tag'.map Literal.shape = tag.map Literal.shape)
    (hs : ∀ x ∈ tag.toList.map Literal.token, x.Sound) :
    Echo m' (Ident.names ids ++ e.printBehind m level (Ident.names ids) ++ printTag tag)
      (as.map Ident.token ++ a.tokens.drop (silentTokens ids e) ++ tag'.toList.map Literal.token)
      fun _ _ => Ident.names as ++ a.printBehind m' level (Ident.names as) ++ printTag tag' =
          Ident.names ids ++ e.printBehind m level (Ident.names ids) ++ printTag tag := by
  have hsilent : silentTokens as a = silentTokens ids e := by
    rw [← silentTokens_tidy (p := .kept) (by simp), ha, hids.shape, silentTokens_tidy (by simp)]
  have htype : Echo m' (e.printBehind m level (Ident.names ids))
      (a.tokens.drop (silentTokens ids e)) fun _ _ =>
      a.printBehind m' level (Ident.names as) = e.printBehind m level (Ident.names ids) := by
    by_cases h0 : silentTokens ids e = 0
    · rw [Expr.printBehind_eq hids.isEmpty_names h0,
        Expr.printBehind_eq hids.symm_isEmpty (hsilent.trans h0), hids.isEmpty, h0]
      have hblank : Echo m' (if ids.isEmpty then "" else " ") [] fun _ _ => True :=
        (Echo.gap m' (by cases ids.isEmpty <;> decide)).mono fun _ _ _ => trivial
      refine (hblank.append (he.plain ha level 1)).as rfl (by simp) ?_
      rintro _ _ ⟨_, -, hprint, -, -⟩
      rw [hprint]
    · obtain ⟨params, results, rfl, hne⟩ : ∃ params results, e = .func ⟨none, params, results⟩ ∧
          ids.isEmpty = false := by
        unfold silentTokens at h0
        split at h0
        · exact ⟨_, _, rfl, by simpa using h0⟩
        · exact absurd rfl h0
      cases a with
      | func t =>
        obtain ⟨funcPos, params', results'⟩ := t
        have ht : FuncType.tidy .kept ⟨funcPos, params', results'⟩ =
            FuncType.tidy .merged ⟨none, params, results⟩ := by
          simpa [Expr.tidy] using ha
        obtain rfl : funcPos = none := by
          have hmark :
              funcPos.mark = none := by simpa [FuncType.tidy] using congrArg FuncType.funcPos ht
          cases funcPos with
          | none => rfl
          | some p => simp [Pos.mark] at hmark
        rw [Expr.printBehind_method hids.isEmpty_names hne,
          Expr.printBehind_method hids.symm_isEmpty (by rw [hids.isEmpty, hne])]
        exact (he.signature rfl ht).as rfl (by simp [Expr.tokens, silentTokens, hne]) fun _ _ h =>
          h.1
      | _ => simp [Expr.tidy, Parens.around] at ha
  refine ((hids.echo.append htype).append (echo_tag htag hs)).mono ?_
  rintro _ _ ⟨_, ⟨_, hnames, hprint⟩, htags⟩
  rw [hprint, htags, hnames]

theorem silentTokens_of_sound (ids : List Ident) (h : ∀ x ∈ e.tokens, x.Sound) :
    silentTokens ids e = 0 := by
  unfold silentTokens
  split
  · exact absurd rfl (h (placed none "func") (by simp [Expr.tokens])).1
  · rfl

theorem echoes_methods (level : Nat) {fields as : List Field}
    (he : ∀ f ∈ fields, f.type.Reprints m m') (hs : ∀ x ∈ tokensOfMethods fields, x.Sound)
    (h : tidyFields .kept as = tidyFields .merged fields) :
    Echoes m' (printFields m level fields) (tokensOfMethods as) (printFields m' level as) := by
  rw [tidyFields_eq_map, tidyFields_eq_map] at h
  induction fields generalizing as with
  | nil =>
    obtain rfl := map_eq_nil_iff.1 h
    exact .nil
  | cons f fields ih =>
    obtain ⟨⟨ids', a, tag'⟩, as, rfl, ha, has⟩ := map_eq_cons_iff.1 h
    obtain ⟨ids, e, tag⟩ := f
    obtain ⟨hids, ha, htag⟩ := Field.mk.inj ha
    obtain ⟨he, hes⟩ := forall_mem_cons.1 he
    simp only [tokensOfMethods, forall_mem_append] at hs
    obtain ⟨⟨⟨hnames, -⟩, htags⟩, hrest⟩ := hs
    have hsilent : silentTokens ids' a = silentTokens ids e := by
      rw [← silentTokens_tidy (p := .kept) (by simp), ha, hids, silentTokens_tidy (by simp)]
    rw [printFields_cons, printFields_cons, tokensOfMethods, hsilent]
    exact .cons (echo_field ⟨hids, hnames⟩ he ha htag htags) (ih hes hrest has)

/-- Among the fields of a struct and among parameters no word is left out. -/
theorem tokensOfMethods_of_sound {fields as : List Field}
    (hs : ∀ x ∈ tokensOfFields fields, x.Sound)
    (h : tidyFields .kept as = tidyFields .merged fields) :
    tokensOfMethods fields = tokensOfFields fields ∧ tokensOfMethods as = tokensOfFields as := by
  rw [tidyFields_eq_map, tidyFields_eq_map] at h
  induction fields generalizing as with
  | nil =>
    obtain rfl := map_eq_nil_iff.1 h
    exact ⟨rfl, rfl⟩
  | cons f fields ih =>
    obtain ⟨⟨ids', a, tag'⟩, as, rfl, ha, has⟩ := map_eq_cons_iff.1 h
    obtain ⟨ids, e, tag⟩ := f
    obtain ⟨hids, ha, -⟩ := Field.mk.inj ha
    simp only [tokensOfFields, forall_mem_append] at hs
    obtain ⟨⟨⟨-, htype⟩, -⟩, hrest⟩ := hs
    have hsilent : silentTokens ids' a = silentTokens ids e := by
      rw [← silentTokens_tidy (p := .kept) (by simp), ha, hids, silentTokens_tidy (by simp)]
    have h0 := silentTokens_of_sound ids htype
    obtain ⟨hf, hg⟩ := ih hrest has
    simp [tokensOfMethods, tokensOfFields, hsilent, h0, hf, hg]

theorem echoes_fields (level : Nat) {fields as : List Field}
    (he : ∀ f ∈ fields, f.type.Reprints m m') (hs : ∀ x ∈ tokensOfFields fields, x.Sound)
    (h : tidyFields .kept as = tidyFields .merged fields) :
    Echoes m' (printFields m level fields) (tokensOfFields as) (printFields m' level as) := by
  obtain ⟨hf, ha⟩ := tokensOfMethods_of_sound hs h
  rw [← ha]
  exact echoes_methods level he (by rwa [hf]) h

def standsAlone : List Field → Bool
  | [⟨[], _, _⟩] => true
  | _ => false

theorem standsAlone_tidy (p : Parens) (fields : List Field) :
    standsAlone (tidyFields p fields) = standsAlone fields := by
  match fields with
  | [] | [⟨[], _, _⟩] | ⟨_ :: _, _, _⟩ :: _ | ⟨[], _, _⟩ :: ⟨_, _, _⟩ :: _ => rfl

theorem results_of_not_standsAlone (m : SourceMap) (level : Nat) (opening closing : Pos)
    (h : standsAlone list = false) (hne : list ≠ []) :
    printResults m level (some ⟨opening, list, closing⟩) = " (" ++
      commas (printFields m level list) ++ ")" ∧
      tokensOfResults (some ⟨opening, list, closing⟩) =
        placed opening "(" :: (tokensOfFields list ++ [placed closing ")"]) ∧
      ∀ p, tidyResults p (some ⟨opening, list, closing⟩) =
      some ⟨none, tidyFields p list, none⟩ := by
  match list with
  | [] => exact absurd rfl hne
  | [⟨[], _, _⟩] => cases h
  | ⟨_ :: _, _, _⟩ :: _ => exact ⟨by simp [printResults], by simp [tokensOfResults],
    fun p => by simp [tidyResults]⟩
  | ⟨[], _, _⟩ :: ⟨_, _, _⟩ :: _ =>
    exact ⟨by simp [printResults], by simp [tokensOfResults], fun p => by simp [tidyResults]⟩

theorem tidyResults_eq_none {results : Option FieldList} (h : tidyResults .kept results = none) :
    results = none := by
  match results with
  | none => rfl
  | some ⟨_, [], _⟩ | some ⟨_, [⟨[], _, _⟩], _⟩ | some ⟨_, ⟨_ :: _, _, _⟩ :: _, _⟩
  | some ⟨_, ⟨[], _, _⟩ :: ⟨_, _, _⟩ :: _, _⟩ => simp [tidyResults] at h

theorem tidyResults_eq_alone {results : Option FieldList}
    (h : tidyResults .kept results = some ⟨none, [⟨[], e, none⟩], none⟩) :
    ∃ opening a tag, results = some ⟨opening, [⟨[], a, tag⟩], none⟩ ∧ a.tidy .kept = e := by
  match results with
  | none | some ⟨_, [], _⟩ => simp [tidyResults] at h
  | some ⟨opening, [⟨[], a, tag⟩], none⟩ =>
    exact ⟨opening, a, tag, rfl, by simpa [tidyResults] using h⟩
  | some ⟨_, [⟨[], _, _⟩], some _⟩ => simp [tidyResults, Pos.mark] at h
  | some ⟨_, ⟨_ :: _, _, _⟩ :: _, _⟩ | some ⟨_, ⟨[], _, _⟩ :: ⟨_, _, _⟩ :: _, _⟩ =>
    simp [tidyResults, tidyFields] at h

theorem tidyResults_eq_list {results : Option FieldList} (hne : list ≠ [])
    (hl : standsAlone list = false) (h : tidyResults .kept results = some ⟨none, list, none⟩) :
    ∃ opening list' closing, results = some ⟨opening, list', closing⟩ ∧
    tidyFields .kept list' = list := by
  match results with
  | none => simp [tidyResults] at h
  | some ⟨_, [], _⟩ =>
    obtain rfl : [] = list := by simpa [tidyResults] using h
    exact absurd rfl hne
  | some ⟨_, [⟨[], _, _⟩], _⟩ =>
    simp only [tidyResults, Option.some.injEq, FieldList.mk.injEq] at h
    rw [← h.2.1] at hl
    cases hl
  | some ⟨opening, ⟨id :: ids, t, tag⟩ :: list', closing⟩ =>
    exact ⟨_, _, _, rfl, by simpa [tidyResults] using h⟩
  | some ⟨opening, ⟨[], t, tag⟩ :: ⟨ids, t', tag'⟩ :: list', closing⟩ =>
    exact ⟨_, _, _, rfl, by simpa [tidyResults] using h⟩

/-- The end of a signature follows from that of its parameters. -/
theorem echo_results (level : Nat) {results results' : Option FieldList}
    (hc : ∀ fields ∈ results, ∀ f ∈ fields.list, f.type.Reprints m m')
    (hs : ∀ x ∈ tokensOfResults results, x.Sound)
    (h : tidyResults .kept results' = tidyResults .merged results) :
    Echo m' (printResults m level results) (tokensOfResults results') fun o o' =>
      printResults m' level results' = printResults m level results ∧
      ∀ funcPos opening params closing,
        Pos.plus closing 1 = some o →
        FuncType.stop ⟨funcPos, ⟨opening, params, closing⟩, results'⟩ = some o' := by
  have hempty : ∀ results : Option FieldList, printResults m level results = "" →
      tidyResults .merged results = none →
      tidyResults .kept results' = tidyResults .merged results →
      Echo m' (printResults m level results)
        (tokensOfResults results') fun o o' =>
        printResults m' level results' = printResults m level results ∧
          ∀ funcPos opening params closing, Pos.plus closing 1 = some o →
            FuncType.stop ⟨funcPos, ⟨opening, params, closing⟩, results'⟩ = some o' := by
    intro results hp hn h
    obtain rfl := tidyResults_eq_none (h.trans hn)
    rw [hp, tokensOfResults_none]
    refine (Echo.empty m').mono fun o o' ho => ⟨rfl, fun _ _ _ _ hclose => ?_⟩
    rw [FuncType.stop, hclose, ho]
  by_cases halone : ∃ fields ∈ results, standsAlone fields.list = false ∧ fields.list ≠ []
  · obtain ⟨⟨opening, list, closing⟩, hresults, hl, hne⟩ := halone
    obtain rfl : results = some _ := hresults
    obtain ⟨hprint, htokens, htidy⟩ := results_of_not_standsAlone m level opening closing hl hne
    have hl' : standsAlone (tidyFields .merged list) = false := by rw [standsAlone_tidy, hl]
    have hne' : tidyFields .merged list ≠ [] := by simpa [tidyFields_eq_map] using hne
    obtain ⟨opening', list', closing', rfl, hlist⟩ :=
      tidyResults_eq_list hne' hl' (h.trans (htidy .merged))
    have hl₂ : standsAlone list' = false := by rw [← standsAlone_tidy .kept, hlist, hl']
    have hne₂ : list' ≠ [] := by
      rintro rfl
      exact hne' hlist.symm
    obtain ⟨hprint', htokens', -⟩ := results_of_not_standsAlone m' level opening' closing' hl₂ hne₂
    have hfields :=
      echoes_fields level (hc _ rfl) (fun x hx => hs x (by rw [htokens]; simp [hx])) hlist
    rw [hprint, htokens']
    refine (((Echo.word m' " (" opening' "(" (by decide)).append hfields.commas).append
      (.rparen m' closing')).as rfl (by simp) ?_
    rintro o o' ⟨_, ⟨_, -, hlist⟩, hclose, hstop⟩
    refine ⟨by rw [hprint', hlist], fun _ _ _ _ _ => ?_⟩
    rw [FuncType.stop, if_pos (by simp [hclose]), hstop]
  · rcases results with - | ⟨opening, - | ⟨⟨- | ⟨id, ids⟩, e, tag⟩, - | ⟨field, fields⟩⟩, closing⟩
    · exact hempty none rfl rfl h
    · exact hempty _ rfl rfl h
    · obtain ⟨opening', a, tag₂, rfl, ha⟩ := tidyResults_eq_alone h
      have he := (hc _ rfl ⟨[], e, tag⟩ (by simp)).header ha level
      refine ((Echo.gap m' (t := " ") (by decide)).append he).as (by simp [printResults])
        (by simp [tokensOfResults, known]) ?_
      rintro o o' ⟨_, -, hprint, -, hstop⟩
      exact ⟨by simp [printResults, hprint], fun _ _ _ _ _ => by simp [FuncType.stop, lastStop,
        hstop]⟩
    all_goals exact absurd ⟨_, rfl, rfl, by simp⟩ halone

theorem FuncType.echoed (level : Nat) {t a : FuncType} (hc : ∀ c ∈ t.children, c.Reprints m m')
    (hs : ∀ x ∈ t.tokens, x.Sound) (h : a.tidy .kept = t.tidy .merged) : t.Echoed m m' level a := by
  obtain ⟨funcPos, ⟨opening, params, closing⟩, results⟩ := t
  obtain ⟨funcPos', ⟨opening', params', closing'⟩, results'⟩ := a
  obtain ⟨-, hparams, hresults⟩ := FuncType.mk.inj h
  have hparams : tidyFields .kept params' =
      tidyFields .merged params := by simpa [FieldList.tidy] using hparams
  simp only [FuncType.tokens, FieldList.tokens, forall_mem_append, forall_mem_cons] at hs
  have hfields := echoes_fields level
    (fun f hf => hc (.expr f.type) (by simp [FuncType.children, FieldList.children]; exact .inl ⟨f,
      hf, rfl⟩)) hs.1.2.1 hparams
  have hres := echo_results level (fun fields hfields f hf => hc (.expr f.type) (by
    simp only [FuncType.children, mem_append, mem_flatMap]
    exact .inr ⟨fields, Option.mem_toList.2 hfields, mem_map.2 ⟨f, hf, rfl⟩⟩)) hs.2 hresults
  refine ((((Echo.word m' "(" opening' "(" (by decide)).append hfields.commas).append
    (.rparen m' closing')).append hres).as
      (by simp [FuncType.printSignature]) (by simp [FuncType.tokens, FieldList.tokens]) ?_
  rintro o o' ⟨_, ⟨_, ⟨_, -, hlist⟩, -, hclose⟩, hprint, hstop⟩
  exact ⟨by simp [FuncType.printSignature, hlist, hprint], hstop _ _ _ _ hclose⟩

end

end GoFun
