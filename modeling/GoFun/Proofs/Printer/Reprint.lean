import GoFun.Proofs.Printer.Echoed

/-!
# Expressions and statements printed a second time

The print of a phrase has the tokens of the tidy phrase, in their order. If the tokens of a tree
with the same tidy form are just where the print has them, then the tree is printed the same: line
breaks between arguments are where they were, and so are the bodies that are on one line.
-/
namespace GoFun

open Parser Token List Option

attribute [local simp] Expr.print Expr.tokens Stmt.tokens Phrase.heard tokensOfExpr?
  String.append_assoc

theorem Lex.opensToken_binaryOp (op : BinaryOp) :
    opensToken op.symbol.toList = true := by cases op <;> decide

theorem Lex.opensToken_unaryOp (op : UnaryOp) :
    opensToken op.symbol.toList = true := by cases op <;> decide

theorem Lex.opensToken_assignOp (op : AssignOp) :
    opensToken op.symbol.toList = true := by cases op <;> decide

section

variable {m m' : SourceMap}
variable {x y : Expr} {colon p : Pos} {e a : Option Expr}
variable {lbrack lparen : Pos} {t : Option Expr} {list list' : List Field} {d : GenDecl}
  {s : Option Stmt}

/-! ### Expressions -/

namespace Expr.Reprints

theorem ident {id : Ident} (hn : (Phrase.expr (.ident id)).Sturdy) :
    (Expr.ident id).Reprints m m' :=
  .of_plain rfl (by simp) fun a _ _ _ ha => by
  cases a <;> try cases ha
  case ident id' =>
    exact Echo.ident m' (hn.sound _ (by simp)) (Expr.ident.inj ha)

theorem lit {l : Literal} (hn : (Phrase.expr (.lit l)).Sturdy) : (Expr.lit l).Reprints m m' :=
  .of_plain rfl (by simp) fun a _ _ _ ha => by
  cases a <;> try cases ha
  case lit l' =>
    have htext : l'.text = l.text := (Literal.mk.inj (Expr.lit.inj ha)).2.2
    have hl : l.token.Sound := hn.sound _ (by simp)
    refine (Echo.sound m' (y := l'.token) hl (by simp [Literal.token]) htext).mono
      fun o o' hplace => ?_
    obtain ⟨hp, ho⟩ := hplace
    have hpos : l'.pos = some o := hp _ rfl
    refine ⟨htext, hpos, ?_⟩
    rw [Expr.stop, hpos, utf8ByteSize_eq, htext, ho]
    rfl

theorem selector {sel : Ident} (hx : x.Reprints m m')
    (hn : (Phrase.expr (.selector x sel)).Sturdy) :
    (Expr.selector x sel).Reprints m m' := .of_plain rfl (by simp) fun a level slot _ ha => by
  cases a <;> try cases ha
  case selector y sel' =>
    obtain ⟨hy, hsel⟩ := Expr.selector.inj ha
    have hy := hx.inner hy level { strength := 7, depth := slot.depth } hn.formed.1.1 rfl
    have hsel := Echo.ident m' (hn.sound sel.token (by simp)) hsel
    refine ((hy.append (.looseWord m' "." "." (by decide))).append hsel).as (by simp) (by simp) ?_
    rintro o o' ⟨_, ⟨_, ⟨hprint, hstart, -⟩, -⟩, hname, -, hstop⟩
    exact ⟨by simp [hprint, hname], hstart, hstop⟩

theorem index {i : Expr} {rbrack : Pos} (hx : x.Reprints m m') (hi : i.Reprints m m')
    (hn : (Phrase.expr (.index x lbrack i rbrack)).Sturdy) :
    (Expr.index x lbrack i rbrack).Reprints m m' :=
  .of_plain rfl (by simp) fun a level slot _ ha => by
  cases a <;> try cases ha
  case index y lbrack' j rbrack' =>
    obtain ⟨hy, -, hj, -⟩ := Expr.index.inj ha
    have hy := hx.inner hy level { strength := 7 } hn.formed.1.1 rfl
    have hj := hi.plain hj level (slot.depth + 1)
    refine (((hy.append (.word m' "[" lbrack' "[" (by decide))).append hj).append
      (.rbrack m' rbrack')).as (by simp) (by simp) ?_
    rintro o o' ⟨_, ⟨_, ⟨_, ⟨hprint, hstart, -⟩, -⟩, hindex, -, -⟩, -, hstop⟩
    exact ⟨by simp [hprint, hindex], hstart, hstop⟩

theorem keyValue (hx : x.Reprints m m') (hy : y.Reprints m m') :
    (Expr.keyValue x colon y).Reprints m m' :=
  .of_plain rfl (by simp) fun a level slot _ ha => by
  cases a <;> try cases ha
  case keyValue x' colon' y' =>
    obtain ⟨hx', -, hy'⟩ := Expr.keyValue.inj ha
    have hx' := hx.plain hx' level slot.depth
    have hy' := hy.plain hy' level slot.depth
    refine ((hx'.append (.word m' ": " colon' ":" (by decide))).append hy').as
      (by simp) (by simp) ?_
    rintro o o' ⟨_, ⟨_, ⟨hprint, hstart, -⟩, -⟩, hvalue, -, hstop⟩
    exact ⟨by simp [hprint, hvalue], hstart, hstop⟩

theorem star (hx : x.Reprints m m') : (Expr.star p x).Reprints m m' :=
  .of_plain rfl (by simp) fun a level slot hs ha => by
  cases a <;> try cases ha
  case star p' y =>
    have hweak : ¬ 6 < slot.strength := Nat.not_lt.2 hs
    obtain ⟨-, hy⟩ := Expr.star.inj ha
    have hy := hx.plain hy level 1
    refine ((Echo.first m' "*" p' "*" (by decide) (by decide)).append hy).as
      (by simp [hweak]) (by simp) ?_
    rintro o o' ⟨_, ⟨hstart, -⟩, hprint, -, hstop⟩
    exact ⟨by simp [hweak, hprint], hstart, hstop⟩

theorem unary {op : UnaryOp} (hx : x.Reprints m m') (hn : (Phrase.expr (.unary p op x)).Sturdy) :
    (Expr.unary p op x).Reprints m m' := .of_plain rfl (by simp) fun a level slot hs ha => by
  cases a <;> try cases ha
  case unary p' op' y =>
    have hweak : ¬ 6 < slot.strength := Nat.not_lt.2 hs
    obtain ⟨-, rfl, hy⟩ := Expr.unary.inj ha
    have hy := hx.inner hy level { strength := 6, depth := slot.depth } hn.formed.1 rfl
    refine ((Echo.sign m' p' (Lex.opensToken_unaryOp op') (by cases op' <;> decide)).append hy).as
      (by simp [hweak]) (by simp) ?_
    rintro o o' ⟨_, hstart, hprint, -, hstop⟩
    exact ⟨by simp [hweak, hprint], hstart, hstop⟩

theorem binary {op : BinaryOp} (hx : x.Reprints m m') (hy : y.Reprints m m')
    (hn : (Phrase.expr (.binary x p op y)).Sturdy) : (Expr.binary x p op y).Reprints m m' :=
  .of_plain rfl (by simp) fun a level slot hs ha => by
  cases a <;> try cases ha
  case binary x' p' op' y' =>
    have hweak : ¬ op.precedence < slot.strength := Nat.not_lt.2 hs
    have hcutoff :
        cutoff (.binary x' p' op' y') slot.depth = cutoff (.binary x p op y) slot.depth := by
      rw [← cutoff_tidy (p := .kept) (by simp), ha, cutoff_tidy (by simp)]
    obtain ⟨hx', -, rfl, hy'⟩ := Expr.binary.inj ha
    have hstrength : x'.strength = x.strength := by
      rw [← Expr.strength_tidy (p := .kept) (by simp), hx', Expr.strength_tidy (by simp)]
    have hx' := hx.inner hx' level
      { strength := op'.precedence, depth := if x.strength ==
        op'.precedence then slot.depth else slot.depth + 1 } hn.formed.1.1 rfl
    have hy' :=
      hy.inner hy' level { strength := op'.precedence + 1, depth := slot.depth + 1 } hn.formed.2.1
        rfl
    have hblank :
        Echo m' (if op'.precedence < cutoff (.binary x p op' y) slot.depth then " " else "") []
          fun _ _ => True :=
      (Echo.gap m' (by split <;> decide)).mono fun _ _ _ => trivial
    refine ((((hx'.append hblank).append (Echo.sign m' p' (Lex.opensToken_binaryOp op')
      (by cases op' <;> decide))).append hblank).append hy').as (by simp [hweak]) (by simp) ?_
    rintro o o' ⟨_, ⟨_, ⟨_, ⟨_, ⟨hleft, hstart, -⟩, -⟩, -⟩, -⟩, hright, -, hstop⟩
    refine ⟨?_, hstart, hstop⟩
    simp only [Expr.print, hweak, decide_false, Bool.false_eq_true, if_false, hcutoff, hstrength,
      hleft, hright]

theorem paren {l r : Pos} (hx : x.Reprints m m') : (Expr.paren l x r).Reprints m m' where
  signature he := by cases he
  print {a level slot} ht ha := by
    cases hb : slot.bare with
    | true =>
      -- all parentheses around the expression are dropped
      obtain rfl := ht.bare hb
      have hview : a.tidy .kept = (x.tidy .merged).unparen := by
        rw [ha, Slot.view, if_pos rfl, Expr.tidy, Parens.around]
        split
        · rfl
        · next hp =>
          rw [Expr.unparen_of_isParen (e := x.tidy .merged) (by simpa using hp)]
          rfl
      refine (hx.header hview level).as (by simp) rfl fun o o' h => ?_
      rw [Expr.print, if_pos rfl]
      exact h
    | false =>
      have ha : a.tidy .kept = Parens.merged.around (x.tidy .merged) := by
        rw [ha, Slot.view, if_neg (by simp [hb])]
        rfl
      cases hp : x.isParen with
      | true =>
        have hpx : (x.tidy .merged).isParen = true := by rw [Expr.isParen_tidy (by simp), hp]
        rw [Parens.around, if_pos hpx] at ha
        have hpa : a.isParen = true := by rw [← Expr.isParen_tidy (p := .kept) (by simp), ha, hpx]
        refine (hx.plain ha level slot.depth).as (by simp [hb, hp]) rfl ?_
        rintro o o' ⟨hprint, hpos⟩
        cases a with
        | paren => exact ⟨by simpa [hb, hp] using hprint, hpos⟩
        | _ => cases hpa
      | false =>
        have hpx : (x.tidy .merged).isParen = false := by rw [Expr.isParen_tidy (by simp), hp]
        rw [Parens.around, if_neg (by simp [hpx])] at ha
        cases a with
        | paren l' y r' =>
          obtain ⟨-, hy, -⟩ := Expr.paren.inj ha
          have hpy :
              y.isParen = false := by rw [← Expr.isParen_tidy (p := .kept) (by simp), hy, hpx]
          have hy := hx.plain hy level (shallower slot.depth)
          refine (((Echo.first m' "(" l' "(" (by decide) (by decide)).append hy).append
            (.rparen m' r')).as (by simp [hb, hp]) (by simp) ?_
          rintro o o' ⟨_, ⟨_, ⟨hstart, -⟩, hprint, -, -⟩, -, hstop⟩
          exact ⟨by simp [hb, hp, hpy, hprint], hstart, hstop⟩
        | _ => cases ha

theorem array {len : Option Expr} {elem : Expr} (hl : ∀ x ∈ len, x.Reprints m m')
    (he : elem.Reprints m m') :
    (Expr.array p len elem).Reprints m m' := .of_plain rfl (by simp) fun a level _ _ ha => by
  cases a <;> try cases ha
  case array p' len' elem' =>
    obtain ⟨-, hlen, helem⟩ := Expr.array.inj ha
    have hlen := echo_expr? level 1 hl hlen
    have helem := he.plain helem level 1
    refine ((((Echo.first m' "[" p' "[" (by decide) (by decide)).append hlen).append
      (.looseWord m' "]" "]" (by decide))).append helem).as (by simp) (by simp) ?_
    rintro o o' ⟨_, ⟨_, ⟨_, ⟨hstart, -⟩, hlen⟩, -⟩, helem, -, hstop⟩
    exact ⟨by simp [hlen, helem], hstart, hstop⟩

theorem map (hx : x.Reprints m m') (hy : y.Reprints m m') : (Expr.map p x y).Reprints m m' :=
  .of_plain rfl (by simp) fun a level _ _ ha => by
  cases a <;> try cases ha
  case map p' x' y' =>
    obtain ⟨-, hx', hy'⟩ := Expr.map.inj ha
    have hx' := hx.plain hx' level 1
    have hy' := hy.plain hy' level 1
    refine ((((Echo.opening m' "map[" p' "map" [loose "["] ["["] rfl (by decide) (by decide)).append
      hx').append (.looseWord m' "]" "]" (by decide))).append hy').as (by simp) (by simp) ?_
    rintro o o' ⟨_, ⟨_, ⟨_, ⟨hstart, -⟩, hkey, -, -⟩, -⟩, hvalue, -, hstop⟩
    exact ⟨by simp [hkey, hvalue], hstart, hstop⟩

theorem chan {dir : ChanDir} (hx : x.Reprints m m') : (Expr.chan p dir x).Reprints m m' :=
  .of_plain rfl (by simp) fun a level _ _ ha => by
  cases a <;> try cases ha
  case chan p' dir' y =>
    obtain ⟨-, rfl, hy⟩ := Expr.chan.inj ha
    have hdir : Echo m' (dir'.symbol ++ " ") (dir'.tokens p') fun o _ => p' = some o := by
      cases dir' with
      | both => exact (Echo.first m' "chan " p' "chan" (by decide) (by decide)).mono fun _ _ h =>
        h.1
      | send =>
        exact (Echo.opening m' "chan<- " p' "chan" [loose "<-"] ["<-"] rfl (by decide)
          (by decide)).mono fun _ _ h => h.1
      | receive =>
        exact (Echo.opening m' "<-chan " p' "<-" [loose "chan"] ["chan"] rfl (by decide)
          (by decide)).mono fun _ _ h => h.1
    refine (hdir.append (hx.plain hy level 1)).as (by simp) (by simp) ?_
    rintro o o' ⟨_, hstart, hprint, -, hstop⟩
    exact ⟨by simp [hprint], hstart, hstop⟩

theorem assertion {rparen : Pos} (hx : x.Reprints m m') (ht : ∀ e ∈ t, e.Reprints m m')
    (hn : (Phrase.expr (.assertion x lparen t rparen)).Sturdy) :
    (Expr.assertion x lparen t rparen).Reprints m m' :=
  .of_plain rfl (by simp) fun a level slot _ ha => by
  cases a <;> try cases ha
  case assertion y lparen' t' rparen' =>
    obtain ⟨hy, -, ht', -⟩ := Expr.assertion.inj ha
    have hy := hx.inner hy level { strength := 7, depth := slot.depth } hn.formed.1 rfl
    have hopen :=
      hy.append (Echo.lit m' ".(" [loose ".", placed lparen' "("] [".", "("] rfl (by decide))
    match t, t', ht' with
    | none, none, _ =>
      refine ((hopen.append (Echo.looseWord m' "type" "type" (by decide))).append
        (.rparen m' rparen')).as (by simp) (by simp) ?_
      rintro o o' ⟨_, ⟨_, ⟨_, ⟨hprint, hstart, -⟩, -⟩, -⟩, -, hstop⟩
      exact ⟨by simp [hprint], hstart, hstop⟩
    | some t, some t', ht' =>
      have ht' := (ht t rfl).plain (Option.some.inj ht') level 1
      refine ((hopen.append ht').append (.rparen m' rparen')).as (by simp [printExpr?]) (by simp) ?_
      rintro o o' ⟨_, ⟨_, ⟨_, ⟨hprint, hstart, -⟩, -⟩, htype, -, -⟩, -, hstop⟩
      exact ⟨by simp [printExpr?, hprint, htype], hstart, hstop⟩

theorem ellipsis {elem : Option Expr} (he : ∀ x ∈ elem, x.Reprints m m') :
    (Expr.ellipsis p elem).Reprints m m' :=
  .of_plain rfl (by simp) fun a level _ _ ha => by
  cases a <;> try cases ha
  case ellipsis p' elem' =>
    obtain ⟨-, helem⟩ := Expr.ellipsis.inj ha
    match elem, elem', helem with
    | none, none, _ =>
      have hdots : Echo m' "..." [placed p' "..."] fun o o' => p' = some o ∧
          Pos.plus p' 3 = some o' :=
        .closing m' p' (by decide) (by decide) (by decide)
      exact hdots.mono fun o o' h => ⟨rfl, h⟩
    | some e, some e', helem =>
      have he' := (he e rfl).plain (Option.some.inj helem) level 1
      refine ((Echo.first m' "..." p' "..." (by decide) (by decide)).append he').as
        (by simp [printExpr?]) (by simp) ?_
      rintro o o' ⟨_, ⟨hstart, -⟩, hprint, -, hstop⟩
      exact ⟨by simp [printExpr?, hprint], hstart, hstop⟩

theorem func {t : FuncType} (hc : ∀ c ∈ t.children, c.Reprints m m')
    (hs : ∀ x ∈ t.tokens, x.Sound) :
    (Expr.func t).Reprints m m' where
  signature he ha := by
    cases he
    exact FuncType.echoed _ hc hs ha
  print {a level slot} ht ha := by
    have ha : a.tidy .kept = .func (t.tidy .merged) := by
      rw [ha, Slot.view]
      split <;> rfl
    cases a with
    | func t' =>
      obtain ⟨funcPos', params', results'⟩ := t'
      have hsig := FuncType.echoed level hc hs (Expr.func.inj ha)
      refine ((Echo.first m' "func" funcPos' "func" (by decide) (by decide)).append hsig).as
        (by simp) (by simp) ?_
      rintro o o' ⟨_, ⟨hstart, -⟩, hprint, hstop⟩
      exact ⟨by simp [hprint], hstart, hstop⟩
    | _ => cases ha

end Expr.Reprints

/-! ### Fields in braces -/

theorem echo_braced {level : Nat} {opening closing : Pos} (p opening' closing' : Pos)
    {ts : List Token} {w : String}
    (hw : Lex.spaces [w] w.toList = true ∧ Lex.opensToken w.toList = true)
    (ht : tidyFields .kept list' = tidyFields .merged list)
    (h : Echoes m' (printFields m (level + 1) list) ts (printFields m' (level + 1) list')) :
    Echo m' (w ++ FieldList.printBraced m level ⟨opening, list, closing⟩)
      (placed p w :: placed opening' "\x7b" :: (ts ++ [placed closing' "\x7d"])) fun o o' =>
        w ++ FieldList.printBraced m' level ⟨opening', list', closing'⟩ = w ++
        FieldList.printBraced m level ⟨opening, list, closing⟩ ∧
          p = some o ∧ Pos.plus closing' 1 = some o' := by
  have hlist : list'.isEmpty = list.isEmpty := by
    have hempty := congrArg List.isEmpty ht
    simpa [tidyFields_eq_map] using hempty
  have hword := Echo.first m' w p w hw.1 hw.2
  rw [FieldList.printBraced, FieldList.printBraced, hlist]
  cases hempty : list.isEmpty with
  | true =>
    obtain rfl := isEmpty_iff.1 hempty
    obtain rfl := isEmpty_iff.1 (hlist.trans hempty)
    cases h
    refine (hword.append ((Echo.word m' "\x7b" opening' "\x7b" (by decide)).append
      (.rbrace m' closing'))).as rfl (by simp) ?_
    rintro _ _ ⟨_, ⟨hstart, -⟩, _, -, -, hstop⟩
    exact ⟨rfl, hstart, hstop⟩
  | false =>
    have hlines :=
      h.join (all_isGap_tabs (level + 1)) (show "\n".toList.all Lex.isGap = true by decide)
    refine (hword.append ((((Echo.word m' " \x7b\n" opening' "\x7b" (by decide)).append
      hlines).append
      (.gap m' (all_isGap_tabs level))).append (.rbrace m' closing'))).as (by simp) (by simp) ?_
    rintro _ _ ⟨_, ⟨hstart, -⟩, _, ⟨_, ⟨_, -, hfields⟩, -⟩, -, hstop⟩
    exact ⟨by simp [hfields], hstart, hstop⟩

namespace Expr.Reprints

theorem struct {fields : FieldList} (hc : ∀ c ∈ fields.children, c.Reprints m m')
    (hn : (Phrase.expr (.struct p fields)).Sturdy) : (Expr.struct p fields).Reprints m m' :=
  .of_plain rfl (by simp) fun a level _ _ ha => by
  cases a <;> try cases ha
  case struct p' fields' =>
    obtain ⟨opening', list', closing'⟩ := fields'
    obtain ⟨opening, list, closing⟩ := fields
    have hlist : tidyFields .kept list' = tidyFields .merged list :=
      (FieldList.mk.inj (Expr.struct.inj ha).2).2.1
    have hfields := echoes_fields (level + 1) (fun f hf => hc _ (mem_map.2 ⟨f, hf, rfl⟩))
      (fun x hx => hn.sound x (by simp [FieldList.tokens, hx])) hlist
    exact (echo_braced p' opening' closing' (w := "struct") (by decide) hlist hfields).as rfl rfl
      fun _ _ h => h

theorem interface {methods : FieldList} (hc : ∀ c ∈ methods.children, c.Reprints m m')
    (hn : (Phrase.expr (.interface p methods)).Sturdy) : (Expr.interface p methods).Reprints m m' :=
  .of_plain rfl (by simp) fun a level _ _ ha => by
  cases a <;> try cases ha
  case interface p' fields' =>
    obtain ⟨opening', list', closing'⟩ := fields'
    obtain ⟨opening, list, closing⟩ := methods
    have hlist : tidyFields .kept list' = tidyFields .merged list :=
      (FieldList.mk.inj (Expr.interface.inj ha).2).2.1
    have hmethods := echoes_methods (level + 1) (fun f hf => hc _ (mem_map.2 ⟨f, hf, rfl⟩))
      (fun x hx => hn.sound x (by simp [FieldList.methodTokens, hx])) hlist
    exact (echo_braced p' opening' closing' (w := "interface") (by decide) hlist hmethods).as rfl
      rfl fun _ _ h => h

theorem call {f : Expr} {args : List Expr} {dots rparen : Pos} (hf : f.Reprints m m')
    (hargs : ∀ e ∈ args, e.Reprints m m')
    (hn : (Phrase.expr (.call f lparen args dots rparen)).Sturdy) :
    (Expr.call f lparen args dots rparen).Reprints m m' :=
  .of_plain rfl (by simp) fun a level slot _ ha => by
  cases a <;> try cases ha
  case call g lparen' args' dots' rparen' =>
    obtain ⟨hg, -, hlist, hdots, -⟩ := Expr.call.inj ha
    have hopen : Echo m' "(" [placed lparen' "("] fun o o' => lparen' = some o ∧
        m'.line (some o') = m'.line (some o) :=
      .first m' "(" lparen' "(" (by decide) (by decide)
    have hitems :=
      echo_bracketed level (if 1 < args.length then slot.depth + 1 else slot.depth) lparen rparen
        lparen' rparen'
      hargs hlist hopen (echo_dots hdots) (.rparen m' rparen')
    have hg := hf.inner hg level
      { strength := 7, depth := if 1 < args.length then slot.depth + 1 else slot.depth }
        hn.formed.1.1 rfl
    refine (hg.append hitems).as (by simp) (by simp) ?_
    rintro o o' ⟨_, ⟨hprint, hstart, -⟩, -, hstop, hitems, hclose⟩
    refine ⟨?_, hstart, hstop⟩
    simp [length_of_tidyExprs hlist, Pos.isSome_of_mark hdots, hprint, hitems, hclose]

theorem composite {elems : List Expr} {lbrace rbrace : Pos} (ht : ∀ e ∈ t, e.Reprints m m')
    (helems : ∀ e ∈ elems, e.Reprints m m')
    (hn : (Phrase.expr (.composite t lbrace elems rbrace)).Sturdy) :
    (Expr.composite t lbrace elems rbrace).Reprints m m' :=
  .of_plain rfl (by simp) fun a level slot _ ha => by
  cases a <;> try cases ha
  case composite t' lbrace' elems' rbrace' =>
    obtain ⟨ht', -, hlist, -⟩ := Expr.composite.inj ha
    have hopen : Echo m' "\x7b" [placed lbrace' "\x7b"] fun o o' =>
        lbrace' = some o ∧ m'.line (some o') = m'.line (some o) :=
      .first m' "\x7b" lbrace' "\x7b" (by decide) (by decide)
    have hitems := echo_bracketed level 1 lbrace rbrace lbrace' rbrace' helems hlist hopen
      ((Echo.empty m').mono fun _ _ h => by rw [h]) (.rbrace m' rbrace')
    match t, t', ht' with
    | none, none, _ =>
      refine hitems.as (by simp [printExpr?]) (by simp) ?_
      rintro o o' ⟨hstart, hstop, hitems, hclose⟩
      exact ⟨by simp [printExpr?, hitems, hclose], hstart, hstop⟩
    | some t, some t', ht' =>
      have ht' :=
        (ht t rfl).inner (Option.some.inj ht') level { strength := 7, depth := slot.depth }
          (hn.formed.1 t rfl).1 rfl
      refine (ht'.append hitems).as (by simp [printExpr?]) (by simp) ?_
      rintro o o' ⟨_, ⟨hprint, hstart, -⟩, -, hstop, hitems, hclose⟩
      exact ⟨by simp [printExpr?, hprint, hitems, hclose], hstart, hstop⟩

theorem funcLit {t : FuncType} {body : Block} (ht : ∀ c ∈ t.children, c.Reprints m m')
    (hbody : ∀ s ∈ body.list, s.Reprints m m') (hn : (Phrase.expr (.funcLit t body)).Sturdy) :
    (Expr.funcLit t body).Reprints m m' := by
  have hprint : ∀ (m : SourceMap) (level : Nat) (slot : Slot) (t : FuncType) (b : Block),
      (Expr.funcLit t b).print m level slot =
      "func" ++ t.printSignature m level ++ " " ++
        printBody m level (t.printSignature m level) b := by
    intro m level slot t b
    obtain ⟨lbrace, list, rbrace⟩ := b
    rfl
  refine .of_plain rfl (by simp) fun {a level slot} hs ha => ?_
  cases a with
  | funcLit t' body' =>
    obtain ⟨ht', hbody'⟩ := Expr.funcLit.inj ha
    obtain ⟨funcPos', params', results'⟩ := t'
    obtain ⟨lbrace', list', rbrace'⟩ := body'
    have ht' := FuncType.echoed level ht (fun x hx => hn.sound x (by simp [hx])) ht'
    have hbody' := echo_body level (t.printSignature m level) hbody hbody'
    refine ((((Echo.first m' "func" funcPos' "func" (by decide) (by decide)).append ht').append
      (.blank m')).append hbody').as (by rw [hprint]) (by simp) ?_
    rintro o o' ⟨_, ⟨_, ⟨_, ⟨hstart, -⟩, hsignature, -⟩, -⟩, hbody, hstop⟩
    exact ⟨by rw [hprint, hprint, hsignature, hbody], hstart, hstop⟩
  | _ => cases ha

end Expr.Reprints

theorem isSome_of_tidyExpr? (h : tidyExpr? .kept a = tidyExpr? .merged e) :
    a.isSome = e.isSome := by
  cases e <;> cases a <;> first | rfl | cases h

theorem sliceBlanks_tidy {p : Parens} (hp : p ≠ .dropped) (depth : Nat)
    (low high max : Option Expr) :
    sliceBlanks depth (tidyExpr? p low) (tidyExpr? p high) (tidyExpr? p max) =
      sliceBlanks depth low high max := by
  cases low <;> cases high <;> cases max <;> simp [sliceBlanks, tidyExpr?, Expr.isBinary_tidy hp]

theorem echo_sliceColon (blanks : Bool) (before after : Option Expr) :
    Echo m' (sliceColon blanks before after) [loose ":"] fun _ _ => True := by
  refine (Echo.lit m' _ [loose ":"] [":"] rfl ?_).mono fun _ _ _ => trivial
  rw [sliceColon]
  cases before.isSome <;> cases after.isSome <;> cases blanks <;> decide

theorem Expr.Reprints.slice {low high max : Option Expr} {rbrack : Pos} (hx : x.Reprints m m')
    (hlow : ∀ e ∈ low, e.Reprints m m') (hhigh : ∀ e ∈ high, e.Reprints m m')
    (hmax : ∀ e ∈ max, e.Reprints m m')
    (hn : (Phrase.expr (.slice x lbrack low high max rbrack)).Sturdy) :
    (Expr.slice x lbrack low high max rbrack).Reprints m m' :=
  .of_plain rfl (by simp) fun a level slot _ ha => by
  cases a <;> try cases ha
  case slice y lbrack' low' high' max' rbrack' =>
    obtain ⟨hy, -, hlow', hhigh', hmax', -⟩ := Expr.slice.inj ha
    have hblanks :
        sliceBlanks slot.depth low' high' max' = sliceBlanks slot.depth low high max := by
      rw [← sliceBlanks_tidy (p := .kept) (by simp), hlow', hhigh', hmax',
        sliceBlanks_tidy (by simp)]
    have hcolon : ∀ {b b' e e' : Option Expr}, tidyExpr? .kept b' = tidyExpr? .merged b →
        tidyExpr? .kept e' = tidyExpr? .merged e → ∀ blanks,
          sliceColon blanks b' e' = sliceColon blanks b e := by
      intro b b' e e' hb he blanks
      rw [sliceColon, sliceColon, isSome_of_tidyExpr? hb, isSome_of_tidyExpr? he]
    have hl := echo_expr? level (slot.depth + 1) hlow hlow'
    have hh := echo_expr? level (slot.depth + 1) hhigh hhigh'
    have hm : Echo m' ((if max.isSome then sliceColon (sliceBlanks slot.depth low high max) high max
        else "") ++
        printExpr? m level { depth := slot.depth + 1 } max) (tokensOfExpr? [loose ":"] max')
        fun _ _ => printExpr? m' level { depth := slot.depth + 1 } max' =
            printExpr? m level { depth := slot.depth + 1 } max := by
      match max, max', hmax' with
      | none, none, _ => exact (Echo.empty m').mono fun _ _ _ => rfl
      | some e, some e', hmax' =>
        have he := (hmax e rfl).plain (Option.some.inj hmax') level (slot.depth + 1)
        refine ((echo_sliceColon (sliceBlanks slot.depth low high (some e)) high (some e)).append
          he).as (by simp [printExpr?]) (by simp) ?_
        rintro _ _ ⟨_, -, hprint, -, -⟩
        exact hprint
    have hy := hx.inner hy level { strength := 7 } hn.formed.1.1 rfl
    refine ((((((hy.append (.word m' "[" lbrack' "[" (by decide))).append hl).append
      (echo_sliceColon (sliceBlanks slot.depth low high max) low high)).append hh).append hm).append
        (.rbrack m' rbrack')).as (by simp) (by simp) ?_
    rintro o o' ⟨_, ⟨_, ⟨_, ⟨_, ⟨_, ⟨_, ⟨hprint, hstart, -⟩, -⟩, hl⟩, -⟩, hh⟩, hm⟩, -, hstop⟩
    refine ⟨?_, hstart, hstop⟩
    simp only [Expr.print, hblanks, hprint, hl, hh, hm, hcolon hlow' hhigh', hcolon hhigh' hmax',
      isSome_of_tidyExpr? hmax']

/-! ### Declarations -/

def Spec.print (m : SourceMap) (level : Nat) : Spec → String
  | .value names t values =>
    Ident.names names ++ (if t.isSome then " " else "") ++ printExpr? m level {} t ++
      (if values.isEmpty then "" else " = " ++ commas (printExprs m level {} values))
  | .type name equals t => name.name ++ (if equals.isSome then " = " else " ") ++ t.print m level {}

theorem printSpecs_cons (m : SourceMap) (level : Nat) (spec : Spec) (specs : List Spec) :
    printSpecs m level (spec :: specs) = spec.print m level :: printSpecs m level specs := by
  cases spec <;> rw [printSpecs, Spec.print]

theorem echo_spec (level : Nat) {spec a : Spec} (hc : ∀ c ∈ spec.children, c.Reprints m m')
    (hs : ∀ x ∈ spec.tokens, x.Sound) (h : a.tidy .kept = spec.tidy .merged) :
    Echo m' (spec.print m level) a.tokens fun _ _ => a.print m' level = spec.print m level := by
  cases spec with
  | value names t values =>
    cases a with
    | type => cases h
    | value names' t' values' =>
      obtain ⟨hnames, ht, hvalues⟩ := Spec.value.inj h
      simp only [Spec.tokens, forall_mem_append] at hs
      have hnames : SameNames names names' := ⟨hnames, hs.1.1.1⟩
      have hsome := isSome_of_tidyExpr? ht
      have ht := echo_expr? level 1 (fun e he => hc (.expr e) (by simp_all [Spec.children])) ht
      have hempty := isEmpty_of_tidyExprs hvalues
      have hvalues :=
        (echoes_exprs level 1 (fun e he => hc (.expr e) (by simp_all [Spec.children]))
          hvalues).commas
      have hequals :
          Echo m' (if values.isEmpty then "" else " = " ++ commas (printExprs m level {} values))
          ((if values'.isEmpty then [] else [loose "="]) ++ tokensOfExprs values') fun _ _ =>
            (if values'.isEmpty then "" else " = " ++ commas (printExprs m' level {} values')) =
              if values.isEmpty then "" else " = " ++ commas (printExprs m level {} values) := by
        rw [hempty]
        cases hv : values.isEmpty with
        | true =>
          obtain rfl := isEmpty_iff.1 (hempty.trans hv)
          exact (Echo.empty m').mono fun _ _ _ => rfl
        | false =>
          refine ((Echo.looseWord m' " = " "=" (by decide)).append hvalues).as rfl rfl ?_
          rintro _ _ ⟨_, -, hprint⟩
          simp [hprint]
      have hblank : Echo m' (if t.isSome then " " else "") [] fun _ _ => True :=
        (Echo.gap m' (by split <;> decide)).mono fun _ _ _ => trivial
      refine (((hnames.echo.append hblank).append ht).append hequals).as rfl (by simp [Spec.tokens])
        ?_
      rintro _ _ ⟨_, ⟨_, ⟨_, hnames, -⟩, htype⟩, hvalues⟩
      rw [Spec.print, Spec.print, hnames, hsome, htype, hvalues]
  | type name equals t =>
    cases a with
    | value => cases h
    | type name' equals' t' =>
      obtain ⟨hname, hequals, ht⟩ := Spec.type.inj h
      have hname := Echo.ident m' (hs name.token (by simp [Spec.tokens])) hname
      have ht := (hc (.expr t) (by simp [Spec.children])).plain ht level 1
      have hsign : Echo m' (if equals.isSome then " = " else " ") (known equals' "=") fun _ _ =>
          True := by
        rw [known, Pos.isSome_of_mark hequals]
        cases equals.isSome with
        | true => exact (Echo.word m' " = " equals' "=" (by decide)).mono fun _ _ _ => trivial
        | false => exact (Echo.gap m' (by decide)).mono fun _ _ _ => trivial
      refine ((hname.append hsign).append ht).as rfl (by simp [Spec.tokens]) ?_
      rintro _ _ ⟨_, ⟨_, ⟨hname, -, -⟩, -⟩, hprint, -, -⟩
      rw [Spec.print, Spec.print, hname, Pos.isSome_of_mark hequals, hprint]

theorem echoes_specs (level : Nat) {specs as : List Spec}
    (hc : ∀ c ∈ specs.flatMap Spec.children, c.Reprints m m')
    (hs : ∀ x ∈ tokensOfSpecs specs, x.Sound) (h : tidySpecs .kept as = tidySpecs .merged specs) :
    Echoes m' (printSpecs m level specs) (tokensOfSpecs as) (printSpecs m' level as) := by
  rw [tidySpecs_eq_map, tidySpecs_eq_map] at h
  rw [tokensOfSpecs_eq] at hs ⊢
  induction specs generalizing as with
  | nil =>
    obtain rfl := map_eq_nil_iff.1 h
    exact .nil
  | cons spec specs ih =>
    obtain ⟨a, as, rfl, ha, has⟩ := map_eq_cons_iff.1 h
    rw [flatMap_cons] at hc hs
    obtain ⟨hc, hcs⟩ := forall_mem_append.1 hc
    obtain ⟨hs, hss⟩ := forall_mem_append.1 hs
    rw [printSpecs_cons, printSpecs_cons, flatMap_cons]
    exact .cons (echo_spec level hc hs ha) (ih hcs hss has)

theorem GenDecl.echo (level : Nat) {a : GenDecl} (hc : ∀ c ∈ d.children, c.Reprints m m')
    (hw : d.IsWhole) (hs : ∀ x ∈ d.tokens, x.Sound) (h : a.tidy .kept = d.tidy .merged) :
    Echo m' (d.print m level) a.tokens fun _ _ => a.print m' level = d.print m level := by
  obtain ⟨wordPos, word, lparen, specs, rparen⟩ := d
  obtain ⟨wordPos', word', lparen', specs', rparen'⟩ := a
  obtain ⟨-, rfl, hl, hspecs, hr⟩ := GenDecl.mk.inj h
  have hl := Pos.isSome_of_mark hl
  have hr : rparen'.isSome = lparen.isSome := (Pos.isSome_of_mark hr).trans hw.1.symm
  have hsound : ∀ x ∈ tokensOfSpecs specs, x.Sound :=
    fun x hx => hs x (by simp [GenDecl.tokens, hx])
  have hword :=
    Echo.sign m' wordPos' (w := word'.word) (by cases word' <;> decide) (by cases word' <;> decide)
  rw [GenDecl.print, GenDecl.print, GenDecl.tokens, known, known, hl, hr]
  cases lparen.isSome with
  | true =>
    have hlines := (echoes_specs (level + 1) hc hsound hspecs).join (all_isGap_tabs (level + 1))
      (show "\n".toList.all Lex.isGap = true by decide)
    refine ((((hword.append (.word m' " (\n" lparen' "(" (by decide))).append hlines).append
      (.gap m' (all_isGap_tabs level))).append (.rparen m' rparen')).as (by simp) (by simp) ?_
    rintro _ _ ⟨_, ⟨_, ⟨_, -, hspecs⟩, -⟩, -⟩
    simp [hspecs]
  | false =>
    have hspecs :=
      (echoes_specs level hc hsound hspecs).join (show " ".toList.all Lex.isGap = true by decide)
      (show "".toList.all Lex.isGap = true by decide)
    refine (hword.append hspecs).as (by simp) (by simp) ?_
    rintro _ _ ⟨_, -, hspecs⟩
    simp [hspecs]

/-! ### Statements -/

theorem isSome_of_tidyStmt? {a : Option Stmt} (h : tidyStmt? .kept a = tidyStmt? .merged s) :
    a.isSome = s.isSome := by
  cases s <;> cases a <;> first | rfl | cases h

theorem echo_stmt? (level : Nat) (after : String) {a : Option Stmt}
    (ha : after.toList.all Lex.isGap = true) (hs : ∀ x ∈ s, x.Reprints m m')
    (h : tidyStmt? .kept a = tidyStmt? .merged s) :
    Echo m' (printStmt? m level after s) (tokensOfStmt? [] a) fun _ _ =>
      printStmt? m' level after a = printStmt? m level after s := by
  match s, a, h with
  | none, none, _ => exact (Echo.empty m').mono fun _ _ _ => rfl
  | some s, some a, h =>
    have hstmt : s.Echoed m m' level a := hs s rfl _ _ (Option.some.inj h)
    refine (hstmt.append (.gap m' ha)).as rfl (by simp [tokensOfStmt?]) ?_
    rintro _ _ ⟨_, hprint, -⟩
    rw [printStmt?, printStmt?, hprint]

theorem isSome_of_tidyHeader? (h : tidyHeader? .kept a = tidyHeader? .merged e) :
    a.isSome = e.isSome := by
  cases e <;> cases a <;> first | rfl | cases h

theorem echo_header? (level : Nat) (he : ∀ x ∈ e, Expr.Reprints m m' x)
    (h : tidyHeader? .kept a = tidyHeader? .merged e) :
    Echo m' (printExpr? m level { bare := true } e) (tokensOfExpr? [] a) fun _ _ =>
      printExpr? m' level { bare := true } a = printExpr? m level { bare := true } e := by
  match e, a, h with
  | none, none, _ => exact (Echo.empty m').mono fun _ _ _ => rfl
  | some e, some a, h =>
    refine ((he e rfl).header (Option.some.inj h) level).as rfl (by simp) ?_
    exact fun _ _ h => h.1

theorem echo_blank (b : Bool) : Echo m' (if b then " " else "") [] fun _ _ => True :=
  (Echo.gap m' (by cases b <;> decide)).mono fun _ _ _ => trivial

theorem echo_clause (given : Bool) (p colon : Pos) {head body : String} {ts us : List Token}
    {Q R : Prop} (hhead : Echo m' head ts fun _ _ => Q) (hnone : given = false → ts = [])
    (hbody : Echo m' body us fun _ _ => R) :
    Echo m' ((if given then "case " ++ head ++ ":" else "default:") ++ body)
      (placed p (if given then "case" else "default") :: (ts ++ placed colon ":" :: us)) fun _ _ =>
      (given = true → Q) ∧ R := by
  cases given with
  | true =>
    refine (((Echo.word m' "case " p "case" (by decide)).append hhead).append
      ((Echo.word m' ":" colon ":" (by decide)).append hbody)).as (by simp) (by simp) ?_
    rintro _ _ ⟨_, ⟨_, -, hQ⟩, _, -, hR⟩
    exact ⟨fun _ => hQ, hR⟩
  | false =>
    rw [hnone rfl]
    refine ((Echo.lit m' "default:" [placed p "default", placed colon ":"] ["default", ":"] rfl
      (by decide)).append hbody).as rfl rfl ?_
    rintro _ _ ⟨_, -, hR⟩
    exact ⟨nofun, hR⟩

namespace Stmt.Reprints

variable {init : Option Stmt}

theorem decl (hc : ∀ c ∈ d.children, c.Reprints m m') (hn : (Phrase.stmt (.decl d)).Sturdy) :
    (Stmt.decl d).Reprints m m' := fun a level ha => by
  cases a <;> try cases ha
  case decl a => exact GenDecl.echo level hc hn.whole hn.sound (Stmt.decl.inj ha)

theorem expr (hx : x.Reprints m m') : (Stmt.expr x).Reprints m m' := fun a level ha => by
  cases a <;> try cases ha
  case expr y => exact (hx.plain (Stmt.expr.inj ha) level 1).mono fun _ _ h => h.1

theorem incDec {step : Step} (hx : x.Reprints m m') : (Stmt.incDec x p step).Reprints m m' :=
  fun a level ha => by
  cases a <;> try cases ha
  case incDec y p' step' =>
    obtain ⟨hy, -, rfl⟩ := Stmt.incDec.inj ha
    have hy := hx.plain hy level 2
    refine (hy.append (.sign m' p' (w := step'.symbol) (by cases step' <;> decide)
      (by cases step' <;> decide))).as rfl (by simp) ?_
    rintro _ _ ⟨_, ⟨hprint, -, -⟩, -⟩
    rw [Stmt.print, Stmt.print, hprint]

theorem go (hx : x.Reprints m m') : (Stmt.go p x).Reprints m m' := fun a level ha => by
  cases a <;> try cases ha
  case go p' y =>
    have hy := hx.plain (Stmt.go.inj ha).2 level 1
    refine ((Echo.word m' "go " p' "go" (by decide)).append hy).as rfl rfl ?_
    rintro _ _ ⟨_, -, hprint, -, -⟩
    rw [Stmt.print, Stmt.print, hprint]

theorem defer (hx : x.Reprints m m') : (Stmt.defer p x).Reprints m m' := fun a level ha => by
  cases a <;> try cases ha
  case defer p' y =>
    have hy := hx.plain (Stmt.defer.inj ha).2 level 1
    refine ((Echo.word m' "defer " p' "defer" (by decide)).append hy).as rfl rfl ?_
    rintro _ _ ⟨_, -, hprint, -, -⟩
    rw [Stmt.print, Stmt.print, hprint]

theorem send (hx : x.Reprints m m') (hy : y.Reprints m m') : (Stmt.send x p y).Reprints m m' :=
  fun a level ha => by
  cases a <;> try cases ha
  case send x' p' y' =>
    obtain ⟨hx', -, hy'⟩ := Stmt.send.inj ha
    have hx' := hx.plain hx' level 1
    have hy' := hy.plain hy' level 1
    refine ((hx'.append (.word m' " <- " p' "<-" (by decide))).append hy').as rfl (by simp) ?_
    rintro _ _ ⟨_, ⟨_, ⟨hchan, -, -⟩, -⟩, hvalue, -, -⟩
    rw [Stmt.print, Stmt.print, hchan, hvalue]

theorem assign {lhs rhs : List Expr} {op : AssignOp} (hl : ∀ e ∈ lhs, e.Reprints m m')
    (hr : ∀ e ∈ rhs, e.Reprints m m') :
    (Stmt.assign lhs p op rhs).Reprints m m' := fun a level ha => by
  cases a <;> try cases ha
  case assign lhs' p' op' rhs' =>
    obtain ⟨hl', -, rfl, hr'⟩ := Stmt.assign.inj ha
    have hslot := echoes_exprs level (if 1 < lhs.length && 1 < rhs.length then 2 else 1) hl hl'
    have hslot' := echoes_exprs level (if 1 < lhs.length && 1 < rhs.length then 2 else 1) hr hr'
    have hop := Echo.sign m' p' (Lex.opensToken_assignOp op') (by cases op' <;> decide)
    refine ((((hslot.commas.append (.blank m')).append hop).append (.blank m')).append
      hslot'.commas).as rfl (by simp) ?_
    rintro _ _ ⟨_, ⟨_, ⟨_, ⟨_, hleft, -⟩, -⟩, -⟩, hright⟩
    rw [Stmt.print, Stmt.print, length_of_tidyExprs hl', length_of_tidyExprs hr', hleft, hright]

theorem ret {results : List Expr} (hr : ∀ e ∈ results, e.Reprints m m') :
    (Stmt.ret p results).Reprints m m' := fun a level ha => by
  cases a <;> try cases ha
  case ret p' results' =>
    have hlist := (Stmt.ret.inj ha).2
    have hempty := isEmpty_of_tidyExprs hlist
    have hlist := (echoes_exprs level 1 hr hlist).commas
    rw [Stmt.Echoed, Stmt.print, Stmt.print, hempty]
    cases he : results.isEmpty with
    | true =>
      obtain rfl := isEmpty_iff.1 (hempty.trans he)
      exact (Echo.word m' "return" p' "return" (by decide)).mono fun _ _ _ => rfl
    | false =>
      refine ((Echo.word m' "return " p' "return" (by decide)).append hlist).as rfl rfl ?_
      rintro _ _ ⟨_, -, hprint⟩
      simp [hprint]

theorem jump {word : Jump} {label : Option Ident} (hn : (Phrase.stmt (.jump p word label)).Sturdy) :
    (Stmt.jump p word label).Reprints m m' := fun a _ ha => by
  cases a <;> try cases ha
  case jump p' word' label' =>
    obtain ⟨-, rfl, hlabel⟩ := Stmt.jump.inj ha
    have hword :=
      Echo.sign m' p' (w := word'.word) (by cases word' <;> decide) (by cases word' <;> decide)
    cases label with
    | none =>
      obtain rfl : label' = none := by simpa using hlabel
      exact hword.as (by simp [Stmt.print]) (by simp) fun _ _ _ => by simp [Stmt.print]
    | some id =>
      obtain ⟨id', rfl, hid⟩ := map_eq_some_iff.1 hlabel
      have hid := Echo.ident m' (hn.sound id.token (by simp [Phrase.tokens])) hid
      refine ((hword.append (.blank m')).append hid).as (by simp [Stmt.print]) (by simp) ?_
      rintro _ _ ⟨_, -, hname, -, -⟩
      simp [Stmt.print, hname]

theorem block {b : Block} (hb : ∀ s ∈ b.list, s.Reprints m m') : (Stmt.block b).Reprints m m' :=
  fun a level ha => by
  cases a <;> try cases ha
  case block b' => exact Block.echo level hb (Stmt.block.inj ha)

theorem labeled {label : Ident} {s : Stmt} (hs : s.Reprints m m')
    (hn : (Phrase.stmt (.labeled label colon s)).Sturdy) :
    (Stmt.labeled label colon s).Reprints m m' := fun a level ha => by
  cases a <;> try cases ha
  case labeled label' colon' s' =>
    obtain ⟨hlabel, -, hs'⟩ := Stmt.labeled.inj ha
    have hlabel := Echo.ident m' (hn.sound label.token (by simp [Phrase.tokens])) hlabel
    have hs' : s.Echoed m m' level s' := hs _ _ hs'
    refine (((hlabel.append (.word m' ":\n" colon' ":" (by decide))).append
      (.gap m' (all_isGap_tabs level))).append hs').as rfl (by simp) ?_
    rintro _ _ ⟨_, ⟨_, ⟨_, ⟨hname, -, -⟩, -⟩, -⟩, hprint⟩
    rw [Stmt.print, Stmt.print, hname, hprint]

theorem ifElse {other : Option Stmt} {cond : Expr} {body : Block} (hi : ∀ s ∈ init, s.Reprints m m')
    (hc : cond.Reprints m m') (hb : ∀ s ∈ body.list, s.Reprints m m')
    (ho : ∀ s ∈ other, s.Reprints m m') :
    (Stmt.ifElse p init cond body other).Reprints m m' := fun a level ha => by
  cases a <;> try cases ha
  case ifElse p' init' cond' body' other' =>
    obtain ⟨-, hi', hc', hb', ho'⟩ := Stmt.ifElse.inj ha
    have hother : Echo m' ((if other.isSome then " else " else "") ++ printStmt? m level "" other)
        (tokensOfStmt? [loose "else"] other') fun _ _ =>
          printStmt? m' level "" other' = printStmt? m level "" other := by
      have hstmt := echo_stmt? level "" (by decide) ho ho'
      match other, other', ho' with
      | none, none, _ => exact (Echo.empty m').mono fun _ _ _ => rfl
      | some s, some s', ho' =>
        refine ((Echo.looseWord m' " else " "else" (by decide)).append hstmt).as rfl
          (by simp [tokensOfStmt?]) ?_
        rintro _ _ ⟨_, -, hprint⟩
        exact hprint
    have hinit := echo_stmt? level "; " (by decide) hi hi'
    refine (((((Echo.word m' "if " p' "if" (by decide)).append hinit).append
      (hc.header hc' level)).append
      (.blank m')).append ((Block.echo level hb hb').append hother)).as
        (by simp [Stmt.print]) (by simp) ?_
    rintro _ _ ⟨_, ⟨_, ⟨_, ⟨_, -, hinit⟩, hcond, -, -⟩, -⟩, _, hbody, hother⟩
    rw [Stmt.print, Stmt.print, isSome_of_tidyStmt? ho', hinit, hcond, hbody, hother]

theorem forLoop {post : Option Stmt} {cond : Option Expr} {body : Block}
    (hi : ∀ s ∈ init, s.Reprints m m') (hc : ∀ e ∈ cond, e.Reprints m m')
    (hp : ∀ s ∈ post, s.Reprints m m') (hb : ∀ s ∈ body.list, s.Reprints m m') :
    (Stmt.forLoop p init cond post body).Reprints m m' := fun a level ha => by
  cases a <;> try cases ha
  case forLoop p' init' cond' post' body' =>
    obtain ⟨-, hi', hc', hp', hb'⟩ := Stmt.forLoop.inj ha
    have hinit := echo_stmt? level "" (by decide) hi hi'
    have hcond := echo_header? level hc hc'
    have hpost := echo_stmt? level " " (by decide) hp hp'
    have hfor := Echo.word m' "for " p' "for" (by decide)
    have hbody := Block.echo level hb hb'
    have hheader : (init'.isNone && post'.isNone) = (init.isNone && post.isNone) := by
      rw [← not_isSome, ← not_isSome, isSome_of_tidyStmt? hi', isSome_of_tidyStmt? hp', not_isSome,
        not_isSome]
    rw [Stmt.Echoed, Stmt.print, Stmt.print, hheader, isSome_of_tidyHeader? hc']
    cases hnone : init.isNone && post.isNone with
    | true =>
      obtain ⟨hni, hnp⟩ := Bool.and_eq_true_iff.1 hnone
      obtain rfl := isNone_iff_eq_none.1 hni
      obtain rfl := isNone_iff_eq_none.1 hnp
      obtain rfl : init' = none := by cases init' <;> first | rfl | cases hi'
      obtain rfl : post' = none := by cases post' <;> first | rfl | cases hp'
      refine (((hfor.append hcond).append (echo_blank cond.isSome)).append hbody).as
        (by simp) (by simp [tokensOfStmt?]) ?_
      rintro _ _ ⟨_, ⟨_, ⟨_, -, hcond⟩, -⟩, hbody⟩
      simp [hcond, hbody]
    | false =>
      refine ((((((hfor.append hinit).append (.gap m' (t := "; ") (by decide))).append hcond).append
        (.gap m' (t := "; ") (by decide))).append hpost).append hbody).as (by simp) (by simp) ?_
      rintro _ _ ⟨_, ⟨_, ⟨_, ⟨_, ⟨_, ⟨_, -, hinit⟩, -⟩, hcond⟩, -⟩, hpost⟩, hbody⟩
      simp [hinit, hcond, hpost, hbody]

theorem range {key value : Option Expr} {op : Option AssignOp} {body : Block} {opPos : Pos}
    (hk : ∀ e ∈ key, e.Reprints m m') (hv : ∀ e ∈ value, e.Reprints m m') (hx : x.Reprints m m')
    (hb : ∀ s ∈ body.list, s.Reprints m m')
    (hn : (Phrase.stmt (.range p key value opPos op x body)).Sturdy) :
    (Stmt.range p key value opPos op x body).Reprints m m' := fun a level ha => by
  cases a <;> try cases ha
  case range p' key' value' opPos' op' x' body' =>
    obtain ⟨-, hk', hv', -, rfl, hx', hb'⟩ := Stmt.range.inj ha
    obtain ⟨-, -, -, hkey, hvalue, -⟩ := hn.formed
    have hfor := Echo.word m' "for " p' "for" (by decide)
    have htail :=
      (((Echo.looseWord m' "range " "range" (by decide)).append (hx.header hx' level)).append
      (.blank m')).append (Block.echo level hb hb')
    rw [Stmt.Echoed, Stmt.print, Stmt.print, isSome_of_tidyExpr? hk', isSome_of_tidyExpr? hv']
    cases op' with
    | none =>
      have hnone : key = none := by simpa using hkey
      subst hnone
      obtain rfl : value = none := by simpa using hvalue
      obtain rfl : key' = none := by cases key' <;> first | rfl | cases hk'
      obtain rfl : value' = none := by cases value' <;> first | rfl | cases hv'
      refine (hfor.append htail).as (by simp [-String.reduceAppend]) (by simp) ?_
      rintro _ _ ⟨_, -, _, ⟨_, ⟨_, -, hprint, -, -⟩, -⟩, hbody⟩
      simp [hprint, hbody]
    | some o =>
      have hkeys := echo_expr? level 1 hk hk'
      have hvalues := echo_expr? level 1 hv hv'
      have hcomma : Echo m' (if value.isSome then ", " else "") [] fun _ _ => True :=
        (Echo.gap m' (by cases value.isSome <;> decide)).mono fun _ _ _ => trivial
      have hop := Echo.sign m' opPos' (Lex.opensToken_assignOp o) (by cases o <;> decide)
      refine (((((((hfor.append hkeys).append hcomma).append hvalues).append (.blank m')).append
        hop).append (.blank m')).append htail).as (by simp [-String.reduceAppend, hkey])
          (by simp) ?_
      rintro _ _ ⟨_, ⟨_, ⟨_, ⟨_, ⟨_, ⟨_, ⟨_, -, hkeys⟩, -⟩, hvalues⟩, -⟩, -⟩, -⟩, _,
        ⟨_, ⟨_, -, hprint, -, -⟩, -⟩, hbody⟩
      simp [hkeys, hvalues, hprint, hbody]

theorem switch {tag : Option Expr} {body : Block} (hi : ∀ s ∈ init, s.Reprints m m')
    (ht : ∀ e ∈ tag, e.Reprints m m')
    (hb : ∀ s ∈ body.list, s.Reprints m m') : (Stmt.switch p init tag body).Reprints m m' :=
  fun a level ha => by
  cases a <;> try cases ha
  case switch p' init' tag' body' =>
    obtain ⟨-, hi', ht', hb'⟩ := Stmt.switch.inj ha
    have hinit := echo_stmt? level "; " (by decide) hi hi'
    refine (((((Echo.word m' "switch " p' "switch" (by decide)).append hinit).append
      (echo_header? level ht ht')).append (echo_blank tag.isSome)).append
        (Block.echoClauses level hb hb')).as rfl (by simp) ?_
    rintro _ _ ⟨_, ⟨_, ⟨_, ⟨_, -, hinit⟩, htag⟩, -⟩, hbody⟩
    rw [Stmt.print, Stmt.print, isSome_of_tidyHeader? ht', hinit, htag, hbody]

theorem typeSwitch {guard : Stmt} {body : Block} (hi : ∀ s ∈ init, s.Reprints m m')
    (hg : guard.Reprints m m')
    (hb : ∀ s ∈ body.list, s.Reprints m m') : (Stmt.typeSwitch p init guard body).Reprints m m' :=
  fun a level ha => by
  cases a <;> try cases ha
  case typeSwitch p' init' guard' body' =>
    obtain ⟨-, hi', hg', hb'⟩ := Stmt.typeSwitch.inj ha
    have hinit := echo_stmt? level "; " (by decide) hi hi'
    have hguard : guard.Echoed m m' level guard' := hg _ _ hg'
    refine (((((Echo.word m' "switch " p' "switch" (by decide)).append hinit).append hguard).append
      (.blank m')).append (Block.echoClauses level hb hb')).as rfl (by simp) ?_
    rintro _ _ ⟨_, ⟨_, ⟨_, ⟨_, -, hinit⟩, hguard⟩, -⟩, hbody⟩
    rw [Stmt.print, Stmt.print, hinit, hguard, hbody]

theorem select {body : Block} (hb : ∀ s ∈ body.list, s.Reprints m m') :
    (Stmt.select p body).Reprints m m' := fun a level ha => by
  cases a <;> try cases ha
  case select p' body' =>
    have hbody := Block.echoClauses level hb (Stmt.select.inj ha).2
    refine ((Echo.word m' "select " p' "select" (by decide)).append hbody).as rfl rfl ?_
    rintro _ _ ⟨_, -, hbody⟩
    rw [Stmt.print, Stmt.print, hbody]

theorem caseClause {list : List Expr} {body : List Stmt} (hl : ∀ e ∈ list, e.Reprints m m')
    (hb : ∀ s ∈ body, s.Reprints m m') : (Stmt.caseClause p list colon body).Reprints m m' :=
  fun a level ha => by
  cases a <;> try cases ha
  case caseClause p' list' colon' body' =>
    obtain ⟨-, hl', -, hb'⟩ := Stmt.caseClause.inj ha
    have hempty := isEmpty_of_tidyExprs hl'
    have hclause :=
      echo_clause (!list.isEmpty) p' colon' (echoes_exprs level 1 hl hl').commas (fun he => by
      obtain rfl := isEmpty_iff.1 (hempty.trans (by simpa using he))
      rfl) (echo_clauseBody (level + 1) hb hb')
    rw [Stmt.Echoed, Stmt.print, Stmt.print, Stmt.tokens, hempty]
    cases he : list.isEmpty <;> rw [he] at hclause <;> refine hclause.mono fun _ _ h => ?_
      <;> simp_all

theorem commClause {comm : Option Stmt} {body : List Stmt} (hc : ∀ s ∈ comm, s.Reprints m m')
    (hb : ∀ s ∈ body, s.Reprints m m') : (Stmt.commClause p comm colon body).Reprints m m' :=
  fun a level ha => by
  cases a <;> try cases ha
  case commClause p' comm' colon' body' =>
    obtain ⟨-, hc', -, hb'⟩ := Stmt.commClause.inj ha
    have hsome := isSome_of_tidyStmt? hc'
    have hclause :=
      echo_clause comm.isSome p' colon' (echo_stmt? level "" (by decide) hc hc') (fun he => by
      obtain rfl : comm' = none := by simpa using hsome.trans he
      rfl) (echo_clauseBody (level + 1) hb hb')
    rw [Stmt.Echoed, Stmt.print, Stmt.print, Stmt.tokens, hsome]
    refine hclause.mono ?_
    rintro _ _ ⟨hcomm, hbody⟩
    cases he : comm.isSome with
    | true => simp [hcomm he, hbody]
    | false => simp [hbody]

end Stmt.Reprints

theorem Expr.reprints {e : Expr} (hc : ∀ c ∈ e.children, c.Reprints m m')
    (hn : (Phrase.expr e).Sturdy) : e.Reprints m m' := by
  cases e <;> simp only [Expr.children, Block.children, forall_mem_cons, forall_mem_append,
    List.forall_mem_map, mem_toList, not_mem_nil, false_imp_iff, implies_true, and_true] at hc
  case ident => exact .ident hn
  case lit => exact .lit hn
  case paren => exact .paren hc
  case selector => exact .selector hc hn
  case index => exact .index hc.1 hc.2 hn
  case call => exact .call hc.1 hc.2 hn
  case star => exact .star hc
  case unary => exact .unary hc hn
  case binary => exact .binary hc.1 hc.2 hn
  case array => exact .array hc.1 hc.2
  case map => exact .map hc.1 hc.2
  case chan => exact .chan hc
  case struct => exact .struct hc hn
  case composite => exact .composite hc.1 hc.2 hn
  case keyValue => exact .keyValue hc.1 hc.2
  case funcLit => exact .funcLit hc.1 hc.2 hn
  case slice => exact .slice hc.1 hc.2.1.1 hc.2.1.2 hc.2.2 hn
  case assertion => exact .assertion hc.1 hc.2 hn
  case ellipsis => exact .ellipsis hc
  case func t =>
    obtain ⟨funcPos, params, results⟩ := t
    refine .func hc fun x hx => hn.sound x ?_
    cases funcPos <;> simp_all [Phrase.tokens, FuncType.tokens]
  case interface => exact .interface hc hn

theorem Stmt.reprints {s : Stmt} (hc : ∀ c ∈ s.children, c.Reprints m m')
    (hn : (Phrase.stmt s).Sturdy) : s.Reprints m m' := by
  cases s <;> simp only [Stmt.children, Block.children, forall_mem_cons, forall_mem_append,
    List.forall_mem_map, mem_toList, not_mem_nil, false_imp_iff, implies_true, and_true] at hc
  case decl => exact .decl hc hn
  case expr => exact .expr hc
  case assign => exact .assign hc.1 hc.2
  case incDec => exact .incDec hc
  case ret => exact .ret hc
  case jump => exact .jump hn
  case block => exact .block hc
  case ifElse => exact .ifElse hc.1 hc.2.1 hc.2.2.1 hc.2.2.2
  case forLoop => exact .forLoop hc.1.1.1 hc.1.1.2 hc.1.2 hc.2
  case range => exact .range hc.1.1 hc.1.2 hc.2.1 hc.2.2 hn
  case go => exact .go hc
  case defer => exact .defer hc
  case labeled => exact .labeled hc hn
  case send => exact .send hc.1 hc.2
  case switch => exact .switch hc.1.1 hc.1.2 hc.2
  case typeSwitch => exact .typeSwitch hc.1 hc.2.1 hc.2.2
  case select => exact .select hc
  case caseClause => exact .caseClause hc.1 hc.2
  case commClause => exact .commClause hc.1 hc.2

/-- Sturdy phrases are printed the same from trees of the same form whose tokens are where the print
has them. -/
theorem Phrase.reprints {n : Phrase} (h : Throughout Phrase.Sturdy n) : n.Reprints m m' := by
  induction h with
  | @intro n here _ ih =>
    cases n with
    | expr e => exact Expr.reprints ih here
    | stmt s => exact Stmt.reprints ih here

end

end GoFun
