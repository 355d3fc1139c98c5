import GoFun.Proofs.Outline.Plain
import GoFun.Proofs.Tree.Operator
import GoFun.Proofs.Tree.Place

/-!
# Trees follow from their outlines

What is seen of the outline of a tree determines its kind and what is seen of its fields, so by
induction the whole tree, up to positions where the filter drops them. With the results on lines,
the rendered text determines the tree.
-/
namespace GoFun

variable {m : SourceMap} {f : Filter}
variable {e e' : Expr} {s s' : Stmt} {α : Type} {ns : List Phrase}

theorem AssignOp.option_inj {a b : Option AssignOp} (h : a.map symbol = b.map symbol) : a = b :=
  Option.map_injective (fun _ _ => symbol_inj) h

theorem IsSchema.alike {schema : List (String × List String)} (hs : IsSchema schema) {i j : Nat}
    {o o' : Outline} (hi : schema[i]? = some (o.kind, o.entries.map Entry.name))
    (hj : schema[j]? = some (o'.kind, o'.entries.map Entry.name)) (ho : o.IsPlain)
    (ho' : o'.IsPlain) (h : o.seen m f = o'.seen m f) :
    i = j ∧ FieldsAlike m f o.entries o'.entries := by
  have hk : o.kind = o'.kind := by rw [← o.kind_seen (m := m) (f := f), h, o'.kind_seen]
  have hij : i = j := by
    have hi' := congrArg (Option.map Prod.fst) hi
    have hj' := congrArg (Option.map Prod.fst) hj
    rw [← List.getElem?_map] at hi' hj'
    obtain ⟨hlt, -⟩ := List.getElem?_eq_some_iff.1 hi'
    exact (List.getElem?_inj hlt hs.1).1 (by rw [hi', hj', Option.map_some, Option.map_some, hk])
  subst hij
  have hn := congrArg Prod.snd (Option.some.inj (hi.symm.trans hj))
  obtain ⟨kind, entries⟩ := o
  obtain ⟨kind', entries'⟩ := o'
  obtain rfl : kind = kind' := hk
  exact ⟨rfl, Outline.fieldsAlike h ho ho' hn (hs.2 _ (List.mem_of_getElem? hi)).1⟩

theorem Expr.alike_of_seen (h : e.outline.seen m f = e'.outline.seen m f) :
    e.ctorIdx = e'.ctorIdx ∧ FieldsAlike m f e.outline.entries e'.outline.entries :=
  Expr.isSchema.alike e.schema_outline e'.schema_outline e.outline_plain e'.outline_plain h

theorem Stmt.alike_of_seen (h : s.outline.seen m f = s'.outline.seen m f) :
    s.ctorIdx = s'.ctorIdx ∧ FieldsAlike m f s.outline.entries s'.outline.entries :=
  Stmt.isSchema.alike s.schema_outline s'.schema_outline s.outline_plain s'.outline_plain h

/-- What is seen of the outline of `a` determines `a`, up to positions where the filter drops
them. -/
def Determined (m : SourceMap) (f : Filter) (outline : α → Outline) (place : (Pos → Pos) → α → α)
    (a : α) : Prop :=
  ∀ b, (outline a).seen m f = (outline b).seen m f → place f.erase a = place f.erase b

section Lists

variable {outline : α → Outline} {place : (Pos → Pos) → α → α}

/-- If what is seen determines the trees, it determines lists of them. -/
theorem map_eq_of_alike {as bs : List α} (hone : ∀ a ∈ as, Determined m f outline place a)
    (h : (Value.nodes (as.map outline)).Alike m f (.nodes (bs.map outline))) :
    as.map (place f.erase) = bs.map (place f.erase) := by
  replace h := h.nodes
  induction as generalizing bs with
  | nil =>
    obtain rfl : bs = [] := by simpa using h.symm
    rfl
  | cons a as ih =>
    cases bs with
    | nil => simp at h
    | cons b bs =>
      simp only [List.map_cons, List.cons.injEq] at h ⊢
      exact ⟨hone a List.mem_cons_self b h.1, ih (fun a ha => hone a (List.mem_cons_of_mem _ ha))
        h.2⟩

theorem option_map_eq_of_alike {a b : Option α} (hone : ∀ a' ∈ a, Determined m f outline place a')
    (h : (Value.ofOption (a.map outline)).Alike m f (.ofOption (b.map outline))) :
    a.map (place f.erase) = b.map (place f.erase) := by
  have hs := h.ofOption
  cases a <;> cases b
  case none.none => rfl
  case none.some => simp at hs
  case some.none => simp at hs
  case some.some a b => exact congrArg some (hone a rfl b (by simpa using hs))

end Lists

theorem Object.determined (o : Object) : Determined m f Object.outline (fun _ o => o) o := by
  intro o' h
  obtain ⟨hkind, hname, -⟩ := Outline.fieldsAlike h o.outline_plain o'.outline_plain rfl (by simp)
  obtain ⟨kind, name⟩ := o
  exact congr (congrArg Object.mk (ObjKind.word_inj hkind.token)) hname.text

theorem Ident.place_eq_of_seen (hb : m.Built) {id id' : Ident}
    (h : id.outline.seen m f = id'.outline.seen m f) :
    id.place f.erase = id'.place f.erase := by
  obtain ⟨hpos, hname, hobj, -⟩ :=
    Outline.fieldsAlike h id.outline_plain id'.outline_plain rfl (by simp)
  have hobj : id.obj.map (fun o => o) = id'.obj.map fun o => o :=
    option_map_eq_of_alike (fun o _ => o.determined) hobj
  rw [Option.map_id_fun'] at hobj
  simp only [Ident.place, hpos.pos hb, hname.text, show id.obj = id'.obj from hobj]

theorem Ident.placeOption_eq_of_alike (hb : m.Built) {id id' : Option Ident}
    (h : (Value.ofOption (id.map Ident.outline)).Alike m f (.ofOption (id'.map Ident.outline))) :
    id.map (Ident.place f.erase) = id'.map (Ident.place f.erase) :=
  option_map_eq_of_alike (fun _ _ _ => Ident.place_eq_of_seen hb) h

theorem Ident.placeList_eq_of_alike (hb : m.Built) {ids ids' : List Ident}
    (h : (Value.nodes (ids.map Ident.outline)).Alike m f (.nodes (ids'.map Ident.outline))) :
    ids.map (Ident.place f.erase) = ids'.map (Ident.place f.erase) :=
  map_eq_of_alike (fun _ _ _ => Ident.place_eq_of_seen hb) h

theorem Literal.determined (hb : m.Built) (l : Literal) :
    Determined m f Literal.outline Literal.place l := by
  intro l' h
  obtain ⟨hpos, hkind, htext, -⟩ :=
    Outline.fieldsAlike h l.outline_plain l'.outline_plain rfl (by simp)
  simp only [Literal.place, hpos.pos hb, LitKind.symbol_inj hkind.token, htext.text]

/-- What is seen of the phrase determines it, up to what the filter erases. -/
def Phrase.Shown (m : SourceMap) (f : Filter) : Phrase → Prop
  | expr e => Determined m f Expr.outline Expr.place e
  | stmt s => Determined m f Stmt.outline Stmt.place s

def AllShown (m : SourceMap) (f : Filter) (ns : List Phrase) : Prop := ∀ n ∈ ns, n.Shown m f

theorem allShown_append {ns' : List Phrase} :
    AllShown m f (ns ++ ns') ↔ AllShown m f ns ∧ AllShown m f ns' :=
  List.forall_mem_append

theorem allShown_cons {n : Phrase} : AllShown m f (n :: ns) ↔ n.Shown m f ∧ AllShown m f ns :=
  List.forall_mem_cons

section Step

theorem placeExpr?_eq_of_alike {x x' : Option Expr} (ih : AllShown m f (x.toList.map .expr))
    (h : (outlineExpr? x).Alike m f (outlineExpr? x')) :
    placeExpr? f.erase x = placeExpr? f.erase x' := by
  simp only [outlineExpr?_eq_map, placeExpr?_eq_map] at h ⊢
  exact option_map_eq_of_alike
    (fun e he => ih (.expr e) (List.mem_map_of_mem (Option.mem_toList.2 he))) h

theorem placeStmt?_eq_of_alike {x x' : Option Stmt} (ih : AllShown m f (x.toList.map .stmt))
    (h : (outlineStmt? x).Alike m f (outlineStmt? x')) :
    placeStmt? f.erase x = placeStmt? f.erase x' := by
  simp only [outlineStmt?_eq_map, placeStmt?_eq_map] at h ⊢
  exact option_map_eq_of_alike
    (fun s hs => ih (.stmt s) (List.mem_map_of_mem (Option.mem_toList.2 hs))) h

theorem placeExprs_eq_of_alike {xs xs' : List Expr} (ih : AllShown m f (xs.map .expr))
    (h : (Value.nodes (outlineExprs xs)).Alike m f (.nodes (outlineExprs xs'))) :
    placeExprs f.erase xs = placeExprs f.erase xs' := by
  simp only [outlineExprs_eq_map, placeExprs_eq_map] at h ⊢
  exact map_eq_of_alike (fun e he => ih (.expr e) (List.mem_map_of_mem he)) h

theorem placeStmts_eq_of_alike {xs xs' : List Stmt} (ih : AllShown m f (xs.map .stmt))
    (h : (Value.nodes (outlineStmts xs)).Alike m f (.nodes (outlineStmts xs'))) :
    placeStmts f.erase xs = placeStmts f.erase xs' := by
  simp only [outlineStmts_eq_map, placeStmts_eq_map] at h ⊢
  exact map_eq_of_alike (fun s hs => ih (.stmt s) (List.mem_map_of_mem hs)) h

variable (hb : m.Built)

include hb

theorem Field.determined {x : Field} (ih : (Phrase.expr x.type).Shown m f) :
    Determined m f Field.outline Field.place x := by
  intro x' h
  obtain ⟨hnames, htype, htag, -⟩ :=
    Outline.fieldsAlike h x.outline_plain x'.outline_plain rfl (by simp)
  simp only [Field.place, Ident.placeList_eq_of_alike hb hnames, ih _ htype.node,
    option_map_eq_of_alike (fun l _ => l.determined hb) htag]

theorem FieldList.place_eq_of_alike {x x' : FieldList} (ih : AllShown m f x.children)
    (h : x.outline.seen m f = x'.outline.seen m f) : x.place f.erase = x'.place f.erase := by
  have hp := x.outline_plain
  have hp' := x'.outline_plain
  obtain ⟨o, list, c⟩ := x
  obtain ⟨o', list', c'⟩ := x'
  obtain ⟨hopening, hlist, hclosing, -⟩ := Outline.fieldsAlike h hp hp' rfl (by simp)
  rw [outlineFields_eq_map, outlineFields_eq_map] at hlist
  have hfield :=
    map_eq_of_alike (fun x hx => Field.determined hb (ih _ (List.mem_map_of_mem hx))) hlist
  simp only [FieldList.place, placeFields_eq_map, hopening.pos hb, hfield, hclosing.pos hb]

theorem FuncType.place_eq_of_alike {x x' : FuncType} (ih : AllShown m f x.children)
    (h : x.outline.seen m f = x'.outline.seen m f) : x.place f.erase = x'.place f.erase := by
  have hp := x.outline_plain
  have hp' := x'.outline_plain
  obtain ⟨funcPos, params, results⟩ := x
  obtain ⟨funcPos', params', results'⟩ := x'
  simp only [FuncType.children, allShown_append] at ih
  obtain ⟨hfuncPos, hparams, hresults, -⟩ := Outline.fieldsAlike h hp hp' rfl (by simp)
  rw [outlineFieldList?_eq_map, outlineFieldList?_eq_map] at hresults
  have hfields := option_map_eq_of_alike (fun x hx x' => FieldList.place_eq_of_alike hb
    fun c hc => ih.2 c (List.mem_flatMap_of_mem (Option.mem_toList.2 hx) hc)) hresults
  simp only [FuncType.place, placeFieldList?_eq_map, hfuncPos.pos hb,
    FieldList.place_eq_of_alike hb ih.1 hparams.node, hfields]

theorem Block.place_eq_of_alike {x x' : Block} (ih : AllShown m f x.children)
    (h : x.outline.seen m f = x'.outline.seen m f) : x.place f.erase = x'.place f.erase := by
  have hp := x.outline_plain
  have hp' := x'.outline_plain
  obtain ⟨lbrace, list, rbrace⟩ := x
  obtain ⟨lbrace', list', rbrace'⟩ := x'
  obtain ⟨hlbrace, hlist, hrbrace, -⟩ := Outline.fieldsAlike h hp hp' rfl (by simp)
  simp only [Block.place, hlbrace.pos hb, placeStmts_eq_of_alike ih hlist, hrbrace.pos hb]

theorem Spec.determined {x : Spec} (ih : AllShown m f x.children) :
    Determined m f Spec.outline Spec.place x := by
  intro x' h
  have hp := x.outline_plain
  have hp' := x'.outline_plain
  have hkind := congrArg Outline.kind h
  rw [Outline.kind_seen, Outline.kind_seen] at hkind
  cases x <;> cases x' <;> simp only [Spec.outline, Outline.kind, String.reduceEq] at hkind
  case value.value names t values names' t' values' =>
    obtain ⟨hnames, htype, hvalues, -⟩ := Outline.fieldsAlike h hp hp' rfl (by simp)
    rw [Spec.children, allShown_append] at ih
    simp only [Spec.place, Ident.placeList_eq_of_alike hb hnames, placeExpr?_eq_of_alike ih.1 htype,
      placeExprs_eq_of_alike ih.2 hvalues]
  case type.type name equals t name' equals' t' =>
    obtain ⟨hname, hequals, htype, -⟩ := Outline.fieldsAlike h hp hp' rfl (by simp)
    simp only [Spec.place, Ident.place_eq_of_seen hb hname.node, hequals.pos hb,
      ih (.expr t) List.mem_cons_self _ htype.node]

theorem GenDecl.place_eq_of_alike {x x' : GenDecl} (ih : AllShown m f x.children)
    (h : x.outline.seen m f = x'.outline.seen m f) : x.place f.erase = x'.place f.erase := by
  have hp := x.outline_plain
  have hp' := x'.outline_plain
  obtain ⟨wordPos, word, lparen, specs, rparen⟩ := x
  obtain ⟨wordPos', word', lparen', specs', rparen'⟩ := x'
  obtain ⟨hwordPos, hword, hlparen, hspecs, hrparen, -⟩ :=
    Outline.fieldsAlike h hp hp' rfl (by simp)
  rw [outlineSpecs_eq_map, outlineSpecs_eq_map] at hspecs
  have hspecs :=
    map_eq_of_alike (fun x hx => Spec.determined hb fun c hc =>
      ih c (List.mem_flatMap_of_mem hx hc)) hspecs
  simp only [GenDecl.place, placeSpecs_eq_map, hwordPos.pos hb, DeclWord.word_inj hword.token,
    hlparen.pos hb, hspecs, hrparen.pos hb]

theorem Expr.place_eq_of_alike (ih : AllShown m f e.children) :
    Determined m f Expr.outline Expr.place e := by
  intro e' h
  obtain ⟨hc, ha⟩ := Expr.alike_of_seen h
  -- the number of the constructor leaves the pairs of one kind
  cases e <;> cases e' <;> cases hc <;>
    simp only [Expr.outline, Outline.entries, FieldsAlike, and_true] at h ha <;>
    simp only [Expr.children, allShown_append, allShown_cons] at ih <;> simp only [Expr.place]
  case ident.ident => rw [Ident.place_eq_of_seen hb h]
  case lit.lit => rw [Literal.determined hb _ _ h]
  case paren.paren =>
    obtain ⟨hlparen, hx, hrparen⟩ := ha
    rw [hlparen.pos hb, ih.1 _ hx.node, hrparen.pos hb]
  case selector.selector =>
    obtain ⟨hx, hsel⟩ := ha
    rw [ih.1 _ hx.node, Ident.place_eq_of_seen hb hsel.node]
  case index.index =>
    obtain ⟨hx, hlbrack, hi, hrbrack⟩ := ha
    rw [ih.1 _ hx.node, hlbrack.pos hb, ih.2.1 _ hi.node, hrbrack.pos hb]
  case call.call =>
    obtain ⟨hf, hlparen, hargs, hdots, hrparen⟩ := ha
    rw [ih.1 _ hf.node, hlparen.pos hb, placeExprs_eq_of_alike ih.2 hargs, hdots.pos hb,
      hrparen.pos hb]
  case star.star =>
    obtain ⟨hstar, hx⟩ := ha
    rw [hstar.pos hb, ih.1 _ hx.node]
  case unary.unary =>
    obtain ⟨hpos, hop, hx⟩ := ha
    rw [hpos.pos hb, UnaryOp.symbol_inj hop.token, ih.1 _ hx.node]
  case binary.binary =>
    obtain ⟨hx, hpos, hop, hy⟩ := ha
    rw [ih.1 _ hx.node, hpos.pos hb, BinaryOp.symbol_inj hop.token, ih.2.1 _ hy.node]
  case array.array =>
    obtain ⟨hlbrack, hlen, helem⟩ := ha
    rw [hlbrack.pos hb, placeExpr?_eq_of_alike ih.1 hlen, ih.2.1 _ helem.node]
  case map.map =>
    obtain ⟨hpos, hkey, hvalue⟩ := ha
    rw [hpos.pos hb, ih.1 _ hkey.node, ih.2.1 _ hvalue.node]
  case chan.chan =>
    obtain ⟨hpos, hdir, hvalue⟩ := ha
    rw [hpos.pos hb, ChanDir.symbol_inj hdir.token, ih.1 _ hvalue.node]
  case struct.struct =>
    obtain ⟨hpos, hfields⟩ := ha
    rw [hpos.pos hb, FieldList.place_eq_of_alike hb ih hfields.node]
  case composite.composite =>
    obtain ⟨ht, hlbrace, helems, hrbrace⟩ := ha
    rw [placeExpr?_eq_of_alike ih.1 ht, hlbrace.pos hb, placeExprs_eq_of_alike ih.2 helems,
      hrbrace.pos hb]
  case keyValue.keyValue =>
    obtain ⟨hkey, hcolon, hvalue⟩ := ha
    rw [ih.1 _ hkey.node, hcolon.pos hb, ih.2.1 _ hvalue.node]
  case funcLit.funcLit =>
    obtain ⟨ht, hbody⟩ := ha
    rw [FuncType.place_eq_of_alike hb ih.1 ht.node, Block.place_eq_of_alike hb ih.2 hbody.node]
  case slice.slice =>
    obtain ⟨hx, hlbrack, hlow, hhigh, hmax, hrbrack⟩ := ha
    rw [ih.1 _ hx.node, hlbrack.pos hb, placeExpr?_eq_of_alike ih.2.1.1 hlow,
      placeExpr?_eq_of_alike ih.2.1.2 hhigh, placeExpr?_eq_of_alike ih.2.2 hmax, hrbrack.pos hb]
  case assertion.assertion =>
    obtain ⟨hx, hlparen, ht, hrparen⟩ := ha
    rw [ih.1 _ hx.node, hlparen.pos hb, placeExpr?_eq_of_alike ih.2 ht, hrparen.pos hb]
  case ellipsis.ellipsis =>
    obtain ⟨hdots, helem⟩ := ha
    rw [hdots.pos hb, placeExpr?_eq_of_alike ih helem]
  case func.func => rw [FuncType.place_eq_of_alike hb ih h]
  case interface.interface =>
    obtain ⟨hpos, hmethods⟩ := ha
    rw [hpos.pos hb, FieldList.place_eq_of_alike hb ih hmethods.node]

theorem Stmt.place_eq_of_alike (ih : AllShown m f s.children) :
    Determined m f Stmt.outline Stmt.place s := by
  intro s' h
  obtain ⟨hc, ha⟩ := Stmt.alike_of_seen h
  cases s <;> cases s' <;> cases hc <;>
    simp only [Stmt.outline, Outline.entries, FieldsAlike, and_true] at h ha <;>
    simp only [Stmt.children, allShown_append, allShown_cons] at ih <;> simp only [Stmt.place]
  case decl.decl => rw [GenDecl.place_eq_of_alike hb ih ha.node]
  case expr.expr => rw [ih.1 _ ha.node]
  case assign.assign =>
    obtain ⟨hlhs, hpos, hop, hrhs⟩ := ha
    rw [placeExprs_eq_of_alike ih.1 hlhs, hpos.pos hb, AssignOp.symbol_inj hop.token,
      placeExprs_eq_of_alike ih.2 hrhs]
  case incDec.incDec =>
    obtain ⟨hx, hpos, hstep⟩ := ha
    rw [ih.1 _ hx.node, hpos.pos hb, Step.symbol_inj hstep.token]
  case ret.ret =>
    obtain ⟨hpos, hresults⟩ := ha
    rw [hpos.pos hb, placeExprs_eq_of_alike ih hresults]
  case jump.jump =>
    obtain ⟨hpos, hword, hlabel⟩ := ha
    rw [hpos.pos hb, Jump.word_inj hword.token, Ident.placeOption_eq_of_alike hb hlabel]
  case block.block => rw [Block.place_eq_of_alike hb ih h]
  case ifElse.ifElse =>
    obtain ⟨hpos, hinit, hcond, hbody, hother⟩ := ha
    rw [hpos.pos hb, placeStmt?_eq_of_alike ih.1 hinit, ih.2.1 _ hcond.node,
      Block.place_eq_of_alike hb ih.2.2.1 hbody.node, placeStmt?_eq_of_alike ih.2.2.2 hother]
  case forLoop.forLoop =>
    obtain ⟨hpos, hinit, hcond, hpost, hbody⟩ := ha
    rw [hpos.pos hb, placeStmt?_eq_of_alike ih.1.1.1 hinit, placeExpr?_eq_of_alike ih.1.1.2 hcond,
      placeStmt?_eq_of_alike ih.1.2 hpost, Block.place_eq_of_alike hb ih.2 hbody.node]
  case range.range =>
    obtain ⟨hpos, hkey, hvalue, hopPos, hop, hx, hbody⟩ := ha
    rw [hpos.pos hb, placeExpr?_eq_of_alike ih.1.1 hkey, placeExpr?_eq_of_alike ih.1.2 hvalue,
      hopPos.pos hb, AssignOp.option_inj hop.assignOp?, ih.2.1 _ hx.node,
        Block.place_eq_of_alike hb ih.2.2 hbody.node]
  case go.go | defer.defer =>
    obtain ⟨hpos, hcall⟩ := ha
    rw [hpos.pos hb, ih.1 _ hcall.node]
  case labeled.labeled =>
    obtain ⟨hlabel, hcolon, hstmt⟩ := ha
    rw [Ident.place_eq_of_seen hb hlabel.node, hcolon.pos hb, ih.1 _ hstmt.node]
  case send.send =>
    obtain ⟨hchan, harrow, hvalue⟩ := ha
    rw [ih.1 _ hchan.node, harrow.pos hb, ih.2.1 _ hvalue.node]
  case switch.switch =>
    obtain ⟨hpos, hinit, htag, hbody⟩ := ha
    rw [hpos.pos hb, placeStmt?_eq_of_alike ih.1.1 hinit, placeExpr?_eq_of_alike ih.1.2 htag,
      Block.place_eq_of_alike hb ih.2 hbody.node]
  case typeSwitch.typeSwitch =>
    obtain ⟨hpos, hinit, hguard, hbody⟩ := ha
    rw [hpos.pos hb, placeStmt?_eq_of_alike ih.1 hinit, ih.2.1 _ hguard.node,
      Block.place_eq_of_alike hb ih.2.2 hbody.node]
  case select.select =>
    obtain ⟨hpos, hbody⟩ := ha
    rw [hpos.pos hb, Block.place_eq_of_alike hb ih hbody.node]
  case caseClause.caseClause =>
    obtain ⟨hpos, hlist, hcolon, hbody⟩ := ha
    rw [hpos.pos hb, placeExprs_eq_of_alike ih.1 hlist, hcolon.pos hb,
      placeStmts_eq_of_alike ih.2 hbody]
  case commClause.commClause =>
    obtain ⟨hpos, hcomm, hcolon, hbody⟩ := ha
    rw [hpos.pos hb, placeStmt?_eq_of_alike ih.1 hcomm, hcolon.pos hb,
      placeStmts_eq_of_alike ih.2 hbody]

theorem Phrase.shown (n : Phrase) : n.Shown m f := by
  induction n using Phrase.induction with
  | step n ih =>
    cases n with
    | expr e => exact Expr.place_eq_of_alike hb ih
    | stmt s => exact Stmt.place_eq_of_alike hb ih

theorem FieldList.determined (x : FieldList) : Determined m f FieldList.outline FieldList.place x :=
  fun _ => FieldList.place_eq_of_alike hb fun c _ => c.shown hb

theorem Block.determined (x : Block) : Determined m f Block.outline Block.place x :=
  fun _ => Block.place_eq_of_alike hb fun c _ => c.shown hb

theorem GenDecl.determined (x : GenDecl) : Determined m f GenDecl.outline GenDecl.place x :=
  fun _ => GenDecl.place_eq_of_alike hb fun c _ => c.shown hb

end Step

section Files

variable (hb : m.Built)

include hb

theorem FuncDecl.determined (x : FuncDecl) : Determined m f FuncDecl.outline FuncDecl.place x := by
  intro x' h
  obtain ⟨hfuncPos, hrecv, hname, hparams, hresults, hbody, -⟩ :=
    Outline.fieldsAlike h x.outline_plain x'.outline_plain rfl (by simp)
  simp only [FuncDecl.place, placeFieldList?_eq_map, hfuncPos.pos hb,
    option_map_eq_of_alike (fun l _ => l.determined hb) hrecv, Ident.place_eq_of_seen hb hname.node,
    x.params.determined hb _ hparams.node, option_map_eq_of_alike (fun l _ => l.determined hb)
      hresults, option_map_eq_of_alike (fun b _ => b.determined hb) hbody]

theorem Decl.determined (x : Decl) : Determined m f Decl.outline Decl.place x := by
  intro x' h
  have hkind : ∀ (a : FuncDecl) (b : GenDecl), a.outline.seen m f ≠ b.outline.seen m f := by
    rintro a ⟨_, _, _, _, _⟩ h
    have hk := congrArg Outline.kind h
    rw [Outline.kind_seen, Outline.kind_seen, GenDecl.outline] at hk
    simp [FuncDecl.outline, Outline.kind] at hk
  cases x <;> cases x'
  case func.func => exact congrArg Decl.func (FuncDecl.determined hb _ _ h)
  case func.gen a b => exact absurd h (hkind a b)
  case gen.func a b => exact absurd h.symm (hkind b a)
  case gen.gen => exact congrArg Decl.gen (GenDecl.determined hb _ _ h)

theorem ImportSpec.determined (x : ImportSpec) :
    Determined m f ImportSpec.outline ImportSpec.place x := by
  intro x' h
  obtain ⟨hname, hpath, -⟩ := Outline.fieldsAlike h x.outline_plain x'.outline_plain rfl (by simp)
  simp only [ImportSpec.place, Ident.placeOption_eq_of_alike hb hname,
    (Phrase.expr x.path).shown hb _ hpath.node]

theorem File.determined (x : File) : Determined m f File.outline File.place x := by
  intro x' h
  obtain ⟨hpackagePos, hname, himports, hdecls, -⟩ :=
    Outline.fieldsAlike h x.outline_plain x'.outline_plain rfl (by simp)
  simp only [File.place, hpackagePos.pos hb, Ident.place_eq_of_seen hb hname.node,
    map_eq_of_alike (fun spec _ => spec.determined hb) himports,
      map_eq_of_alike (fun d _ => d.determined hb) hdecls]

end Files

/-- Equal texts come from equal trees, and without positions from trees that are equal up to
positions. -/
def Unambiguous {α : Type} (m : SourceMap) (outline : α → Outline) (place : (Pos → Pos) → α → α) :
    Prop :=
  ∀ a b : α,
    ((outline a).render m .all = (outline b).render m .all → a = b) ∧
    ((outline a).render m .notEmpty = (outline b).render m .notEmpty → a = b) ∧
    ((outline a).render m .compact = (outline b).render m .compact →
      place (fun _ => none) a = place (fun _ => none) b)

theorem Unambiguous.intro {m : SourceMap} {outline : α → Outline} {place : (Pos → Pos) → α → α}
    (hm : '\n' ∉ m.name.toList) (hplain : ∀ a, (outline a).IsPlain) (hid : ∀ a, place id a = a)
    (hseen : ∀ f a, Determined m f outline place a) :
    Unambiguous m outline place := by
  have hrender : ∀ f a b, (outline a).render m f = (outline b).render m f →
      place (Filter.erase f) a = place (Filter.erase f) b :=
    fun f a b h => hseen f a b (Outline.spell_eq_of_render_eq hm (hplain a) (hplain b) h)
  have hkept : ∀ f : Filter, f ≠ .compact → ∀ a b, (outline a).render m f = (outline b).render m f →
      a = b := by
    intro f hf a b h
    have herase : f.erase = id := funext fun p => if_neg hf
    simpa only [herase, hid] using hrender f a b h
  exact fun a b => ⟨hkept .all nofun a b, hkept .notEmpty nofun a b, hrender .compact a b⟩

/-- The outline of every node shows the node unambiguously, positions and objects included. -/
theorem outlines_unambiguous {m : SourceMap} (hb : m.Built) (hm : '\n' ∉ m.name.toList) :
    Unambiguous m File.outline File.place ∧ Unambiguous m ImportSpec.outline ImportSpec.place ∧
    Unambiguous m Decl.outline Decl.place ∧ Unambiguous m FuncDecl.outline FuncDecl.place ∧
    Unambiguous m GenDecl.outline GenDecl.place ∧ Unambiguous m Spec.outline Spec.place ∧
    Unambiguous m Stmt.outline Stmt.place ∧ Unambiguous m Block.outline Block.place ∧
    Unambiguous m Expr.outline Expr.place ∧ Unambiguous m FuncType.outline FuncType.place ∧
    Unambiguous m FieldList.outline FieldList.place ∧ Unambiguous m Field.outline Field.place ∧
    Unambiguous m Ident.outline Ident.place ∧ Unambiguous m Literal.outline Literal.place ∧
    Unambiguous m Object.outline fun _ o => o :=
  ⟨.intro hm File.outline_plain File.place_id fun _ => File.determined hb,
    .intro hm ImportSpec.outline_plain ImportSpec.place_id fun _ => ImportSpec.determined hb,
    .intro hm Decl.outline_plain Decl.place_id fun _ => Decl.determined hb,
    .intro hm FuncDecl.outline_plain FuncDecl.place_id fun _ => FuncDecl.determined hb,
    .intro hm GenDecl.outline_plain GenDecl.place_id fun _ => GenDecl.determined hb,
    .intro hm Spec.outline_plain Spec.place_id fun _ _ => Spec.determined hb fun c _ => c.shown hb,
    .intro hm Stmt.outline_plain Stmt.place_id fun _ s => (Phrase.stmt s).shown hb,
    .intro hm Block.outline_plain Block.place_id fun _ => Block.determined hb,
    .intro hm Expr.outline_plain Expr.place_id fun _ e => (Phrase.expr e).shown hb,
    .intro hm FuncType.outline_plain FuncType.place_id fun _ _ _ =>
    FuncType.place_eq_of_alike hb fun c _ => c.shown hb,
    .intro hm FieldList.outline_plain FieldList.place_id fun _ => FieldList.determined hb,
    .intro hm Field.outline_plain Field.place_id fun _ _ => Field.determined hb (Phrase.shown hb _),
    .intro hm Ident.outline_plain (fun _ => rfl) fun _ _ _ => Ident.place_eq_of_seen hb,
    .intro hm Literal.outline_plain (fun _ => rfl) fun _ => Literal.determined hb,
      .intro hm Object.outline_plain (fun _ => rfl) fun _ => Object.determined⟩

/-- Two uses of one name differ in the full outline and agree in the compact one. -/
theorem twoUses_unambiguous :
    let m := SourceMap.ofText "a.go" "x + x"
    let a := Expr.ident ⟨some 0, "x", none⟩
    let b := Expr.ident ⟨some 4, "x", none⟩
    '\n' ∉ m.name.toList ∧ a.outline.render m .all ≠ b.outline.render m .all ∧
      a.outline.render m .compact = b.outline.render m .compact ∧
        a.place (fun _ => none) = b.place fun _ => none := by
  intro m a b
  have hm : '\n' ∉ m.name.toList := by decide
  have hexpr : Unambiguous m Expr.outline Expr.place :=
    (outlines_unambiguous (.ofText "a.go" "x + x") hm).2.2.2.2.2.2.2.2.1
  have hcompact : a.outline.render m .compact = b.outline.render m .compact := by decide +kernel
  refine ⟨hm, fun h => ?_, hcompact, (hexpr a b).2.2 hcompact⟩
  have hpos := congrArg Expr.start ((hexpr a b).1 h)
  exact absurd hpos (by decide)

end GoFun
