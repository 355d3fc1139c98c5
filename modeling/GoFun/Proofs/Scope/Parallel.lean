import Mathlib.Data.List.Forall2
import GoFun.Proofs.Scope.Move
import GoFun.Proofs.Tree.Place

/-!
# Resolution in parallel

Resolution asks the open scopes for the meaning of names, and it does not look at positions. So two
runs in scopes that agree on the meaning of every name do the same to one tree that stands at two
places.
-/
namespace GoFun

/-- Every name means the same in both frames. -/
def Frame.Agree (a b : Frame) : Prop := ∀ name, a.lookup name = b.lookup name

/-- Scope by scope, every name means the same. -/
abbrev Scopes.Agree (s s' : Scopes) : Prop := List.Forall₂ Frame.Agree s s'

theorem Frame.Agree.cons {a b : Frame} (h : Frame.Agree a b) (name : String) (kind : ObjKind) :
    Frame.Agree ((name, kind) :: a) ((name, kind) :: b) := by
  intro n
  simp [List.lookup_cons, h n]

namespace Scopes.Agree

theorem find? {s s' : Scopes} (h : Scopes.Agree s s') (name : String) :
    s.find? name = s'.find? name := by
  induction h with
  | nil => rfl
  | cons hab _ ih =>
    simp only [Scopes.find?, List.findSome?_cons, hab name] at ih ⊢
    rw [ih]

theorem declare {s s' : Scopes} (h : Scopes.Agree s s') (name : String) (kind : ObjKind) :
    Scopes.Agree (s.declare name kind) (s'.declare name kind) := by
  cases h with
  | nil => exact .nil
  | cons hab hs => exact .cons (hab.cons _ _) hs

theorem tail {s s' : Scopes} (h : Scopes.Agree s s') : Scopes.Agree s.tail s'.tail := by
  cases h with
  | nil => exact .nil
  | cons _ hs => exact hs

end Scopes.Agree

/-- Run in scopes that agree, the second computation gives what `h` makes of the value of the first,
and both leave scopes that agree. -/
def Carries {α β : Type} (h : α → β) (act : Scoping α) (act' : Scoping β) : Prop :=
  ∀ s s', Scopes.Agree s s' → (act' s').1 = h (act s).1 ∧ Scopes.Agree (act s).2 (act' s').2

namespace Carries

variable {α β γ δ : Type} {h : α → β} {k : γ → δ} {act : Scoping α} {act' : Scoping β}

theorem pure {a : α} {b : β} (he : h a = b) : Carries h (Pure.pure a) (Pure.pure b) :=
  fun _ _ hs => ⟨he.symm, hs⟩

theorem bind {next : α → Scoping γ} {next' : β → Scoping δ} (ha : Carries h act act')
    (hn : ∀ a, Carries k (next a) (next' (h a))) : Carries k (act >>= next) (act' >>= next') := by
  intro s s' hs
  obtain ⟨hv, ht⟩ := ha s s' hs
  have hr := hn (act s).1 _ _ ht
  rw [← hv] at hr
  exact hr

theorem last {g : α → γ} {g' : β → δ} (ha : Carries h act act')
    (he : ∀ a, k (g a) = g' (h a) := by intro; rfl) :
    Carries k (do return g (← act)) (do return g' (← act')) :=
  .bind ha fun a => .pure (he a)

theorem nested (ha : Carries h act act') :
    Carries h (Scoping.nested act) (Scoping.nested act') := by
  intro s s' hs
  obtain ⟨hv, ht⟩ := ha ([] :: s) ([] :: s') (.cons (fun _ => rfl) hs)
  exact ⟨hv, ht.tail⟩

theorem mapM {f : α → Scoping γ} {f' : β → Scoping δ} (as : List α)
    (hf : ∀ a, Carries k (f a) (f' (h a))) :
    Carries (List.map k) (as.mapM f) ((as.map h).mapM f') := by
  induction as with
  | nil => exact .pure rfl
  | cons a as ih =>
    rw [List.map_cons, List.mapM_cons, List.mapM_cons]
    exact .bind (hf a) fun _ => .last ih

theorem use (f : Pos → Pos) (id : Ident) :
    Carries (Ident.place f) (Scoping.use id) (Scoping.use (id.place f)) := by
  intro s s' hs
  refine ⟨?_, by rwa [Scoping.use_scopes, Scoping.use_scopes]⟩
  rw [Scoping.use_eq, Scoping.use_eq]
  simp only [Ident.place, hs.find? id.name]
  by_cases hb : id.name = "_" <;> simp [hb]

theorem declare (f : Pos → Pos) (kind : ObjKind) (id : Ident) :
    Carries (Ident.place f) (Scoping.declare kind id) (Scoping.declare kind (id.place f)) := by
  intro s s' hs
  unfold Scoping.declare
  by_cases hb : id.isBlank
  · have hb' : (id.place f).isBlank := hb
    rw [if_pos hb, if_pos hb']
    exact ⟨rfl, hs⟩
  · have hb' : ¬ (id.place f).isBlank := hb
    rw [if_neg hb, if_neg hb']
    exact ⟨rfl, hs.declare id.name kind⟩

theorem declareNames (f : Pos → Pos) (kind : ObjKind) (names : List Ident) :
    Carries (List.map (Ident.place f)) (names.mapM (Scoping.declare kind))
      ((names.map (Ident.place f)).mapM (Scoping.declare kind)) :=
  .mapM names (Carries.declare f kind)

end Carries

theorem resolveElem_place {f : Pos → Pos} {e : Expr}
    (h : Carries (Expr.place f) e.resolve (e.place f).resolve) :
    Carries (Expr.place f) (resolveElem e) (resolveElem (e.place f)) := by
  cases e with
  | keyValue key colon value =>
    cases key with
    | ident key =>
      refine .bind (h := Expr.place f) (fun s s' hs => ?_) fun _ => .pure rfl
      -- a lookup of the key in front of the value would change no scope
      obtain ⟨hv, ht⟩ := h s s' hs
      change Expr.keyValue _ _ ((value.place f).resolve (Scoping.use (key.place f) s').2).1 =
        Expr.place f (.keyValue _ _ (value.resolve (Scoping.use key s).2).1) at hv
      change Scopes.Agree (value.resolve (Scoping.use key s).2).2
        ((value.place f).resolve (Scoping.use (key.place f) s').2).2 at ht
      simp only [Scoping.use_scopes, Expr.place, Expr.keyValue.injEq] at hv ht
      exact ⟨hv.2.2, ht⟩
    | _ => exact h
  | _ => exact h

theorem resolveTarget_place {f : Pos → Pos} {e : Expr} (defines : Bool)
    (h : Carries (Expr.place f) e.resolve (e.place f).resolve) :
    Carries (Expr.place f) (resolveTarget defines e) (resolveTarget defines (e.place f)) := by
  cases e with
  | ident id =>
    cases defines with
    | false => exact .last (.use f id)
    | true => exact .last (.declare f .var id)
  | _ => exact h

variable (f : Pos → Pos)

mutual

theorem Expr.resolve_place : ∀ e : Expr, Carries (Expr.place f) e.resolve (e.place f).resolve
  | .ident id => .last (.use f id)
  | .lit _ => .pure rfl
  | .paren _ x _ | .selector x _ | .star _ x | .unary _ _ x | .chan _ _ x =>
    .last x.resolve_place
  | .index x _ y _ | .binary x _ _ y | .map _ x y | .keyValue x _ y =>
    .bind x.resolve_place fun _ => .last y.resolve_place
  | .call c _ args _ _ => .bind c.resolve_place fun _ => .last (resolveExprs_place args)
  | .array _ len elem => .bind (resolveExpr?_place len) fun _ => .last elem.resolve_place
  | .struct _ fields => .last (.nested (fields.resolve_place .var))
  | .composite t _ elems _ =>
    .bind (resolveExpr?_place t) fun _ => .last (resolveElems_place elems)
  | .funcLit t ⟨_, list, _⟩ =>
    .nested (.bind t.resolve_place fun _ => .last (resolveStmts_place list))
  | .slice x _ low high max _ =>
    .bind x.resolve_place fun _ => .bind (resolveExpr?_place low) fun _ =>
      .bind (resolveExpr?_place high) fun _ => .last (resolveExpr?_place max)
  | .assertion x _ t _ => .bind x.resolve_place fun _ => .last (resolveExpr?_place t)
  | .ellipsis _ elem => .last (resolveExpr?_place elem)
  | .func t => .last (.nested t.resolve_place)
  | .interface _ methods => .last (.nested (methods.resolve_place .func))

theorem resolveExprs_place : ∀ es : List Expr,
    Carries (placeExprs f) (resolveExprs es) (resolveExprs (placeExprs f es))
  | [] => .pure rfl
  | e :: es => .bind e.resolve_place fun _ => .last (resolveExprs_place es)

theorem resolveExpr?_place : ∀ e : Option Expr,
    Carries (placeExpr? f) (resolveExpr? e) (resolveExpr? (placeExpr? f e))
  | none => .pure rfl
  | some e => .last e.resolve_place

theorem resolveElems_place : ∀ es : List Expr,
    Carries (placeExprs f) (resolveElems es) (resolveElems (placeExprs f es))
  | [] => .pure rfl
  | e :: es => by
    rw [placeExprs, resolveElems_cons, resolveElems_cons]
    exact .bind (resolveElem_place e.resolve_place) fun _ => .last (resolveElems_place es)

theorem resolveTargets_place (defines : Bool) : ∀ es : List Expr,
    Carries (placeExprs f) (resolveTargets defines es) (resolveTargets defines (placeExprs f es))
  | [] => .pure rfl
  | e :: es => by
    rw [placeExprs, resolveTargets_cons, resolveTargets_cons]
    exact .bind (resolveTarget_place defines e.resolve_place) fun _ =>
      .last (resolveTargets_place defines es)

theorem resolveTarget?_place (defines : Bool) : ∀ e : Option Expr,
    Carries (placeExpr? f) (resolveTarget? defines e) (resolveTarget? defines (placeExpr? f e))
  | none => .pure rfl
  | some e => by
    rw [placeExpr?, resolveTarget?_some, resolveTarget?_some]
    exact .last (resolveTarget_place defines e.resolve_place)

theorem FieldList.resolve_place (kind : ObjKind) : ∀ fields : FieldList,
    Carries (FieldList.place f) (fields.resolve kind) ((fields.place f).resolve kind)
  | ⟨_, list, _⟩ => .last (resolveFields_place kind list)

theorem resolveFields_place (kind : ObjKind) : ∀ fields : List Field,
    Carries (placeFields f) (resolveFields kind fields) (resolveFields kind (placeFields f fields))
  | [] => .pure rfl
  | ⟨names, t, _⟩ :: fields =>
    .bind t.resolve_place fun _ => .bind (.declareNames f kind names) fun _ =>
      .last (resolveFields_place kind fields)

theorem resolveFieldList?_place : ∀ fields : Option FieldList,
    Carries (placeFieldList? f) (resolveFieldList? fields)
      (resolveFieldList? (placeFieldList? f fields))
  | none => .pure rfl
  | some fields => .last (fields.resolve_place .var)

theorem FuncType.resolve_place :
    ∀ t : FuncType, Carries (FuncType.place f) t.resolve (t.place f).resolve
  | ⟨_, params, results⟩ =>
    .bind (params.resolve_place .var) fun _ => .last (resolveFieldList?_place results)

theorem Block.resolve_place : ∀ b : Block, Carries (Block.place f) b.resolve (b.place f).resolve
  | ⟨_, list, _⟩ => .last (.nested (resolveStmts_place list))

theorem resolveSpecs_place (kind : ObjKind) : ∀ specs : List Spec,
    Carries (placeSpecs f) (resolveSpecs kind specs) (resolveSpecs kind (placeSpecs f specs))
  | [] => .pure rfl
  | .value names t values :: specs =>
    .bind (resolveExpr?_place t) fun _ => .bind (resolveExprs_place values) fun _ =>
      .bind (.declareNames f kind names) fun _ => .last (resolveSpecs_place kind specs)
  | .type name _ t :: specs =>
    .bind (.declare f kind name) fun _ => .bind t.resolve_place fun _ =>
      .last (resolveSpecs_place kind specs)

theorem Stmt.resolve_place : ∀ s : Stmt, Carries (Stmt.place f) s.resolve (s.place f).resolve
  | .decl ⟨_, word, _, specs, _⟩ => .last (resolveSpecs_place word.objKind specs)
  | .expr x | .incDec x _ _ | .go _ x | .defer _ x => .last x.resolve_place
  | .assign lhs _ op rhs =>
    .bind (resolveExprs_place rhs) fun _ => .last (resolveTargets_place (op == .define) lhs)
  | .ret _ results => .last (resolveExprs_place results)
  | .jump _ _ _ => .pure rfl
  | .block b => .last b.resolve_place
  | .ifElse _ init cond body other =>
    .nested (.bind (resolveStmt?_place init) fun _ => .bind cond.resolve_place fun _ =>
      .bind body.resolve_place fun _ => .last (resolveStmt?_place other))
  | .forLoop _ init cond post body =>
    .nested (.bind (resolveStmt?_place init) fun _ => .bind (resolveExpr?_place cond) fun _ =>
      .bind (resolveStmt?_place post) fun _ => .last body.resolve_place)
  | .range _ key value _ op x body =>
    .bind x.resolve_place fun _ => .nested
      (.bind (resolveTarget?_place (op == some .define) key) fun _ =>
      .bind (resolveTarget?_place (op == some .define) value) fun _ => .last body.resolve_place)
  | .labeled _ _ stmt => .last stmt.resolve_place
  | .send chan _ value => .bind chan.resolve_place fun _ => .last value.resolve_place
  | .switch _ init tag ⟨_, list, _⟩ =>
    .nested (.bind (resolveStmt?_place init) fun _ => .bind (resolveExpr?_place tag) fun _ =>
      .last (resolveStmts_place list))
  | .typeSwitch _ init guard ⟨_, list, _⟩ =>
    .nested (.bind (resolveStmt?_place init) fun _ => .bind guard.resolve_place fun _ =>
      .last (resolveStmts_place list))
  | .select _ ⟨_, list, _⟩ => .last (resolveStmts_place list)
  | .caseClause _ list _ body =>
    .bind (resolveExprs_place list) fun _ => .last (.nested (resolveStmts_place body))
  | .commClause _ comm _ body =>
    .nested (.bind (resolveStmt?_place comm) fun _ => .last (resolveStmts_place body))

theorem resolveStmts_place : ∀ ss : List Stmt,
    Carries (placeStmts f) (resolveStmts ss) (resolveStmts (placeStmts f ss))
  | [] => .pure rfl
  | s :: ss => .bind s.resolve_place fun _ => .last (resolveStmts_place ss)

theorem resolveStmt?_place : ∀ s : Option Stmt,
    Carries (placeStmt? f) (resolveStmt? s) (resolveStmt? (placeStmt? f s))
  | none => .pure rfl
  | some s => .last s.resolve_place

end

theorem Spec.declareNames_place (kind : ObjKind) (spec : Spec) :
    Carries (Spec.place f) (spec.declareNames kind) ((spec.place f).declareNames kind) := by
  cases spec with
  | value names t values => exact .last (.declareNames f kind names)
  | type name equals t => exact .last (.declare f kind name)

theorem Decl.declareNames_place (d : Decl) :
    Carries (Decl.place f) d.declareNames (d.place f).declareNames := by
  cases d with
  | func d =>
    obtain ⟨funcPos, recv, name, params, results, body⟩ := d
    cases recv with
    | none => exact .last (.declare f .func name)
    | some recv => exact .pure rfl
  | gen g =>
    obtain ⟨wordPos, word, lparen, specs, rparen⟩ := g
    simp only [Decl.place, GenDecl.place, placeSpecs_eq_map, Decl.declareNames]
    refine .bind (.mapM specs fun spec => spec.declareNames_place f word.objKind) fun specs' =>
      .pure ?_
    simp [Decl.place, GenDecl.place, placeSpecs_eq_map]

theorem Spec.resolveDefinition_place (spec : Spec) :
    Carries (Spec.place f) spec.resolveDefinition (spec.place f).resolveDefinition := by
  cases spec with
  | value names t values =>
    exact .bind (resolveExpr?_place f t) fun _ => .last (resolveExprs_place f values)
  | type name equals t => exact .last (t.resolve_place f)

theorem resolveBody_place (body : Option Block) :
    Carries (Option.map (Block.place f))
      (body.mapM fun b => return { b with list := ← resolveStmts b.list })
      ((body.map (Block.place f)).mapM fun b => return { b with list := ← resolveStmts b.list }) := by
  cases body with
  | none => exact .pure rfl
  | some b =>
    obtain ⟨lbrace, list, rbrace⟩ := b
    have hb : Carries (Block.place f) (do return ⟨lbrace, ← resolveStmts list, rbrace⟩)
        (do return ⟨f lbrace, ← resolveStmts (placeStmts f list), f rbrace⟩) :=
      .last (resolveStmts_place f list)
    exact fun s s' hs => ⟨congrArg some (hb s s' hs).1, (hb s s' hs).2⟩

theorem FuncDecl.resolve_place (d : FuncDecl) :
    Carries (FuncDecl.place f) d.resolve (d.place f).resolve := by
  refine .nested (.bind (resolveFieldList?_place f d.recv) fun _ =>
    .bind (FuncType.resolve_place f ⟨d.funcPos, d.params, d.results⟩) fun t =>
      .bind (resolveBody_place f d.body) fun _ => ?_)
  obtain ⟨funcPos, params, results⟩ := t
  exact .pure rfl

theorem Decl.resolve_place (d : Decl) : Carries (Decl.place f) d.resolve (d.place f).resolve := by
  cases d with
  | func d => exact .last (d.resolve_place f)
  | gen g =>
    obtain ⟨wordPos, word, lparen, specs, rparen⟩ := g
    simp only [Decl.place, GenDecl.place, placeSpecs_eq_map, Decl.resolve]
    refine .bind (.mapM specs fun spec => spec.resolveDefinition_place f) fun specs' => .pure ?_
    simp [Decl.place, GenDecl.place, placeSpecs_eq_map]

theorem resolveDecls_place (decls : List Decl) :
    Carries (List.map (Decl.place f)) (resolveDecls decls)
      (resolveDecls (decls.map (Decl.place f))) :=
  .nested (.bind (.mapM decls (Decl.declareNames_place f)) fun decls' =>
    .mapM decls' (Decl.resolve_place f))

theorem File.resolve_place (file : File) : (file.place f).resolve = file.resolve.place f := by
  have h := (resolveDecls_place f file.decls [] [] .nil).1
  exact congrArg (File.mk _ _ _) h

end GoFun
