import GoFun.Proofs.Scope.Follow

/-!
# Resolving twice

A use that finds no declaration keeps the object that it has, so a second resolution begins with
other objects than the first one. The scopes do not depend on objects, however: at every place both
runs meet the same scopes, and write the same there.
-/
namespace GoFun

namespace Scoping

variable {α : Type}

attribute [local simp] bind_apply map_apply pure_apply

theorem use_use (id : Ident) (s : Scopes) : use (use id s).1 s = use id s := by
  refine Prod.ext ?_ (by simp)
  rw [use_eq, use_eq]
  split
  · simp_all
  · cases h : s.find? id.name <;> simp_all

theorem declare_declare (kind : ObjKind) (id : Ident) (s : Scopes) :
    declare kind (declare kind id s).1 s = declare kind id s := by
  unfold declare
  by_cases h : id.isBlank
  · simp [h]
  · have h' : ∀ o, Ident.isBlank { id with obj := o } = false := fun _ => eq_false_of_ne_true h
    simp [h, h']

theorem mapM_mapM {f : α → Scoping α} (hf : ∀ a s, f (f a s).1 s = f a s) (as : List α)
    (s : Scopes) :
    (as.mapM f s).1.mapM f s = as.mapM f s := by
  induction as generalizing s with
  | nil => rfl
  | cons a as ih => simp [List.mapM_cons, hf, ih]

end Scoping

open Scoping

attribute [local simp] bind_apply map_apply pure_apply nested_apply use_use declare_declare

theorem declareAll_declareAll (kind : ObjKind) (names : List Ident) (s : Scopes) :
    (names.mapM (declare kind) s).1.mapM (declare kind) s = names.mapM (declare kind) s :=
  mapM_mapM (declare_declare kind) names s

theorem resolveElem_resolveElem {e : Expr} (h : ∀ s, (e.resolve s).1.resolve s = e.resolve s)
    (s : Scopes) :
    resolveElem (resolveElem e s).1 s = resolveElem e s := by
  cases e with
  | keyValue key colon value =>
    cases key with
    | ident key =>
      have hs := h s
      simp only [Expr.resolve, bind_apply, pure_apply, use_scopes] at hs
      obtain ⟨he, hs⟩ := Prod.mk.inj hs
      have hv : (value.resolve s).1.resolve s = value.resolve s :=
        Prod.ext (Expr.keyValue.inj he).2.2 hs
      simp [resolveElem, hv]
    | funcLit t body =>
      cases body
      exact h s
    | _ => exact h s
  | funcLit t body =>
    cases body
    exact h s
  | _ => exact h s

theorem resolveTarget_resolveTarget {e : Expr} (defines : Bool)
    (h : ∀ s, (e.resolve s).1.resolve s = e.resolve s)
    (s : Scopes) :
    resolveTarget defines (resolveTarget defines e s).1 s = resolveTarget defines e s := by
  cases e with
  | ident id => cases defines <;> simp [resolveTarget]
  | funcLit t body =>
    cases body
    exact h s
  | _ => exact h s

attribute [local simp] Expr.resolve resolveExprs resolveExpr? resolveElems.eq_1 resolveElems_cons
  resolveTargets.eq_1
  resolveTargets_cons resolveTarget?.eq_1 resolveTarget?_some resolveFields FieldList.resolve
  resolveFieldList?
  FuncType.resolve Block.resolve resolveSpecs Stmt.resolve resolveStmts resolveStmt?
  declareAll_declareAll

-- Each case runs the parts again in the scopes in which they were resolved, so the facts about the
-- parts rewrite it.
mutual

theorem Expr.resolve_resolve (e : Expr) (s : Scopes) : (e.resolve s).1.resolve s = e.resolve s := by
  cases e with
  | ident | lit => simp
  | paren _ x _ | selector x _ | star _ x | unary _ _ x | chan _ _ x => simp [x.resolve_resolve]
  | index x _ y _ | binary x _ _ y | map _ x y | keyValue x _ y =>
    simp [x.resolve_resolve, y.resolve_resolve]
  | call f _ args _ _ => simp [f.resolve_resolve, resolveExprs_resolve args]
  | array _ len elem => simp [resolveExpr?_resolve len, elem.resolve_resolve]
  | struct _ fields | interface _ fields => simp [fields.resolve_resolve]
  | composite t _ elems _ => simp [resolveExpr?_resolve t, resolveElems_resolve elems]
  | funcLit t body =>
    obtain ⟨_, list, _⟩ := body
    simp [t.resolve_resolve, resolveStmts_resolve list]
  | slice x _ low high max _ =>
    simp [x.resolve_resolve, resolveExpr?_resolve low, resolveExpr?_resolve high,
      resolveExpr?_resolve max]
  | assertion x _ t _ => simp [x.resolve_resolve, resolveExpr?_resolve t]
  | ellipsis _ elem => simp [resolveExpr?_resolve elem]
  | func t => simp [t.resolve_resolve]

theorem resolveExprs_resolve : ∀ es s, resolveExprs (resolveExprs es s).1 s = resolveExprs es s
  | [], _ => rfl
  | e :: es, _ => by simp [e.resolve_resolve, resolveExprs_resolve es]

theorem resolveExpr?_resolve : ∀ e s, resolveExpr? (resolveExpr? e s).1 s = resolveExpr? e s
  | none, _ => rfl
  | some e, _ => by simp [e.resolve_resolve]

theorem resolveElems_resolve : ∀ es s, resolveElems (resolveElems es s).1 s = resolveElems es s
  | [], _ => rfl
  | e :: es, _ => by simp [resolveElem_resolveElem e.resolve_resolve, resolveElems_resolve es]

theorem resolveTargets_resolve (defines : Bool) :
    ∀ es s, resolveTargets defines (resolveTargets defines es s).1 s = resolveTargets defines es s
  | [], _ => rfl
  | e :: es, _ => by simp [resolveTarget_resolveTarget defines e.resolve_resolve,
      resolveTargets_resolve defines es]

theorem resolveTarget?_resolve (defines : Bool) :
    ∀ e s, resolveTarget? defines (resolveTarget? defines e s).1 s = resolveTarget? defines e s
  | none, _ => rfl
  | some e, _ => by simp [resolveTarget_resolveTarget defines e.resolve_resolve]

theorem FieldList.resolve_resolve (kind : ObjKind) :
    ∀ (fields : FieldList) s, (fields.resolve kind s).1.resolve kind s = fields.resolve kind s
  | ⟨_, list, _⟩, _ => by simp [resolveFields_resolve kind list]

theorem resolveFields_resolve (kind : ObjKind) :
    ∀ fields s, resolveFields kind (resolveFields kind fields s).1 s = resolveFields kind fields s
  | [], _ => rfl
  | ⟨_, t, _⟩ :: fields, _ => by simp [t.resolve_resolve, resolveFields_resolve kind fields]

theorem resolveFieldList?_resolve :
    ∀ fields s, resolveFieldList? (resolveFieldList? fields s).1 s = resolveFieldList? fields s
  | none, _ => rfl
  | some ⟨_, list, _⟩, _ => by simp [resolveFields_resolve .var list]

theorem FuncType.resolve_resolve : ∀ (t : FuncType) s, (t.resolve s).1.resolve s = t.resolve s
  | ⟨_, params, results⟩, _ => by simp [params.resolve_resolve .var,
      resolveFieldList?_resolve results]

theorem Block.resolve_resolve : ∀ (b : Block) s, (b.resolve s).1.resolve s = b.resolve s
  | ⟨_, list, _⟩, _ => by simp [resolveStmts_resolve list]

theorem resolveSpecs_resolve (kind : ObjKind) :
    ∀ specs s, resolveSpecs kind (resolveSpecs kind specs s).1 s = resolveSpecs kind specs s
  | [], _ => rfl
  | .value _ t values :: specs, _ => by
    simp [resolveExpr?_resolve t, resolveExprs_resolve values, resolveSpecs_resolve kind specs]
  | .type _ _ t :: specs, _ => by simp [t.resolve_resolve, resolveSpecs_resolve kind specs]

theorem Stmt.resolve_resolve (st : Stmt) (s : Scopes) :
    (st.resolve s).1.resolve s = st.resolve s := by
  cases st with
  | decl d =>
    obtain ⟨_, word, _, specs, _⟩ := d
    simp [resolveSpecs_resolve word.objKind specs]
  | expr x | incDec x _ _ | go _ x | defer _ x => simp [x.resolve_resolve]
  | assign lhs _ op rhs => simp [resolveExprs_resolve rhs,
    resolveTargets_resolve (op == .define) lhs]
  | ret _ results => simp [resolveExprs_resolve results]
  | jump => simp
  | block b => simp [b.resolve_resolve]
  | ifElse _ init cond body other =>
    simp [resolveStmt?_resolve init, cond.resolve_resolve, body.resolve_resolve,
      resolveStmt?_resolve other]
  | forLoop _ init cond post body =>
    simp [resolveStmt?_resolve init, resolveExpr?_resolve cond, resolveStmt?_resolve post,
      body.resolve_resolve]
  | range _ key value _ op x body =>
    simp [resolveTarget?_resolve (op == some .define) key,
      resolveTarget?_resolve (op == some .define) value, x.resolve_resolve, body.resolve_resolve]
  | labeled _ _ st => simp [st.resolve_resolve]
  | send x _ y => simp [x.resolve_resolve, y.resolve_resolve]
  | switch _ init tag body =>
    obtain ⟨_, list, _⟩ := body
    simp [resolveStmt?_resolve init, resolveExpr?_resolve tag, resolveStmts_resolve list]
  | typeSwitch _ init guard body =>
    obtain ⟨_, list, _⟩ := body
    simp [resolveStmt?_resolve init, guard.resolve_resolve, resolveStmts_resolve list]
  | select _ body =>
    obtain ⟨_, list, _⟩ := body
    simp [resolveStmts_resolve list]
  | caseClause _ list _ body => simp [resolveExprs_resolve list, resolveStmts_resolve body]
  | commClause _ comm _ body => simp [resolveStmt?_resolve comm, resolveStmts_resolve body]

theorem resolveStmts_resolve : ∀ ss s, resolveStmts (resolveStmts ss s).1 s = resolveStmts ss s
  | [], _ => rfl
  | st :: ss, _ => by simp [st.resolve_resolve, resolveStmts_resolve ss]

theorem resolveStmt?_resolve : ∀ st s, resolveStmt? (resolveStmt? st s).1 s = resolveStmt? st s
  | none, _ => rfl
  | some st, _ => by simp [st.resolve_resolve]

end

theorem Spec.resolveDefinition_resolveDefinition (spec : Spec) (s : Scopes) :
    (spec.resolveDefinition s).1.resolveDefinition s = spec.resolveDefinition s := by
  cases spec <;>
    simp [Spec.resolveDefinition, resolveExpr?_resolve, resolveExprs_resolve, Expr.resolve_resolve]

theorem FuncDecl.resolve_resolve (f : FuncDecl) (s : Scopes) :
    (f.resolve s).1.resolve s = f.resolve s := by
  obtain ⟨funcPos, recv, name, params, results, body⟩ := f
  cases body <;>
    simp [FuncDecl.resolve, resolveFieldList?_resolve, FieldList.resolve_resolve,
      resolveStmts_resolve]

theorem Decl.resolve_resolve (d : Decl) (s : Scopes) : (d.resolve s).1.resolve s = d.resolve s := by
  cases d <;> simp [Decl.resolve, FuncDecl.resolve_resolve,
    mapM_mapM Spec.resolveDefinition_resolveDefinition]

/-- One pass, then another one that leaves the first pass nothing to do. -/
theorem Scoping.mapM_mapM_mapM {α : Type} {f g : α → Scoping α}
    (h : ∀ a s t, f (g (f a s).1 t).1 s = ((g (f a s).1 t).1, (f a s).2)) (as : List α)
    (s t : Scopes) :
    ((as.mapM f s).1.mapM g t).1.mapM f s = (((as.mapM f s).1.mapM g t).1, (as.mapM f s).2) := by
  induction as generalizing s t with
  | nil => rfl
  | cons a as ih => simp [List.mapM_cons, h, ih]

theorem Spec.declareNames_resolveDefinition (kind : ObjKind) (spec : Spec) (s t : Scopes) :
    ((spec.declareNames kind s).1.resolveDefinition t).1.declareNames kind s =
      (((spec.declareNames kind s).1.resolveDefinition t).1, (spec.declareNames kind s).2) := by
  cases spec <;> simp [Spec.declareNames, Spec.resolveDefinition, declareAll_declareAll]

theorem Decl.declareNames_resolve (d : Decl) (s t : Scopes) :
    ((d.declareNames s).1.resolve t).1.declareNames s =
      (((d.declareNames s).1.resolve t).1, (d.declareNames s).2) := by
  cases d with
  | func f =>
    obtain ⟨funcPos, recv, name, params, results, body⟩ := f
    cases recv <;> simp [Decl.declareNames, Decl.resolve, FuncDecl.resolve, resolveFieldList?]
  | gen g => simp [Decl.declareNames, Decl.resolve,
    mapM_mapM_mapM (Spec.declareNames_resolveDefinition g.word.objKind)]

/-- Resolving a resolved file changes nothing, whatever objects it had before. -/
theorem File.resolve_idem (file : File) : file.resolve.resolve = file.resolve := by
  have hdecls : resolveDecls (resolveDecls file.decls []).1 [] = resolveDecls file.decls [] := by
    simp [resolveDecls, mapM_mapM_mapM Decl.declareNames_resolve, mapM_mapM Decl.resolve_resolve]
  exact congrArg (fun r => { file with decls := r.1 }) hdecls

end GoFun
