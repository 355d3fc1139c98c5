import GoFun.Proofs.Source.Operand

/-!
# Names without a meaning in scope

Packages, imports, members, labels, methods and the keys of composite literals are named outside of
all scopes, and the low line names nothing. Resolution leaves all of these as they are, and a parsed
file has no objects before it is resolved.
-/
namespace GoFun

open List

variable {α : Type} {n : Phrase} {e : Expr}
variable (f : Nat → Nat)

def FieldList.names (fields : FieldList) : List Ident := fields.list.flatMap Field.names

def FuncType.names (t : FuncType) : List Ident :=
  t.params.names ++ t.results.toList.flatMap FieldList.names

def GenDecl.names (d : GenDecl) : List Ident := d.specs.flatMap Spec.names

/-- The identifiers of a phrase that stand in no phrase below it. -/
def Phrase.names : Phrase → List Ident
  | .expr (.ident id) => [id]
  | .expr (.selector _ sel) => [sel]
  | .expr (.struct _ fields) | .expr (.interface _ fields) => fields.names
  | .expr (.func t) | .expr (.funcLit t _) => t.names
  | .stmt (.decl d) => d.names
  | .stmt (.labeled label _ _) => [label]
  | .stmt (.jump _ _ label) => label.toList
  | _ => []

def Expr.key? : Expr → Option Ident
  | .keyValue (.ident key) _ _ => some key
  | _ => none

/-- The member, the label or the keys of a phrase. -/
def Phrase.outside : Phrase → List Ident
  | .expr (.selector _ sel) => [sel]
  | .expr (.composite _ _ elems _) => elems.filterMap Expr.key?
  | .stmt (.labeled label _ _) => [label]
  | .stmt (.jump _ _ label) => label.toList
  | _ => []

def BlankFree (ids : List Ident) : Prop := ∀ id ∈ ids, id.name = "_" → id.obj = none

@[simp] theorem blankFree_nil : BlankFree [] := by simp [BlankFree]

@[simp] theorem blankFree_cons (id : Ident) (ids : List Ident) :
    BlankFree (id :: ids) ↔ (id.name = "_" → id.obj = none) ∧ BlankFree ids := by
  simp [BlankFree]

@[simp] theorem blankFree_append (ids ids' : List Ident) :
    BlankFree (ids ++ ids') ↔ BlankFree ids ∧ BlankFree ids' := by
  simp only [BlankFree, forall_mem_append]

theorem blankFree_flatMap (f : α → List Ident) (as : List α) :
    BlankFree (as.flatMap f) ↔ ∀ a ∈ as, BlankFree (f a) := by
  simp only [BlankFree, mem_flatMap]
  exact ⟨fun h a ha id hid => h id ⟨a, ha, hid⟩, fun h id ⟨a, ha, hid⟩ => h a ha id hid⟩

open Scoping

attribute [local simp] bind_apply map_apply pure_apply nested_apply

theorem Scoping.use_blank (id : Ident) (s : Scopes) :
    ((use id s).1.name = "_" → (use id s).1.obj = none) ↔ (id.name = "_" → id.obj = none) := by
  rw [use_eq]
  split <;> simp_all

theorem Scoping.declare_blank (kind : ObjKind) (id : Ident) (s : Scopes) :
    ((declare kind id s).1.name = "_" → (declare kind id s).1.obj = none) ↔
    (id.name = "_" → id.obj = none) := by
  by_cases h : id.isBlank <;> simp_all [declare, Ident.isBlank]

theorem blankFree_declareAll (kind : ObjKind) (names : List Ident) (s : Scopes) :
    BlankFree (names.mapM (declare kind) s).1 ↔ BlankFree names := by
  induction names generalizing s with
  | nil => rfl
  | cons id names ih => simp [mapM_cons, declare_blank, ih]

theorem FieldList.blankFree_resolve (kind : ObjKind) (fields : FieldList) (s : Scopes) :
    BlankFree (fields.resolve kind s).1.names ↔ BlankFree fields.names := by
  obtain ⟨opening, list, closing⟩ := fields
  change BlankFree ((resolveFields kind list s).1.flatMap Field.names) ↔
    BlankFree (list.flatMap Field.names)
  induction list generalizing s with
  | nil => rfl
  | cons f list ih =>
    obtain ⟨names, t, tag⟩ := f
    simp [resolveFields, blankFree_declareAll, ih]

theorem FuncType.blankFree_resolve (t : FuncType) (s : Scopes) :
    BlankFree (t.resolve s).1.names ↔ BlankFree t.names := by
  obtain ⟨funcPos, params, results⟩ := t
  cases results <;> simp [FuncType.resolve, FuncType.names, resolveFieldList?,
    FieldList.blankFree_resolve]

theorem blankFree_resolveSpecs (kind : ObjKind) (specs : List Spec) (s : Scopes) :
    BlankFree ((resolveSpecs kind specs s).1.flatMap Spec.names) ↔
    BlankFree (specs.flatMap Spec.names) := by
  induction specs generalizing s with
  | nil => rfl
  | cons spec specs ih => cases spec
    <;> simp [resolveSpecs, Spec.names, blankFree_declareAll, declare_blank, ih]

theorem key?_resolveElem (e : Expr) (s : Scopes) : (resolveElem e s).1.key? = e.key? := by
  cases e with
  | keyValue key colon value =>
    cases key with
    | funcLit t body =>
      cases body
      rfl
    | _ => rfl
  | funcLit t body =>
    cases body
    rfl
  | _ => rfl

theorem filterMap_key?_resolveElems (es : List Expr) (s : Scopes) :
    (resolveElems es s).1.filterMap Expr.key? = es.filterMap Expr.key? := by
  induction es generalizing s with
  | nil => rfl
  | cons e es ih => simp [resolveElems_cons, filterMap_cons, key?_resolveElem, ih]

def Phrase.Unbound (n : Phrase) : Prop := (∀ id ∈ n.outside, id.obj = none) ∧ BlankFree n.names

/-- The phrase and all below it are unbound. -/
abbrev Phrase.Free (n : Phrase) : Prop := Throughout Phrase.Unbound n

def AllFree (list : List Phrase) : Prop := ∀ n ∈ list, n.Free

@[simp] theorem allFree_nil : AllFree [] := by simp [AllFree]

@[simp] theorem allFree_cons (n : Phrase) (list : List Phrase) :
    AllFree (n :: list) ↔ n.Free ∧ AllFree list := by
  simp only [AllFree, forall_mem_cons]

@[simp] theorem allFree_append (list list' : List Phrase) :
    AllFree (list ++ list') ↔ AllFree list ∧ AllFree list' := by
  simp only [AllFree, forall_mem_append]

theorem allFree_flatMap (f : α → List Phrase) (as : List α) :
    AllFree (as.flatMap f) ↔ ∀ a ∈ as, AllFree (f a) := by
  simp only [AllFree, mem_flatMap]
  exact ⟨fun h a ha n hn => h n ⟨a, ha, hn⟩, fun h n ⟨a, ha, hn⟩ => h a ha n hn⟩

theorem Phrase.free_iff : n.Free ↔ n.Unbound ∧ AllFree n.children :=
  ⟨fun h => ⟨h.here, fun _ => h.child⟩, fun h => .intro h.1 h.2⟩

theorem Phrase.free_congr {k : Phrase}
    (h : n.Unbound ∧ AllFree n.children ↔ k.Unbound ∧ AllFree k.children) :
    n.Free ↔ k.Free :=
  free_iff.trans (h.trans free_iff.symm)

attribute [local simp] Phrase.Unbound Phrase.outside Phrase.names Phrase.children Expr.children
  Stmt.children

theorem Ident.free_iff (id : Ident) :
    Phrase.Free (.expr (.ident id)) ↔ (id.name = "_" → id.obj = none) := by
  rw [Phrase.free_iff]
  simp

theorem free_resolveElem (h : ∀ s, Phrase.Free (.expr (e.resolve s).1) ↔ Phrase.Free (.expr e))
    (s : Scopes) :
    Phrase.Free (.expr (resolveElem e s).1) ↔ Phrase.Free (.expr e) := by
  have hpair : ∀ key colon value, Phrase.Free (.expr (.keyValue key colon value)) ↔
      Phrase.Free (.expr key) ∧ Phrase.Free (.expr value) := fun _ _ _ => by
    rw [Phrase.free_iff]
    simp
  unfold resolveElem
  split
  · simpa [Expr.resolve, hpair, Ident.free_iff, use_blank] using h s
  · exact h s

theorem free_resolveTarget (defines : Bool)
    (h : ∀ s, Phrase.Free (.expr (e.resolve s).1) ↔ Phrase.Free (.expr e))
    (s : Scopes) : Phrase.Free (.expr (resolveTarget defines e s).1) ↔ Phrase.Free (.expr e) := by
  unfold resolveTarget
  split
  · cases defines <;> simp [Ident.free_iff, use_blank, declare_blank]
  · exact h s

section Parts

attribute [local simp] Expr.resolve resolveExprs resolveExpr? resolveElems.eq_1 resolveElems_cons
  resolveTargets.eq_1
  resolveTargets_cons resolveTarget?.eq_1 resolveTarget?_some resolveFields FieldList.resolve
  resolveFieldList?
  FuncType.resolve Block.resolve resolveSpecs Stmt.resolve resolveStmts resolveStmt? Spec.children
  GenDecl.children GenDecl.names
  use_blank FieldList.blankFree_resolve FuncType.blankFree_resolve blankFree_resolveSpecs
  filterMap_key?_resolveElems

-- Both ways, so that the facts about the parts of a phrase rewrite what it says of its children.
mutual

theorem Expr.free_resolve (e : Expr) (s : Scopes) :
    Phrase.Free (.expr (e.resolve s).1) ↔ Phrase.Free (.expr e) := by
  refine Phrase.free_congr ?_
  cases e with
  | ident | lit => simp
  | paren _ x _ | selector x _ | star _ x | unary _ _ x | chan _ _ x => simp [x.free_resolve]
  | index x _ y _ | binary x _ _ y | map _ x y | keyValue x _ y =>
    simp [x.free_resolve, y.free_resolve]
  | call f _ args _ _ => simp [f.free_resolve, free_resolveExprs args]
  | array _ len elem => simp [free_resolveExpr? len, elem.free_resolve]
  | struct _ fields | interface _ fields => simp [fields.free_resolve]
  | composite t _ elems _ => simp [free_resolveExpr? t, free_resolveElems elems]
  | funcLit t body =>
    obtain ⟨_, list, _⟩ := body
    simp [t.free_resolve, Block.children, free_resolveStmts list]
  | slice x _ low high max _ =>
    simp [x.free_resolve, free_resolveExpr? low, free_resolveExpr? high, free_resolveExpr? max]
  | assertion x _ t _ => simp [x.free_resolve, free_resolveExpr? t]
  | ellipsis _ elem => simp [free_resolveExpr? elem]
  | func t => simp [t.free_resolve]

theorem free_resolveExprs :
    ∀ es s, AllFree ((resolveExprs es s).1.map .expr) ↔ AllFree (es.map .expr)
  | [], _ => .rfl
  | e :: es, _ => by simp [e.free_resolve, free_resolveExprs es]

theorem free_resolveExpr? :
    ∀ e s, AllFree ((resolveExpr? e s).1.toList.map .expr) ↔ AllFree (e.toList.map .expr)
  | none, _ => .rfl
  | some e, _ => by simp [e.free_resolve]

theorem free_resolveElems :
    ∀ es s, AllFree ((resolveElems es s).1.map .expr) ↔ AllFree (es.map .expr)
  | [], _ => .rfl
  | e :: es, _ => by simp [free_resolveElem e.free_resolve, free_resolveElems es]

theorem free_resolveTargets (defines : Bool) :
    ∀ es s, AllFree ((resolveTargets defines es s).1.map .expr) ↔ AllFree (es.map .expr)
  | [], _ => .rfl
  | e :: es, _ => by simp [free_resolveTarget defines e.free_resolve,
      free_resolveTargets defines es]

theorem free_resolveTarget? (defines : Bool) :
    ∀ e s, AllFree ((resolveTarget? defines e s).1.toList.map .expr) ↔ AllFree (e.toList.map .expr)
  | none, _ => .rfl
  | some e, _ => by simp [free_resolveTarget defines e.free_resolve]

theorem FieldList.free_resolve (kind : ObjKind) :
    ∀ (fields : FieldList) s, AllFree (fields.resolve kind s).1.children ↔ AllFree fields.children
  | ⟨_, list, _⟩, _ => free_resolveFields kind list _

theorem free_resolveFields (kind : ObjKind) : ∀ fields s,
    AllFree ((resolveFields kind fields s).1.map fun f => .expr f.type) ↔
    AllFree (fields.map fun f => .expr f.type)
  | [], _ => .rfl
  | ⟨_, t, _⟩ :: fields, _ => by simp [t.free_resolve, free_resolveFields kind fields]

theorem free_resolveFieldList? : ∀ fields s,
    AllFree ((resolveFieldList? fields s).1.toList.flatMap FieldList.children) ↔
      AllFree (fields.toList.flatMap FieldList.children)
  | none, _ => .rfl
  | some ⟨_, list, _⟩, _ => by simpa [FieldList.children] using free_resolveFields .var list _

theorem FuncType.free_resolve :
    ∀ (t : FuncType) s, AllFree (t.resolve s).1.children ↔ AllFree t.children
  | ⟨_, params, results⟩, _ => by
    simp [FuncType.children, params.free_resolve .var, free_resolveFieldList? results]

theorem Block.free_resolve : ∀ (b : Block) s, AllFree (b.resolve s).1.children ↔ AllFree b.children
  | ⟨_, list, _⟩, _ => by simp [Block.children, free_resolveStmts list]

theorem free_resolveSpecs (kind : ObjKind) : ∀ specs s,
    AllFree ((resolveSpecs kind specs s).1.flatMap Spec.children) ↔
    AllFree (specs.flatMap Spec.children)
  | [], _ => .rfl
  | .value _ t values :: specs, _ => by
    simp [free_resolveExpr? t, free_resolveExprs values, free_resolveSpecs kind specs]
  | .type _ _ t :: specs, _ => by simp [t.free_resolve, free_resolveSpecs kind specs]

theorem Stmt.free_resolve (st : Stmt) (s : Scopes) :
    Phrase.Free (.stmt (st.resolve s).1) ↔ Phrase.Free (.stmt st) := by
  refine Phrase.free_congr ?_
  cases st with
  | decl d =>
    obtain ⟨_, word, _, specs, _⟩ := d
    simp [free_resolveSpecs word.objKind specs]
  | expr x | incDec x _ _ | go _ x | defer _ x => simp [x.free_resolve]
  | assign lhs _ op rhs => simp [free_resolveExprs rhs, free_resolveTargets (op == .define) lhs]
  | ret _ results => simp [free_resolveExprs results]
  | jump => simp
  | block b => simp [b.free_resolve]
  | ifElse _ init cond body other =>
    simp [free_resolveStmt? init, cond.free_resolve, body.free_resolve, free_resolveStmt? other]
  | forLoop _ init cond post body =>
    simp [free_resolveStmt? init, free_resolveExpr? cond, free_resolveStmt? post, body.free_resolve]
  | range _ key value _ op x body =>
    simp [free_resolveTarget? (op == some .define) key,
      free_resolveTarget? (op == some .define) value, x.free_resolve, body.free_resolve]
  | labeled _ _ st => simp [st.free_resolve]
  | send x _ y => simp [x.free_resolve, y.free_resolve]
  | switch _ init tag body =>
    obtain ⟨_, list, _⟩ := body
    simp [free_resolveStmt? init, free_resolveExpr? tag, Block.children, free_resolveStmts list]
  | typeSwitch _ init guard body =>
    obtain ⟨_, list, _⟩ := body
    simp [free_resolveStmt? init, guard.free_resolve, Block.children, free_resolveStmts list]
  | select _ body =>
    obtain ⟨_, list, _⟩ := body
    simp [Block.children, free_resolveStmts list]
  | caseClause _ list _ body => simp [free_resolveExprs list, free_resolveStmts body]
  | commClause _ comm _ body => simp [free_resolveStmt? comm, free_resolveStmts body]

theorem free_resolveStmts :
    ∀ ss s, AllFree ((resolveStmts ss s).1.map .stmt) ↔ AllFree (ss.map .stmt)
  | [], _ => .rfl
  | st :: ss, _ => by simp [st.free_resolve, free_resolveStmts ss]

theorem free_resolveStmt? :
    ∀ st s, AllFree ((resolveStmt? st s).1.toList.map .stmt) ↔ AllFree (st.toList.map .stmt)
  | none, _ => .rfl
  | some st, _ => by simp [st.free_resolve]

end

end Parts

def Decl.names : Decl → List Ident
  | .func f => f.name :: (f.recv.toList.flatMap FieldList.names ++
      FuncType.names ⟨f.funcPos, f.params, f.results⟩)
  | .gen g => g.names

def Decl.method? : Decl → Option Ident
  | .func f => f.recv.map fun _ => f.name
  | .gen _ => none

def File.Holds (file : File) (id : Ident) : Prop :=
  id = file.name ∨ (∃ spec ∈ file.imports, spec.name = some id) ∨ (∃ d ∈ file.decls, id ∈ d.names) ∨
    ∃ n, file.Has n ∧ id ∈ n.names

def Decl.Unbound (d : Decl) : Prop :=
  (∀ id ∈ d.method?, id.obj = none) ∧ BlankFree d.names ∧ AllFree d.children

theorem Scoping.forall_mapM {P : α → Prop} {f : α → Scoping α} (h : ∀ a s, P (f a s).1 ↔ P a)
    (as : List α) (s : Scopes) :
    (∀ a ∈ (as.mapM f s).1, P a) ↔ ∀ a ∈ as, P a := by
  induction as generalizing s with
  | nil => rfl
  | cons a as ih => simp [mapM_cons, h, ih]

theorem GenDecl.unbound_iff (g : GenDecl) :
    (Decl.gen g).Unbound ↔ ∀ spec ∈ g.specs, BlankFree spec.names ∧ AllFree spec.children := by
  simp [Decl.Unbound, Decl.method?, Decl.names, Decl.children, GenDecl.names, GenDecl.children,
    blankFree_flatMap, allFree_flatMap, forall_and]

theorem Decl.unbound_declareNames (d : Decl) (s : Scopes) :
    (d.declareNames s).1.Unbound ↔ d.Unbound := by
  cases d with
  | func f =>
    obtain ⟨funcPos, recv, name, params, results, body⟩ := f
    cases recv <;>
      simp [Decl.declareNames, Decl.Unbound, Decl.method?, Decl.names, Decl.children,
        FuncDecl.children, declare_blank]
  | gen g =>
    refine (GenDecl.unbound_iff _).trans ((forall_mapM ?_ g.specs s).trans g.unbound_iff.symm)
    rintro (_ | _) s <;> simp [Spec.declareNames, Spec.names, Spec.children, blankFree_declareAll,
      declare_blank]

theorem Decl.unbound_resolve (d : Decl) (s : Scopes) : (d.resolve s).1.Unbound ↔ d.Unbound := by
  cases d with
  | func f =>
    obtain ⟨funcPos, recv, name, params, results, body⟩ := f
    cases recv <;> cases results <;> cases body <;>
      simp [Decl.resolve, FuncDecl.resolve, FuncType.resolve, resolveFieldList?, Decl.Unbound,
        Decl.method?, Decl.names, FuncType.names, Decl.children, FuncDecl.children, Block.children,
        FieldList.blankFree_resolve, FieldList.free_resolve, free_resolveStmts]
  | gen g =>
    refine (GenDecl.unbound_iff _).trans ((forall_mapM ?_ g.specs s).trans g.unbound_iff.symm)
    rintro (_ | _) s <;>
      simp [Spec.resolveDefinition, Spec.names, Spec.children, free_resolveExpr?, free_resolveExprs,
        Expr.free_resolve]

theorem File.unbound_resolve (file : File) :
    (∀ d ∈ file.resolve.decls, d.Unbound) ↔ ∀ d ∈ file.decls, d.Unbound :=
  (forall_mapM Decl.unbound_resolve _ _).trans (forall_mapM Decl.unbound_declareNames _ _)

theorem blankFree_map_move (ids : List Ident) : BlankFree (ids.map (Ident.move f)) := by
  simp [BlankFree, Ident.move]

theorem FieldList.names_move (fields : FieldList) :
    (fields.move f).names = fields.names.map (Ident.move f) := by
  cases fields
  simp [FieldList.move, FieldList.names, moveFields_eq_map, Field.move, map_flatMap, flatMap_map]

theorem FuncType.names_move (t : FuncType) : (t.move f).names = t.names.map (Ident.move f) := by
  obtain ⟨_, params, results⟩ := t
  cases results <;> simp [FuncType.move, FuncType.names, moveFieldList?, FieldList.names_move]

theorem GenDecl.names_move (d : GenDecl) : (d.move f).names = d.names.map (Ident.move f) := by
  have hspec : ∀ spec : Spec, (spec.move f).names =
      spec.names.map (Ident.move f) := by rintro (_ | _) <;> rfl
  cases d
  simp [GenDecl.move, GenDecl.names, moveSpecs_eq_map, map_flatMap, flatMap_map, hspec]

theorem Expr.key?_move (e : Expr) : (e.move f).key? = e.key?.map (Ident.move f) := by
  cases e with
  | keyValue key colon value => cases key <;> rfl
  | _ => rfl

theorem Phrase.unbound_move (n : Phrase) : (n.move f).Unbound := by
  cases n with
  | expr e =>
    cases e with
    | composite t lbrace elems rbrace =>
      have hkeys : ∀ id ∈ (moveExprs f elems).filterMap Expr.key?, id.obj = none := by
        intro id hid
        rw [moveExprs_eq_map, filterMap_map] at hid
        obtain ⟨e, -, he⟩ := mem_filterMap.1 hid
        rw [Function.comp_apply, Expr.key?_move] at he
        obtain ⟨key, -, rfl⟩ := Option.map_eq_some_iff.1 he
        rfl
      exact ⟨hkeys, blankFree_nil⟩
    | _ => simp [Phrase.move, Expr.move, FieldList.names_move, FuncType.names_move,
      blankFree_map_move, Ident.move]
  | stmt s =>
    cases s with
    | jump pos word label => cases label <;> simp [Phrase.move, Stmt.move, Ident.move]
    | _ => simp [Phrase.move, Stmt.move, GenDecl.names_move, blankFree_map_move, Ident.move]

theorem Phrase.free_move (n : Phrase) : (n.move f).Free := by
  induction n using Phrase.induction with
  | step n ih =>
    refine .intro (n.unbound_move f) fun c hc => ?_
    rw [Phrase.children_move] at hc
    obtain ⟨d, hd, rfl⟩ := mem_map.1 hc
    exact ih d hd

theorem Decl.unbound_move (d : Decl) : (d.move f).Unbound := by
  refine ⟨?_, ?_, fun c hc => ?_⟩
  · cases d with
    | func g => cases hr : g.recv
      <;> simp [Decl.move, FuncDecl.move, Decl.method?, hr, moveFieldList?, Ident.move]
    | gen g => simp [Decl.move, Decl.method?]
  · cases d with
    | func g =>
      obtain ⟨funcPos, recv, name, params, results, body⟩ := g
      cases recv <;> cases results <;>
        simp [Decl.move, FuncDecl.move, Decl.names, FuncType.names, moveFieldList?,
          FieldList.names_move, blankFree_map_move, Ident.move]
    | gen g => simp [Decl.move, Decl.names, GenDecl.names_move, blankFree_map_move]
  · rw [Decl.children_move] at hc
    obtain ⟨n, -, rfl⟩ := mem_map.1 hc
    exact n.free_move f

/-- In a source unit these identifiers have no object: the name of the package and the names of
imports, the names of methods, members, labels and keys of composite literals, and low lines. -/
theorem SourceUnit.unresolved_outside {name text : String} {u : SourceUnit}
    (h : read? name text = some u) :
    u.file.name.obj = none ∧ (∀ spec ∈ u.file.imports, ∀ id ∈ spec.name, id.obj = none) ∧
    (∀ d ∈ u.file.decls, ∀ id ∈ d.method?, id.obj = none) ∧
    (∀ n, u.file.Has n → ∀ id ∈ n.outside, id.obj = none) ∧
    ∀ id, u.file.Holds id → id.name = "_" → id.obj = none := by
  obtain ⟨file, hfile, rfl⟩ := Option.map_eq_some_iff.1 h
  have hmove := Grammar.move_parse? hfile
  have hname : file.name.obj = none := (congrArg (fun f => f.name.obj) hmove).symm
  have himports : file.imports.map (ImportSpec.move id) = file.imports :=
    congrArg File.imports hmove
  have himport : ∀ spec ∈ file.imports, (∀ id ∈ spec.name, id.obj = none) ∧
      Phrase.Free (.expr spec.path) := by
    intro spec hspec
    rw [← himports] at hspec
    obtain ⟨spec, -, rfl⟩ := List.mem_map.1 hspec
    refine ⟨?_, Phrase.free_move id (.expr spec.path)⟩
    cases hn : spec.name <;> simp [ImportSpec.move, hn, Ident.move]
  have hdecls : ∀ d ∈ file.resolve.decls, d.Unbound := by
    refine file.unbound_resolve.2 fun d hd => ?_
    rw [← hmove] at hd
    obtain ⟨d, -, rfl⟩ := List.mem_map.1 hd
    exact d.unbound_move id
  have hphrases : ∀ n, file.resolve.Has n → n.Unbound := by
    rintro n ⟨root, hroot, hn⟩
    refine (Throughout.occurs ?_ hn).here
    rcases List.mem_append.1 hroot with hroot | hroot
    · obtain ⟨spec, hspec, rfl⟩ := List.mem_map.1 hroot
      exact (himport spec hspec).2
    · obtain ⟨d, hd, hroot⟩ := List.mem_flatMap.1 hroot
      exact (hdecls d hd).2.2 root hroot
  refine ⟨hname, fun spec hspec => (himport spec hspec).1, fun d hd => (hdecls d hd).1, fun n hn =>
    (hphrases n hn).1, ?_⟩
  rintro x (rfl | ⟨spec, hspec, hx⟩ | ⟨d, hd, hx⟩ | ⟨n, hn, hx⟩) hblank
  · exact hname
  · exact (himport spec hspec).1 x hx
  · exact (hdecls d hd).2.1 x hx hblank
  · exact (hphrases n hn).2 x hx hblank

def sharedText : String := "package x\nvar x = 1\nfunc (t T) x() \x7b\nt.x = T\x7bx: x\x7d\n\x7d\n"

/-- The key of the literal has no object. Its value, written in the same way, has one. -/
theorem sharedText_key :
    ∃ u n k, SourceUnit.read? "x.go" sharedText = some u ∧ u.file.Has n ∧ u.file.Has k ∧
    n.outside.map Ident.name = ["x"] ∧ (∀ id ∈ n.outside, id.obj = none) ∧
    k.names.map Ident.obj = [some ⟨.var, "x"⟩] := by
  have h : (SourceUnit.read? "x.go" sharedText).any fun u => (u.file.at? [2, 1]).any fun n =>
      (u.file.at? [2, 1, 1, 1]).any fun k => n.outside.map Ident.name == ["x"] &&
        k.names.map Ident.obj == [some ⟨.var, "x"⟩] := by decide +kernel
  obtain ⟨u, hu, h⟩ := (Option.any_eq_true _ _).1 h
  obtain ⟨n, hn, h⟩ := (Option.any_eq_true _ _).1 h
  obtain ⟨k, hk, h⟩ := (Option.any_eq_true _ _).1 h
  simp only [Bool.and_eq_true, beq_iff_eq] at h
  have hn := File.has_of_at? hn
  exact ⟨u, n, k, hu, hn, File.has_of_at? hk, h.1, (SourceUnit.unresolved_outside hu).2.2.2.1 n hn,
    h.2⟩

end GoFun
