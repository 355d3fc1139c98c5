import GoFun.Proofs.Scope.Event
import GoFun.Proofs.Tree.Move

/-!
# Resolution follows the events

Resolution does to the open scopes what the events of a tree do. The tree that it gives differs from
the tree before in objects only, and every use is looked up in the scopes at its own place.
-/
namespace GoFun

def Event.apply : Event → Scopes → Scopes
  | opens => fun scopes => [] :: scopes
  | closes => List.tail
  | declares name kind => fun scopes => if name = "_" then scopes else scopes.declare name kind
  | uses _ => id

def Event.resolve (scopes : Scopes) : Event → Event
  | uses id => uses (Scoping.use id scopes).1
  | e => e

def advance (scopes : Scopes) : List Event → Scopes
  | [] => scopes
  | e :: es => advance (e.apply scopes) es

/-- The events with every use looked up in the scopes at its place. -/
def annotate (scopes : Scopes) : List Event → List Event
  | [] => []
  | e :: es => e.resolve scopes :: annotate (e.apply scopes) es

theorem advance_append (scopes : Scopes) (es es' : List Event) :
    advance scopes (es ++ es') = advance (advance scopes es) es' := by
  induction es generalizing scopes with
  | nil => rfl
  | cons e es ih => exact ih (e.apply scopes)

theorem annotate_append (scopes : Scopes) (es es' : List Event) :
    annotate scopes (es ++ es') = annotate scopes es ++ annotate (advance scopes es) es' := by
  induction es generalizing scopes with
  | nil => rfl
  | cons e es ih => exact congrArg (e.resolve scopes :: ·) (ih (e.apply scopes))

/-- Every scope that opens closes again, and no other. -/
inductive Balanced : List Event → Prop
  | nil : Balanced []
  | declares {name : String} {kind : ObjKind} {es : List Event} (rest : Balanced es) :
      Balanced (.declares name kind :: es)
  | uses {id : Ident} {es : List Event} (rest : Balanced es) : Balanced (.uses id :: es)
  | scope {es es' : List Event} (inner : Balanced es) (rest : Balanced es') :
      Balanced (.opens :: es ++ .closes :: es')

namespace Balanced

theorem append {es es' : List Event} (h : Balanced es) (h' : Balanced es') :
    Balanced (es ++ es') := by
  induction h with
  | nil => exact h'
  | declares _ ih => exact .declares ih
  | uses _ ih => exact .uses ih
  | scope inner _ _ ih => simpa using Balanced.scope inner ih

theorem append₃ {a b c : List Event} (ha : Balanced a) (hb : Balanced b) (hc : Balanced c) :
    Balanced (a ++ (b ++ c)) :=
  ha.append (hb.append hc)

theorem append₄ {a b c d : List Event} (ha : Balanced a) (hb : Balanced b) (hc : Balanced c)
    (hd : Balanced d) :
    Balanced (a ++ (b ++ (c ++ d))) :=
  ha.append (hb.append₃ hc hd)

theorem inScope {es : List Event} (h : Balanced es) : Balanced (GoFun.inScope es) := .scope h .nil

end Balanced

namespace Scoping

variable {α β : Type}

theorem bind_apply (act : Scoping α) (next : α → Scoping β) (s : Scopes) :
    (act >>= next) s = next (act s).1 (act s).2 := rfl

theorem map_apply (g : α → β) (act : Scoping α) (s : Scopes) :
    (g <$> act) s = (g (act s).1, (act s).2) := rfl

theorem pure_apply (a : α) (s : Scopes) : (pure a : Scoping α) s = (a, s) := rfl

theorem modify_apply (f : Scopes → Scopes) (s : Scopes) :
    (modify f : Scoping PUnit) s = (⟨⟩, f s) := rfl

theorem nested_apply (act : Scoping α) (s : Scopes) :
    nested act s = ((act ([] :: s)).1, (act ([] :: s)).2.tail) := rfl

end Scoping

theorem Scoping.use_eq (id : Ident) (scopes : Scopes) : (Scoping.use id scopes).1 =
    if id.name = "_" then id else
      { id with obj := ((scopes.find? id.name).map fun kind => ⟨kind, id.name⟩).or id.obj } := by
  unfold Scoping.use
  by_cases h : id.name = "_"
  · rw [if_pos h, if_pos (by simp [Ident.isBlank, h])]
    rfl
  · rw [if_neg h, if_neg (by simp [Ident.isBlank, h])]
    simp only [bind, StateT.bind, get, getThe, MonadStateOf.get, StateT.get, pure]
    cases scopes.find? id.name <;> rfl

@[simp] theorem Scoping.use_scopes (id : Ident) (scopes : Scopes) :
    (Scoping.use id scopes).2 = scopes := by
  unfold Scoping.use
  split
  · rfl
  · simp only [bind, StateT.bind, get, getThe, MonadStateOf.get, StateT.get, pure]
    cases scopes.find? id.name <;> rfl

theorem Scoping.use_move (m : Nat → Nat) (id : Ident) (scopes : Scopes) :
    (Scoping.use id scopes).1.move m = id.move m := by
  rw [Scoping.use_eq]
  split <;> rfl

/-- Run in any scopes, `act` gives a value that satisfies `P`. -/
def Returns {α : Type} (act : Scoping α) (P : α → Prop) : Prop := ∀ scopes, P (act scopes).1

namespace Returns

variable {α β : Type} {P : α → Prop} {Q : β → Prop}

theorem pure {a : α} (h : P a) : Returns (Pure.pure a) P := fun _ => h

theorem bind {act : Scoping α} {next : α → Scoping β} (h : Returns act P)
    (hn : ∀ a, P a → Returns (next a) Q) : Returns (act >>= next) Q :=
  fun scopes => hn _ (h scopes) _

theorem nested {act : Scoping α} (h : Returns act P) : Returns (Scoping.nested act) P :=
  fun scopes => h ([] :: scopes)

theorem mapM {γ : Type} {f : α → Scoping β} {g : β → γ} {k : α → γ} (as : List α)
    (h : ∀ a, Returns (f a) fun b => g b = k a) :
    Returns (as.mapM f) fun bs => bs.map g = as.map k := by
  induction as with
  | nil => exact pure rfl
  | cons a as ih =>
    rw [List.mapM_cons]
    refine bind (h a) fun b hb => bind ih fun bs hbs => pure ?_
    simp [hb, hbs]

end Returns

/-- Run in any scopes, `act` does to them what the events of `a` do, and its value is `a` with other
objects. The events of the value are those of `a` with their uses looked up. -/
abbrev Resolves {α : Type} (events : α → List Event) (move : (Nat → Nat) → α → α) (act : Scoping α)
    (a : α) : Prop :=
  Balanced (events a) ∧ ∀ scopes, (events (act scopes).1 = annotate scopes (events a) ∧
    ∀ m, move m (act scopes).1 = move m a) ∧ (act scopes).2 = advance scopes (events a)

attribute [local simp] Resolves Scoping.bind_apply Scoping.map_apply Scoping.pure_apply
  Scoping.nested_apply annotate_append advance_append

@[local simp] theorem annotate_inScope (scopes : Scopes) (es : List Event) :
    annotate scopes (inScope es) = inScope (annotate ([] :: scopes) es) := by
  simp [inScope, annotate, Event.resolve, Event.apply]

@[local simp] theorem advance_inScope (scopes : Scopes) (es : List Event) :
    advance scopes (inScope es) = (advance ([] :: scopes) es).tail := by
  simp [inScope, advance, Event.apply]

namespace Resolves

variable {α : Type} {events : α → List Event} {move : (Nat → Nat) → α → α}

theorem nested {act : Scoping α} {a : α} (h : Resolves events move act a) :
    Resolves (fun a => inScope (events a)) move (Scoping.nested act) a :=
  ⟨h.1.inScope, by simp [h]⟩

theorem use (id : Ident) : Resolves (fun id => [.uses id]) Ident.move (Scoping.use id) id :=
  ⟨.uses .nil, fun scopes => ⟨⟨rfl, fun m => Scoping.use_move m id scopes⟩,
    Scoping.use_scopes id scopes⟩⟩

theorem declare (kind : ObjKind) (id : Ident) :
    Resolves (fun id => [.declares id.name kind]) Ident.move (Scoping.declare kind id) id := by
  refine ⟨.declares .nil, fun scopes => ?_⟩
  by_cases h : id.name = "_" <;>
    simp [Scoping.declare, Ident.isBlank, annotate, advance, Event.resolve, Event.apply, Ident.move,
      h, Scoping.modify_apply]

theorem mapM {f : α → Scoping α} (h : ∀ a, Resolves events move (f a) a) (as : List α) :
    Resolves (List.flatMap events) (fun m => List.map (move m)) (as.mapM f) as := by
  induction as with
  | nil => exact ⟨.nil, fun _ => ⟨⟨rfl, fun _ => rfl⟩, rfl⟩⟩
  | cons a as ih => exact ⟨(h a).1.append ih.1, by simp [List.mapM_cons, h, ih]⟩

theorem declareAll (kind : ObjKind) (names : List Ident) :
    Resolves (declarations kind) (fun m => List.map (Ident.move m))
      (names.mapM (Scoping.declare kind)) names := by
  have hevents : declarations kind = List.flatMap fun id => [.declares id.name kind] :=
    funext fun _ => List.map_eq_flatMap
  rw [hevents]
  exact mapM (declare kind) names

end Resolves

def resolveElem : Expr → Scoping Expr
  | .keyValue (.ident key) colon value => return .keyValue (.ident key) colon (← value.resolve)
  | e => e.resolve

def resolveTarget (defines : Bool) : Expr → Scoping Expr
  | .ident id => do
    let id ← if defines then Scoping.declare .var id else Scoping.use id
    return .ident id
  | e => e.resolve

theorem resolveElems_cons (e : Expr) (es : List Expr) :
    resolveElems (e :: es) = do
      let e' ← resolveElem e
      let es' ← resolveElems es
      return e' :: es' := by
  unfold resolveElem
  split
  · simp [resolveElems]
  case h_2 hne =>
    rw [resolveElems]
    exact hne

theorem resolveTargets_cons (defines : Bool) (e : Expr) (es : List Expr) :
    resolveTargets defines (e :: es) = do
      let e' ← resolveTarget defines e
      let es' ← resolveTargets defines es
      return e' :: es' := by
  unfold resolveTarget
  split
  · cases defines <;> simp [resolveTargets]
  case h_2 hne =>
    rw [resolveTargets]
    exact hne

theorem resolveTarget?_some (defines : Bool) (e : Expr) :
    resolveTarget? defines (some e) = do
      let e' ← resolveTarget defines e
      return some e' := by
  unfold resolveTarget
  split
  · cases defines <;> simp [resolveTarget?]
  case h_2 hne =>
    rw [resolveTarget?]
    exact hne

def elemEvents : Expr → List Event
  | .keyValue (.ident _) _ value => value.events
  | e => e.events

def targetEvents (defines : Bool) : Expr → List Event
  | .ident id => [if defines then .declares id.name .var else .uses id]
  | e => e.events

theorem elemsEvents_cons (e : Expr) (es : List Expr) :
    elemsEvents (e :: es) = elemEvents e ++ elemsEvents es := by
  unfold elemEvents
  split
  · rw [elemsEvents]
  case h_2 hne =>
    rw [elemsEvents]
    exact hne

theorem targetsEvents_cons (defines : Bool) (e : Expr) (es : List Expr) :
    targetsEvents defines (e :: es) = targetEvents defines e ++ targetsEvents defines es := by
  unfold targetEvents
  split
  · rw [targetsEvents, List.singleton_append]
  case h_2 hne =>
    rw [targetsEvents]
    exact hne

theorem target?Events_some (defines : Bool) (e : Expr) :
    target?Events defines (some e) = targetEvents defines e := by
  unfold targetEvents
  split
  · rw [target?Events]
  case h_2 hne =>
    rw [target?Events]
    exact hne

theorem resolveElem_follows {e : Expr} (h : Resolves Expr.events Expr.move e.resolve e) :
    Resolves elemEvents Expr.move (resolveElem e) e := by
  cases e with
  | keyValue key colon value =>
    cases key with
    | ident key =>
      -- what is known of the whole element says the same of its value, because a use leaves the
      -- scopes alone
      have hbalanced : Balanced value.events := by
        cases h.1 with
        | uses rest => exact rest
      have hv := h.2
      simp only [Expr.resolve, Expr.events, Expr.move, Scoping.bind_apply, Scoping.pure_apply,
        Scoping.use_scopes, List.singleton_append, annotate, advance, Event.apply, id,
          List.cons.injEq, Expr.keyValue.injEq, forall_and] at hv
      simp [elemEvents, resolveElem, Expr.move, hbalanced, hv]
    | funcLit t body =>
      cases body
      exact h
    | _ => exact h
  | funcLit t body =>
    cases body
    exact h
  | _ => exact h

theorem resolveTarget_follows {e : Expr} (defines : Bool)
    (h : Resolves Expr.events Expr.move e.resolve e) :
    Resolves (targetEvents defines) Expr.move (resolveTarget defines e) e := by
  cases e with
  | ident id =>
    cases defines with
    | false => simpa [targetEvents, resolveTarget, Expr.move] using Resolves.use id
    | true => simpa [targetEvents, resolveTarget, Expr.move] using Resolves.declare .var id
  | funcLit t body =>
    cases body
    exact h
  | _ => exact h

attribute [local simp] Balanced.nil Balanced.declares Balanced.append Balanced.append₃
  Balanced.append₄ Balanced.inScope

section Parts

attribute [local simp] Expr.resolve Expr.events Expr.move resolveExprs exprsEvents moveExprs
  resolveExpr? expr?Events
  moveExpr? resolveElems.eq_1 resolveElems_cons elemsEvents.eq_1 elemsEvents_cons
  resolveTargets.eq_1
  resolveTargets_cons targetsEvents.eq_1 targetsEvents_cons resolveTarget?.eq_1 resolveTarget?_some
  target?Events.eq_1
  target?Events_some resolveFields fieldsEvents moveFields FieldList.resolve FieldList.events
  FieldList.move
  resolveFieldList? fieldList?Events moveFieldList? FuncType.resolve FuncType.events FuncType.move
  Block.resolve
  Block.events Block.move resolveSpecs specsEvents moveSpecs GenDecl.move Stmt.resolve Stmt.events
  Stmt.move
  resolveStmts stmtsEvents moveStmts resolveStmt? stmt?Events moveStmt? annotate advance
  Resolves.declareAll

mutual

theorem Expr.resolve_follows (e : Expr) : Resolves Expr.events Expr.move e.resolve e := by
  cases e with
  | ident id => simpa using Resolves.use id
  | lit => simp
  | paren _ x _ | selector x _ | star _ x | unary _ _ x | chan _ _ x => simp [x.resolve_follows]
  | index x _ y _ | binary x _ _ y | map _ x y | keyValue x _ y =>
    simp [x.resolve_follows, y.resolve_follows]
  | call f _ args _ _ => simp [f.resolve_follows, resolveExprs_follows args]
  | array _ len elem => simp [resolveExpr?_follows len, elem.resolve_follows]
  | struct _ fields | interface _ fields => simp [fields.resolve_follows]
  | composite t _ elems _ => simp [resolveExpr?_follows t, resolveElems_follows elems]
  | funcLit t body =>
    obtain ⟨_, list, _⟩ := body
    simp [t.resolve_follows, resolveStmts_follows list]
  | slice x _ low high max _ =>
    simp [x.resolve_follows, resolveExpr?_follows low, resolveExpr?_follows high,
      resolveExpr?_follows max]
  | assertion x _ t _ => simp [x.resolve_follows, resolveExpr?_follows t]
  | ellipsis _ elem => simp [resolveExpr?_follows elem]
  | func t => simp [t.resolve_follows]

theorem resolveExprs_follows : ∀ es, Resolves exprsEvents moveExprs (resolveExprs es) es
  | [] => by simp
  | e :: es => by simp [e.resolve_follows, resolveExprs_follows es]

theorem resolveExpr?_follows : ∀ e, Resolves expr?Events moveExpr? (resolveExpr? e) e
  | none => by simp
  | some e => by simp [e.resolve_follows]

theorem resolveElems_follows : ∀ es, Resolves elemsEvents moveExprs (resolveElems es) es
  | [] => by simp
  | e :: es => by simp [resolveElem_follows e.resolve_follows, resolveElems_follows es]

theorem resolveTargets_follows (defines : Bool) :
    ∀ es, Resolves (targetsEvents defines) moveExprs (resolveTargets defines es) es
  | [] => by simp
  | e :: es => by simp [resolveTarget_follows defines e.resolve_follows,
      resolveTargets_follows defines es]

theorem resolveTarget?_follows (defines : Bool) :
    ∀ e, Resolves (target?Events defines) moveExpr? (resolveTarget? defines e) e
  | none => by simp
  | some e => by simp [resolveTarget_follows defines e.resolve_follows]

theorem FieldList.resolve_follows (kind : ObjKind) :
    ∀ fields, Resolves (FieldList.events kind) FieldList.move (fields.resolve kind) fields
  | ⟨_, list, _⟩ => by simp [resolveFields_follows kind list]

theorem resolveFields_follows (kind : ObjKind) :
    ∀ fields, Resolves (fieldsEvents kind) moveFields (resolveFields kind fields) fields
  | [] => by simp
  | ⟨_, t, _⟩ :: fields => by simp [t.resolve_follows, resolveFields_follows kind fields]

theorem resolveFieldList?_follows :
    ∀ fields, Resolves fieldList?Events moveFieldList? (resolveFieldList? fields) fields
  | none => by simp
  | some ⟨_, list, _⟩ => by simp [resolveFields_follows .var list]

theorem FuncType.resolve_follows : ∀ t, Resolves FuncType.events FuncType.move t.resolve t
  | ⟨_, params, results⟩ => by simp [params.resolve_follows .var, resolveFieldList?_follows results]

theorem Block.resolve_follows : ∀ b, Resolves Block.events Block.move b.resolve b
  | ⟨_, list, _⟩ => by simp [resolveStmts_follows list]

theorem resolveSpecs_follows (kind : ObjKind) :
    ∀ specs, Resolves (specsEvents kind) moveSpecs (resolveSpecs kind specs) specs
  | [] => by simp
  | .value _ t values :: specs => by
    simp [resolveExpr?_follows t, resolveExprs_follows values, resolveSpecs_follows kind specs]
  | .type name _ t :: specs => by
    have hname := (Resolves.declare kind name).2
    simp only [annotate, advance, List.cons.injEq, and_true] at hname
    simp [hname, t.resolve_follows, resolveSpecs_follows kind specs]

theorem Stmt.resolve_follows (s : Stmt) : Resolves Stmt.events Stmt.move s.resolve s := by
  cases s with
  | decl d =>
    obtain ⟨_, word, _, specs, _⟩ := d
    simp [resolveSpecs_follows word.objKind specs]
  | expr x | incDec x _ _ | go _ x | defer _ x => simp [x.resolve_follows]
  | assign lhs _ op rhs => simp [resolveExprs_follows rhs,
    resolveTargets_follows (op == .define) lhs]
  | ret _ results => simp [resolveExprs_follows results]
  | jump => simp
  | block b => simp [b.resolve_follows]
  | ifElse _ init cond body other =>
    simp [resolveStmt?_follows init, cond.resolve_follows, body.resolve_follows,
      resolveStmt?_follows other]
  | forLoop _ init cond post body =>
    simp [resolveStmt?_follows init, resolveExpr?_follows cond, resolveStmt?_follows post,
      body.resolve_follows]
  | range _ key value _ op x body =>
    have hkey := resolveTarget?_follows (op == some .define) key
    have hvalue := resolveTarget?_follows (op == some .define) value
    -- what the header declares stands in a scope around the scope of the body
    have hinner := (hkey.1.append₃ hvalue.1 body.resolve_follows.1).inScope
    simp [hkey, hvalue, x.resolve_follows, body.resolve_follows, x.resolve_follows.1.append hinner]
  | labeled _ _ s => simp [s.resolve_follows]
  | send x _ y => simp [x.resolve_follows, y.resolve_follows]
  | switch _ init tag body =>
    obtain ⟨_, list, _⟩ := body
    simp [resolveStmt?_follows init, resolveExpr?_follows tag, resolveStmts_follows list]
  | typeSwitch _ init guard body =>
    obtain ⟨_, list, _⟩ := body
    simp [resolveStmt?_follows init, guard.resolve_follows, resolveStmts_follows list]
  | select _ body =>
    obtain ⟨_, list, _⟩ := body
    simp [resolveStmts_follows list]
  | caseClause _ list _ body => simp [resolveExprs_follows list, resolveStmts_follows body]
  | commClause _ comm _ body => simp [resolveStmt?_follows comm, resolveStmts_follows body]

theorem resolveStmts_follows : ∀ ss, Resolves stmtsEvents moveStmts (resolveStmts ss) ss
  | [] => by simp
  | s :: ss => by simp [s.resolve_follows, resolveStmts_follows ss]

theorem resolveStmt?_follows : ∀ s, Resolves stmt?Events moveStmt? (resolveStmt? s) s
  | none => by simp
  | some s => by simp [s.resolve_follows]

end

end Parts

theorem Expr.resolve_move (m : Nat → Nat) (e : Expr) (scopes : Scopes) :
    (e.resolve scopes).1.move m = e.move m :=
  (e.resolve_follows.2 scopes).1.2 m

theorem Stmt.resolve_move (m : Nat → Nat) (s : Stmt) (scopes : Scopes) :
    (s.resolve scopes).1.move m = s.move m :=
  (s.resolve_follows.2 scopes).1.2 m

theorem Spec.declareNames_follows (kind : ObjKind) (spec : Spec) :
    Resolves (Spec.nameEvents kind) Spec.move (spec.declareNames kind) spec := by
  cases spec with
  | value => simp [Spec.declareNames, Spec.nameEvents, Spec.move, Resolves.declareAll]
  | type => simpa [Spec.declareNames, Spec.nameEvents, Spec.move] using Resolves.declare kind _

theorem Decl.declareNames_follows (d : Decl) :
    Resolves Decl.nameEvents Decl.move d.declareNames d := by
  cases d with
  | func f =>
    obtain ⟨funcPos, recv, name, params, results, body⟩ := f
    cases recv with
    | none => simpa [Decl.declareNames, Decl.nameEvents, Decl.move, FuncDecl.move]
      using Resolves.declare .func name
    | some recv => simp [Decl.declareNames, Decl.nameEvents, annotate, advance]
  | gen g =>
    obtain ⟨wordPos, word, lparen, specs, rparen⟩ := g
    simp [Decl.declareNames, Decl.nameEvents, Decl.move, GenDecl.move, moveSpecs_eq_map,
      Resolves.mapM (Spec.declareNames_follows word.objKind)]

/-- Declaring the names of the package does not touch the definitions. -/
theorem Decl.declareNames_events (d : Decl) :
    Returns d.declareNames fun d' => d'.events = d.events := by
  cases d with
  | func f =>
    simp only [Decl.declareNames]
    split
    · exact .pure rfl
    · exact .bind (P := fun _ => True) (fun _ => trivial) fun name' _ => .pure rfl
  | gen g =>
    have hspec : ∀ spec : Spec, Returns (spec.declareNames g.word.objKind) fun spec' =>
        spec'.definitionEvents = spec.definitionEvents := by
      intro spec
      cases spec with
      | value => exact .bind (P := fun _ => True) (fun _ => trivial) fun _ _ => .pure rfl
      | type => exact .bind (P := fun _ => True) (fun _ => trivial) fun _ _ => .pure rfl
    refine .bind (.mapM g.specs hspec) fun specs' h => .pure ?_
    simp only [Decl.events, List.flatMap_def, h]

theorem Spec.resolveDefinition_follows (spec : Spec) :
    Resolves Spec.definitionEvents Spec.move spec.resolveDefinition spec := by
  cases spec <;>
    simp [Spec.resolveDefinition, Spec.definitionEvents, Spec.move, resolveExpr?_follows,
      resolveExprs_follows, Expr.resolve_follows]

theorem FuncDecl.resolve_follows (f : FuncDecl) :
    Resolves FuncDecl.events FuncDecl.move f.resolve f := by
  obtain ⟨funcPos, recv, name, params, results, _ | ⟨lbrace, list, rbrace⟩⟩ := f <;>
    simp [FuncDecl.resolve, FuncDecl.events, FuncDecl.move, FuncType.resolve, FuncType.events,
      Block.move, FieldList.resolve_follows, resolveFieldList?_follows, resolveStmts_follows]

theorem Decl.resolve_follows (d : Decl) : Resolves Decl.events Decl.move d.resolve d := by
  cases d with
  | func f => simp [Decl.resolve, Decl.events, Decl.move, FuncDecl.resolve_follows]
  | gen g =>
    obtain ⟨wordPos, word, lparen, specs, rparen⟩ := g
    simp [Decl.resolve, Decl.events, Decl.move, GenDecl.move, moveSpecs_eq_map,
      Resolves.mapM Spec.resolveDefinition_follows]

theorem Decl.nameEvents_move (m : Nat → Nat) (d : Decl) : (d.move m).nameEvents = d.nameEvents := by
  cases d with
  | func f => cases hr : f.recv
    <;> simp [Decl.move, Decl.nameEvents, FuncDecl.move, hr, moveFieldList?, Ident.move]
  | gen g =>
    obtain ⟨wordPos, word, lparen, specs, rparen⟩ := g
    have hspec :
        ∀ spec : Spec, (spec.move m).nameEvents word.objKind = spec.nameEvents word.objKind := by
      intro spec
      cases spec <;> simp [Spec.move, Spec.nameEvents, declarations, Ident.move]
    simp [Decl.move, GenDecl.move, Decl.nameEvents, moveSpecs_eq_map, List.flatMap_map, hspec]

theorem resolveDecls_follows (decls : List Decl) :
    Resolves (fun decls => decls.flatMap Decl.nameEvents ++ decls.flatMap Decl.events)
      (fun m => List.map (Decl.move m))
      (decls.mapM Decl.declareNames >>= List.mapM Decl.resolve) decls := by
  have hnames : ∀ decls₁ decls₂ : List Decl, decls₁.map (Decl.move id) = decls₂.map (Decl.move id) →
      decls₁.flatMap Decl.nameEvents = decls₂.flatMap Decl.nameEvents := by
    intro decls₁ decls₂ h
    have hs := congrArg (List.flatMap Decl.nameEvents) h
    simpa [List.flatMap_map, Decl.nameEvents_move] using hs
  have hdeclare := Resolves.mapM Decl.declareNames_follows decls
  have hresolve := Resolves.mapM Decl.resolve_follows
  have hevents : ∀ scopes, (decls.mapM Decl.declareNames scopes).1.flatMap Decl.events =
      decls.flatMap Decl.events := by
    intro scopes
    simp only [List.flatMap_def, Returns.mapM decls Decl.declareNames_events scopes]
  refine ⟨hdeclare.1.append (hevents [] ▸ (hresolve _).1), fun scopes => ⟨⟨?_, fun m => ?_⟩, ?_⟩⟩
  · simp only [Scoping.bind_apply, hnames _ _ (((hresolve _).2 _).1.2 id)]
    simp [hdeclare, hresolve, hevents]
  · simp [hdeclare, hresolve]
  · simp [hdeclare, hresolve, hevents]

/-- Resolution looks every use up in the scopes at its place. -/
theorem File.resolve_events (file : File) : file.resolve.events = annotate [] file.events :=
  ((resolveDecls_follows file.decls).nested.2 []).1.1

theorem File.resolve_decls_move (m : Nat → Nat) (file : File) :
    file.resolve.decls.map (Decl.move m) = file.decls.map (Decl.move m) :=
  ((resolveDecls_follows file.decls).nested.2 []).1.2 m

end GoFun
