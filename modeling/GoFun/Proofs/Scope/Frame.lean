import GoFun.Proofs.Source.Operand

/-!
# What resolution leaves alone

An expression declares nothing outside of itself. A statement adds to the innermost scope the names
that it declares there, and touches no other scope. In the trees only objects change.
-/
namespace GoFun

/-- What the names bind in a scope. Low lines bind nothing. -/
def bindings (kind : ObjKind) (names : List Ident) : Frame :=
  (names.filter fun id => !id.isBlank).map fun id => (id.name, kind)

def Expr.ident? : Expr → Option Ident
  | .ident id => some id
  | _ => none

mutual

/-- What a statement declares in the scope where it stands, the oldest declaration first. -/
def Stmt.declared : Stmt → Frame
  | .decl ⟨_, word, _, specs, _⟩ => bindings word.objKind (specs.flatMap Spec.names)
  | .assign lhs _ op _ => bindings .var (if op == .define then lhs.filterMap Expr.ident? else [])
  | .labeled _ _ s => s.declared
  | .select _ ⟨_, clauses, _⟩ => stmtsDeclared clauses
  | _ => []

def stmtsDeclared : List Stmt → Frame
  | [] => []
  | s :: ss => s.declared ++ stmtsDeclared ss

end

theorem bindings_append (kind : ObjKind) (names names' : List Ident) :
    bindings kind (names ++ names') = bindings kind names ++ bindings kind names' := by
  rw [bindings, List.filter_append, List.map_append]
  rfl

/-- The events add these declarations to the innermost scope and leave the other scopes as they
were. -/
def Adds (es : List Event) (added : Frame) : Prop :=
  ∀ frame outer, advance (frame :: outer) es = (added.reverse ++ frame) :: outer

namespace Adds

variable {es es' : List Event} {added added' : Frame}

theorem still (h : ∀ scopes, advance scopes es = scopes) : Adds es [] := fun _ _ => h _

theorem append (h : Adds es added) (h' : Adds es' added') : Adds (es ++ es') (added ++ added') := by
  intro frame outer
  rw [advance_append, h, h', List.reverse_append, List.append_assoc]

theorem declarations (kind : ObjKind) (names : List Ident) :
    Adds (GoFun.declarations kind names) (bindings kind names) := by
  intro frame outer
  have hbind : (GoFun.declarations kind names).filterMap Event.binding? = bindings kind names := by
    induction names with
    | nil => rfl
    | cons id names ih =>
      by_cases h : id.name = "_" <;> simp_all
        [GoFun.declarations, bindings, Event.binding?, Ident.isBlank]
  rw [advance_declares declarations_declares, hbind]

theorem specs (kind : ObjKind) (list : List Spec) :
    Adds (specsEvents kind list) (bindings kind (list.flatMap Spec.names)) := by
  induction list with
  | nil => exact still fun _ => rfl
  | cons spec list ih =>
    rw [List.flatMap_cons, bindings_append]
    cases spec with
    | value names t values =>
      exact (((still fun _ => advance_expr?Events _ t).append (still fun _ =>
        advance_exprsEvents _ values)).append (declarations kind names)).append ih
    | type name equals t =>
      have hname := (declarations kind [name]).append (still fun _ => t.advance_events _)
      exact (List.append_nil (bindings kind [name]) ▸ hname).append ih

theorem targets (defines : Bool) (es : List Expr) :
    Adds (targetsEvents defines es)
      (bindings .var (if defines then es.filterMap Expr.ident? else [])) := by
  have htarget : ∀ e, Adds (targetEvents defines e)
      (bindings .var (if defines then e.ident?.toList else [])) := by
    intro e
    cases e with
    | ident id => cases defines with
      | false => exact still fun _ => rfl
      | true => exact declarations .var [id]
    | _ => cases defines <;> exact still fun _ => Expr.advance_events _ _
  induction es with
  | nil => cases defines <;> exact still fun _ => rfl
  | cons e es ih =>
    rw [targetsEvents_cons]
    have h := (htarget e).append ih
    rw [← bindings_append] at h
    cases defines with
    | false => exact h
    | true => cases he : e.ident? <;> simpa [he] using h

theorem scope (h : Balanced es) : Adds (inScope es) [] := still h.advance_inScope

theorem stmts {ss : List Stmt} (h : ∀ s ∈ ss, Adds s.events s.declared) :
    Adds (stmtsEvents ss) (stmtsDeclared ss) := by
  induction ss with
  | nil => exact still fun _ => rfl
  | cons s ss ih =>
    rw [List.forall_mem_cons] at h
    exact h.1.append (ih h.2)

end Adds

theorem Stmt.adds_declared : ∀ s : Stmt, Adds s.events s.declared
  | .decl ⟨_, word, _, specs, _⟩ => .specs word.objKind specs
  | .expr x | .incDec x _ _ | .go _ x | .defer _ x => .still fun _ => x.advance_events _
  | .assign lhs _ op rhs => (Adds.still fun _ => advance_exprsEvents _ rhs).append
      (.targets (op == .define) lhs)
  | .ret _ results => .still fun _ => advance_exprsEvents _ results
  | .jump _ _ _ => .still fun _ => rfl
  | .block ⟨_, list, _⟩ => .scope (resolveStmts_follows list).1
  | .ifElse _ init cond body other =>
    .scope ((((resolveStmt?_follows init).1.append cond.resolve_follows.1).append
      body.resolve_follows.1).append (resolveStmt?_follows other).1)
  | .forLoop _ init cond post body =>
    .scope ((((resolveStmt?_follows init).1.append (resolveExpr?_follows cond).1).append
      (resolveStmt?_follows post).1).append body.resolve_follows.1)
  | .range _ key value _ op x body =>
    (Adds.still fun _ => x.advance_events _).append
      (.scope (((resolveTarget?_follows _ key).1.append
      (resolveTarget?_follows _ value).1).append body.resolve_follows.1))
  | .labeled _ _ stmt => stmt.adds_declared
  | .send chan _ value => (Adds.still fun _ => chan.advance_events _).append
      (.still fun _ => value.advance_events _)
  | .switch _ init tag ⟨_, list, _⟩ =>
    .scope (((resolveStmt?_follows init).1.append (resolveExpr?_follows tag).1).append
      (resolveStmts_follows list).1)
  | .typeSwitch _ init guard ⟨_, list, _⟩ =>
    .scope (((resolveStmt?_follows init).1.append guard.resolve_follows.1).append
      (resolveStmts_follows list).1)
  | .select _ ⟨_, list, _⟩ => .stmts fun s _ => s.adds_declared
  | .caseClause _ list _ body =>
    (Adds.still fun _ => advance_exprsEvents _ list).append (.scope (resolveStmts_follows body).1)
  | .commClause _ comm _ body => .scope
      ((resolveStmt?_follows comm).1.append (resolveStmts_follows body).1)

/-- Events that close what they open do nothing where no scope is open. -/
theorem Balanced.advance_nil {es : List Event} (h : Balanced es) : advance [] es = [] := by
  induction h with
  | nil => rfl
  | @declares name _ _ _ ih =>
    by_cases hname : name = "_" <;> simpa [advance, Event.apply, hname, Scopes.declare] using ih
  | uses _ ih => exact ih
  | scope inner _ _ ih =>
    obtain ⟨frame, hf⟩ := inner.advance_cons [] []
    simpa [advance, Event.apply, advance_append, hf] using ih

/-- Resolution changes objects only. An expression leaves all scopes as they were. A statement
leaves all scopes but the innermost as they were, and adds to that one what it declares there, which
hides what the scope had under these names. A file leaves no scope open. -/
theorem resolve_frame :
    (∀ (e : Expr) (scopes : Scopes), (e.resolve scopes).2 = scopes ∧ (e.resolve scopes).1.move id =
      e.move id) ∧
    (∀ s : Stmt, (s.resolve []).2 = [] ∧
      (∀ frame outer, ∃ frame', (s.resolve (frame :: outer)).2 = frame' :: outer ∧
        ∀ name, frame'.lookup name = (s.declared.reverse.lookup name).or (frame.lookup name)) ∧
      ∀ scopes, (s.resolve scopes).1.move id = s.move id) ∧
    ∀ file : File, (∀ scopes, (resolveDecls file.decls scopes).2 = scopes) ∧
      file.resolve = { file with decls := file.resolve.decls } ∧
      file.resolve.decls.map (Decl.move id) = file.decls.map (Decl.move id) := by
  refine ⟨fun e scopes => ⟨?_, e.resolve_move id scopes⟩, fun s =>
    ⟨?_, fun frame outer => ?_, s.resolve_move id⟩, fun file =>
      ⟨fun scopes => ?_, rfl, file.resolve_decls_move id⟩⟩
  · rw [(e.resolve_follows.2 scopes).2, e.advance_events]
  · rw [(s.resolve_follows.2 []).2, s.resolve_follows.1.advance_nil]
  · refine ⟨s.declared.reverse ++ frame, ?_, fun name => List.lookup_append⟩
    rw [(s.resolve_follows.2 _).2, s.adds_declared]
  · have hdecls := resolveDecls_follows file.decls
    exact (hdecls.nested.2 scopes).2.trans (hdecls.1.advance_inScope scopes)

end GoFun
