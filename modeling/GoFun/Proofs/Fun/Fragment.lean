import GoFun.Proofs.Fun.Faithful

/-!
# The fragment with Fun forms

Lowering stops at the first failure. Here all the failures of a tree are listed, each part of the
tree for itself. The files without any are the ones in the fragment, and for the others the head of
the list is what lowering reports.
-/
namespace GoFun.Fun

variable {α β : Type} {faults : List Failure} {c : Config} {e : GoFun.Expr} {x : Lowering α}

/-- Expressions with a Fun form. -/
inductive Supported (c : Config) : GoFun.Expr → Prop where
  | var {id : Ident} {obj : Object} (hobj : id.obj = some obj) (hkind : obj.kind = .var) : Supported
    c (.ident id)
  | binary {x y : GoFun.Expr} {opPos : Pos} {op : BinaryOp} (hx : Supported c x)
    (hy : Supported c y) :
    Supported c (.binary x opPos op y)
  | funcName {package sel : Ident} : Supported c (.selector (.ident package) sel)
  | call {package sel : Ident} {args : List GoFun.Expr} {lparen dots rparen : Pos}
    (hargs : ∀ e ∈ args, Supported c e) : Supported c
    (.call (.selector (.ident package) sel) lparen args dots rparen)
  | lit {l : Literal} {f : Expr} (hl : lowerLiteral c l = .ok f) : Supported c (.lit l)

/-- The only statement of a body gives its value. -/
inductive SupportedStmt (c : Config) : Stmt → Prop where
  | expr {x : GoFun.Expr} (hx : Supported c x) : SupportedStmt c (.expr x)
  | ret {retPos : Pos} {results : List GoFun.Expr} (hne : results ≠ [])
    (hresults : ∀ e ∈ results, Supported c e) :
    SupportedStmt c (.ret retPos results)

def AllNamed (fields : List Field) : Prop := ∀ field ∈ fields, ∃ id, field.type = .ident id

structure SupportedImport (c : Config) (spec : ImportSpec) : Prop where
  noAlias : spec.name = none
  path : ∃ l s, spec.path = .lit l ∧ lowerLiteral c l = .ok (.string s)

structure SupportedFunc (c : Config) (f : FuncDecl) : Prop where
  params : AllNamed f.params.list
  results : ∀ fields ∈ f.results, AllNamed fields.list
  body : ∃ body, f.body = some body ∧
    (body.list.length ≠ 1 ∨ ∃ s, body.list = [s] ∧ SupportedStmt c s)

def SupportedDecl (c : Config) : Decl → Prop
  | .func f => SupportedFunc c f
  | .gen _ => c.strictTopLevels = false

structure SupportedFile (c : Config) (file : File) : Prop where
  imports : ∀ spec ∈ file.imports, SupportedImport c spec
  decls : ∀ d ∈ file.decls, SupportedDecl c d

def identFaults (id : Ident) : List Failure :=
  match id.obj with
  | some obj => if obj.kind = .var then [] else [.unsupported .unsupportedObjKind obj.outline]
  | none => [.unsupported .unresolvedIdent id.outline]

def literalFaults (c : Config) (l : Literal) : List Failure :=
  match lowerLiteral c l with
  | .ok _ => []
  | .error failure => [failure]

/-- A name with its package, which stands for a function. -/
def isQualified : GoFun.Expr → Bool
  | .selector (.ident _) _ => true
  | _ => false

def isString : GoFun.Expr → Bool
  | .lit l => l.kind == .string
  | _ => false

/-- The failure of a part that is not what it has to be. -/
def faultUnless (fits : Bool) (reason : Reason) (part : Outline) : List Failure :=
  if fits then [] else [.unsupported reason part]

mutual

/-- A callee fails before the arguments, and by itself before it fails as no function. -/
def exprFaults (c : Config) : GoFun.Expr → List Failure
  | .ident id => identFaults id
  | .binary x _ _ y => exprFaults c x ++ exprFaults c y
  | .selector (.ident _) _ => []
  | .selector x _ => [.unsupported .unsupportedArgument x.outline]
  | .call f _ args _ _ => exprFaults c f ++
      (faultUnless (isQualified f) .expectedFunction f.outline ++ exprsFaults c args)
  | .lit l => literalFaults c l
  | e => [.unsupported .unsupportedExpr e.outline]

def exprsFaults (c : Config) : List GoFun.Expr → List Failure
  | [] => []
  | e :: es => exprFaults c e ++ exprsFaults c es

end

def stmtFaults (c : Config) : Stmt → List Failure
  | .ret retPos [] => [.unsupported .emptyResults (Stmt.ret retPos []).outline]
  | .ret _ results => exprsFaults c results
  | .expr x => exprFaults c x
  | s => [.unsupported .unsupportedStmt s.outline]

def typeFaults : GoFun.Expr → List Failure
  | .ident _ => []
  | e => [.unsupported .unsupportedType e.outline]

def fieldsFaults (fields : List Field) : List Failure :=
  fields.flatMap fun field => typeFaults field.type

/-- Statements are kept as text unless there is a single one. -/
def bodyFaults (c : Config) : List Stmt → List Failure
  | [s] => stmtFaults c s
  | _ => []

/-- The types come before the body. -/
def funcFaults (c : Config) (f : FuncDecl) : List Failure :=
  fieldsFaults f.params.list ++ (fieldsFaults ((f.results.map FieldList.list).getD []) ++
    match f.body with
    | some body => bodyFaults c body.list
    | none => [.unsupported .emptyBody f.outline])

def importFaults (c : Config) (spec : ImportSpec) : List Failure :=
  match spec.name with
  | some name => [.unsupported .importAlias name.outline]
  | none => exprFaults c spec.path ++
    faultUnless (isString spec.path) .notStringLiteral spec.path.outline

def declFaults (c : Config) : Decl → List Failure
  | .func f => funcFaults c f
  | .gen g => faultUnless (!c.strictTopLevels) .unsupportedTopLevel g.outline

/-- Imports come before declarations. -/
def fileFaults (c : Config) (file : File) : List Failure :=
  file.imports.flatMap (importFaults c) ++ file.decls.flatMap (declFaults c)

/-- A lowering without failures gives its result, and one with failures reports the first of
them. -/
def Reports {α : Type} (x : Lowering α) (faults : List Failure) : Prop :=
  match x with
  | .ok _ => faults = []
  | .error failure => faults.head? = some failure

theorem reports_ok (a : α) : Reports (.ok a : Lowering α) [] := rfl

theorem reports_unsupported (reason : Reason) (part : Outline) (faults : List Failure) :
    Reports (unsupported reason part : Lowering α) (.unsupported reason part :: faults) := rfl

theorem Reports.bind {k : α → Lowering β} {faults' : List Failure} (hx : Reports x faults)
    (hk : ∀ a, x = .ok a → Reports (k a) faults') : Reports (x >>= k) (faults ++ faults') := by
  cases x with
  | ok a =>
    obtain rfl : faults = [] := hx
    exact hk a rfl
  | error failure =>
    have hhead : faults.head? = some failure := hx
    exact show (faults ++ faults').head? = some failure by simp [List.head?_append, hhead]

theorem Reports.map (hx : Reports x faults) (f : α → β) : Reports (do return f (← x)) faults := by
  have hbind := hx.bind (k := fun a => .ok (f a)) fun a _ => reports_ok (f a)
  rwa [List.append_nil] at hbind

theorem Reports.exists_ok_iff (h : Reports x faults) : (∃ a, x = .ok a) ↔ faults = [] := by
  cases x with
  | ok a => exact ⟨fun _ => h, fun _ => ⟨a, rfl⟩⟩
  | error failure =>
    have hhead : faults.head? = some failure := h
    refine ⟨fun ⟨a, ha⟩ => (by cases ha), fun hnil => ?_⟩
    simp [hnil] at hhead

theorem Reports.eq_error_iff (h : Reports x faults) (failure : Failure) :
    x = .error failure ↔ faults.head? = some failure := by
  cases x with
  | ok a =>
    obtain rfl : faults = [] := h
    simp
  | error cause =>
    have hhead : faults.head? = some cause := h
    rw [hhead]
    simp

theorem reports_ident (id : Ident) : Reports (lowerIdent id) (identFaults id) := by
  unfold lowerIdent identFaults
  cases id.obj with
  | none => exact reports_unsupported _ _ _
  | some obj =>
    by_cases hkind : obj.kind = .var
    · simpa [hkind] using reports_ok _
    · simpa [hkind] using reports_unsupported _ _ _

theorem reports_literal (c : Config) (l : Literal) :
    Reports (lowerLiteral c l) (literalFaults c l) := by
  unfold literalFaults
  split
  case h_1 f hf => simpa [hf] using reports_ok f
  case h_2 failure hf => rw [hf]; rfl

/-- What a literal becomes is told by its kind. -/
def literalOf : LitKind → Expr → Prop
  | .int, .int _ | .float, .double _ | .string, .string _ | .char, .char _ => True
  | _, _ => False

theorem mapError_map_eq_ok {ε : Type} {x : Except ε α} {f : α → β} {g : ε → Failure} {b : β}
    (h : (x.map f).mapError g = .ok b) : ∃ a, b = f a := by
  cases x with
  | error cause => cases h
  | ok a => exact ⟨a, (Except.ok.inj h).symm⟩

theorem literalOf_lowerLiteral {l : Literal} {f : Expr} (h : lowerLiteral c l = .ok f) :
    literalOf l.kind f := by
  unfold lowerLiteral at h
  split at h
  case h_1 hkind =>
    obtain ⟨v, rfl⟩ := mapError_map_eq_ok h
    simp [hkind, literalOf]
  case h_2 hkind =>
    obtain ⟨v, rfl⟩ := mapError_map_eq_ok h
    simp [hkind, literalOf]
  case h_3 hkind =>
    obtain rfl := Except.ok.inj h
    simp [hkind, literalOf]
  case h_4 hkind =>
    unfold lowerChar at h
    split at h
    · cases h
    · obtain rfl := Except.ok.inj h
      simp [hkind, literalOf]
    · split at h
      · cases h
      · obtain rfl := Except.ok.inj h
        simp [hkind, literalOf]
  case h_5 => cases h

/-- The expressions that are lowered to the name of a function or to a string. -/
theorem lowerExpr_head {f : Expr} (h : lowerExpr c e = .ok f) :
    ((∃ name, f = .funcName name) ↔ isQualified e = true) ∧
    ((∃ s, f = .string s) ↔ isString e = true) := by
  unfold lowerExpr at h
  split at h
  case h_1 id =>
    unfold lowerIdent at h
    split at h
    · split at h
      · obtain rfl := Except.ok.inj h
        simp [isQualified, isString]
      · cases h
    · cases h
  case h_2 =>
    obtain ⟨fx, -, h⟩ := bind_eq_ok h
    obtain ⟨fy, -, h⟩ := bind_eq_ok h
    obtain rfl := Except.ok.inj h
    simp [isQualified, isString]
  case h_3 =>
    obtain rfl := Except.ok.inj h
    simp [isQualified, isString]
  case h_4 => cases h
  case h_5 =>
    obtain ⟨g, -, h⟩ := bind_eq_ok h
    split at h
    · obtain ⟨fs, -, h⟩ := bind_eq_ok h
      obtain rfl := Except.ok.inj h
      simp [isQualified, isString]
    · cases h
  case h_6 l =>
    have hkind := literalOf_lowerLiteral h
    cases f <;> cases hl : l.kind <;> simp_all [literalOf, isQualified, isString]
  case h_7 => cases h

mutual

theorem reports_expr (c : Config) (e : GoFun.Expr) : Reports (lowerExpr c e) (exprFaults c e) := by
  cases e with
  | ident id => exact reports_ident id
  | lit l => exact reports_literal c l
  | binary x opPos op y =>
    exact (reports_expr c x).bind fun fx _ => (reports_expr c y).map _
  | selector x sel =>
    cases x with
    | ident package => exact reports_ok _
    | _ => exact reports_unsupported _ _ _
  | call f lparen args dots rparen =>
    refine (reports_expr c f).bind fun g hg => ?_
    have hhead := (lowerExpr_head hg).1
    split
    case h_1 name =>
      rw [faultUnless, if_pos (hhead.1 ⟨name, rfl⟩)]
      exact (reports_exprs c args).map _
    case h_2 hne =>
      rw [faultUnless, if_neg fun h => (hhead.2 h).elim hne]
      exact reports_unsupported _ _ _
  | _ => exact reports_unsupported _ _ _

theorem reports_exprs (c : Config) (es : List GoFun.Expr) :
    Reports (lowerExprs c es) (exprsFaults c es) := by
  cases es with
  | nil => exact reports_ok _
  | cons e es => exact (reports_expr c e).bind fun f _ => (reports_exprs c es).map _

end

theorem reports_stmt (c : Config) (s : Stmt) : Reports (lowerStmt c s) (stmtFaults c s) := by
  cases s with
  | expr x => exact reports_expr c x
  | ret retPos results =>
    match results with
    | [] => exact reports_unsupported _ _ _
    | [e] => simpa [lowerStmt, stmtFaults, exprsFaults] using reports_expr c e
    | e :: e' :: es => exact (reports_exprs c _).map _
  | _ => exact reports_unsupported _ _ _

theorem reports_type (e : GoFun.Expr) : Reports (lowerType e) (typeFaults e) := by
  cases e with
  | ident id => exact reports_ok _
  | _ => exact reports_unsupported _ _ _

theorem reports_params (fields : List Field) :
    Reports (lowerParams fields) (fieldsFaults fields) := by
  induction fields with
  | nil => exact reports_ok _
  | cons field fields ih => exact (reports_type field.type).bind fun _ _ => ih.map _

theorem reports_results (fields : List Field) :
    Reports (lowerResults fields) (fieldsFaults fields) := by
  induction fields with
  | nil => exact reports_ok _
  | cons field fields ih => exact (reports_type field.type).bind fun _ _ => ih.map _

theorem reports_body (m : SourceMap) (c : Config) (stmts : List Stmt) :
    Reports (lowerBody m c stmts) (bodyFaults c stmts) := by
  match stmts with
  | [] => exact reports_ok _
  | [s] => exact (reports_stmt c s).map _
  | _ :: _ :: _ => exact reports_ok _

theorem reports_function (m : SourceMap) (c : Config) (f : FuncDecl) :
    Reports (lowerFunction m c f) (funcFaults c f) := by
  refine (reports_params _).bind fun params _ => (reports_results _).bind fun results _ => ?_
  cases f.body with
  | some body => exact (reports_body m c body.list).map _
  | none => exact reports_unsupported _ _ _

theorem reports_import (c : Config) (spec : ImportSpec) :
    Reports (lowerImport c spec) (importFaults c spec) := by
  unfold lowerImport importFaults
  cases spec.name with
  | some name => exact reports_unsupported _ _ _
  | none =>
    refine (reports_expr c spec.path).bind fun f hf => ?_
    have hhead := (lowerExpr_head hf).2
    split
    case h_1 path =>
      rw [faultUnless, if_pos (hhead.1 ⟨path, rfl⟩)]
      exact reports_ok _
    case h_2 hne =>
      rw [faultUnless, if_neg fun h => (hhead.2 h).elim hne]
      exact reports_unsupported _ _ _

theorem reports_imports (c : Config) (specs : List ImportSpec) :
    Reports (lowerImports c specs) (specs.flatMap (importFaults c)) := by
  induction specs with
  | nil => exact reports_ok _
  | cons spec specs ih => exact (reports_import c spec).bind fun _ _ => ih.map _

theorem reports_decls (m : SourceMap) (c : Config) (decls : List Decl) :
    Reports (lowerDecls m c decls) (decls.flatMap (declFaults c)) := by
  induction decls with
  | nil => exact reports_ok _
  | cons d decls ih =>
    cases d with
    | func f => exact (reports_function m c f).bind fun _ _ => ih.map _
    | gen g =>
      unfold lowerDecls
      by_cases hstrict : c.strictTopLevels = true
      · simpa [hstrict, declFaults, faultUnless] using reports_unsupported _ _ _
      · simpa [hstrict, declFaults, faultUnless] using ih

theorem reports_file (m : SourceMap) (c : Config) (file : File) :
    Reports (lowerFile m c file) (fileFaults c file) :=
  (reports_imports c file.imports).bind fun _ _ => (reports_decls m c file.decls).map _

@[simp] theorem faultUnless_eq_nil {fits : Bool} {reason : Reason} {part : Outline} :
    faultUnless fits reason part = [] ↔ fits = true := by
  cases fits <;> simp [faultUnless]

theorem identFaults_eq_nil {id : Ident} :
    identFaults id = [] ↔ ∃ obj, id.obj = some obj ∧ obj.kind = .var := by
  unfold identFaults
  cases id.obj with
  | none => simp
  | some obj => by_cases hkind : obj.kind = .var <;> simp [hkind]

theorem exprsFaults_eq_nil {es : List GoFun.Expr} :
    exprsFaults c es = [] ↔ ∀ e ∈ es, exprFaults c e = [] := by
  induction es with
  | nil => simp [exprsFaults]
  | cons e es ih => simp [exprsFaults, ih]

theorem isQualified_iff {f : GoFun.Expr} :
    isQualified f = true ↔ ∃ package sel, f = .selector (.ident package) sel := by
  unfold isQualified
  split <;> simp_all

theorem Supported.exprFaults_eq_nil (h : Supported c e) : exprFaults c e = [] := by
  induction h with
  | var hobj hkind => exact identFaults_eq_nil.2 ⟨_, hobj, hkind⟩
  | binary _ _ ihx ihy => simp [exprFaults, ihx, ihy]
  | funcName => rfl
  | call _ ih => simp [exprFaults, isQualified, exprsFaults_eq_nil.2 ih]
  | lit hl => simp [exprFaults, literalFaults, hl]

mutual

theorem supported_of_exprFaults (c : Config) (e : GoFun.Expr) (h : exprFaults c e = []) :
    Supported c e := by
  cases e with
  | ident id =>
    obtain ⟨obj, hobj, hkind⟩ := identFaults_eq_nil.1 h
    exact .var hobj hkind
  | lit l =>
    unfold exprFaults literalFaults at h
    split at h
    case h_1 f hf => exact .lit hf
    case h_2 => cases h
  | binary x opPos op y =>
    obtain ⟨hx, hy⟩ := List.append_eq_nil_iff.1 h
    exact .binary (supported_of_exprFaults c x hx) (supported_of_exprFaults c y hy)
  | selector x sel =>
    cases x with
    | ident package => exact .funcName
    | _ => cases h
  | call f lparen args dots rparen =>
    obtain ⟨-, h⟩ := List.append_eq_nil_iff.1 h
    obtain ⟨hf, hargs⟩ := List.append_eq_nil_iff.1 h
    obtain ⟨package, sel, rfl⟩ := isQualified_iff.1 (faultUnless_eq_nil.1 hf)
    exact .call (supported_of_exprsFaults c args hargs)
  | _ => cases h

theorem supported_of_exprsFaults (c : Config) (es : List GoFun.Expr) (h : exprsFaults c es = []) :
    ∀ e ∈ es, Supported c e := by
  cases es with
  | nil => simp
  | cons e es =>
    obtain ⟨he, hes⟩ := List.append_eq_nil_iff.1 h
    exact List.forall_mem_cons.2 ⟨supported_of_exprFaults c e he, supported_of_exprsFaults c es hes⟩

end

theorem exprFaults_eq_nil : exprFaults c e = [] ↔ Supported c e :=
  ⟨supported_of_exprFaults c e, Supported.exprFaults_eq_nil⟩

theorem stmtFaults_eq_nil {s : Stmt} : stmtFaults c s = [] ↔ SupportedStmt c s := by
  constructor
  · intro h
    cases s with
    | expr x => exact .expr (exprFaults_eq_nil.1 h)
    | ret retPos results =>
      cases results with
      | nil => cases h
      | cons e es => exact .ret (by simp) fun x hx =>
        exprFaults_eq_nil.1 (exprsFaults_eq_nil.1 h x hx)
    | _ => cases h
  · intro h
    cases h with
    | expr hx => exact exprFaults_eq_nil.2 hx
    | @ret retPos results hne hresults =>
      cases results with
      | nil => exact absurd rfl hne
      | cons e es => exact exprsFaults_eq_nil.2 fun x hx => exprFaults_eq_nil.2 (hresults x hx)

theorem fieldsFaults_eq_nil {fields : List Field} : fieldsFaults fields = [] ↔ AllNamed fields := by
  have htype : ∀ e, typeFaults e = [] ↔ ∃ id, e = .ident id := by
    intro e
    cases e <;> simp [typeFaults]
  simp [fieldsFaults, AllNamed, htype]

theorem bodyFaults_eq_nil {stmts : List Stmt} :
    bodyFaults c stmts = [] ↔ stmts.length ≠ 1 ∨ ∃ s, stmts = [s] ∧ SupportedStmt c s := by
  match stmts with
  | [] => simp [bodyFaults]
  | [s] => simp [bodyFaults, stmtFaults_eq_nil]
  | _ :: _ :: _ => simp [bodyFaults]

theorem funcFaults_eq_nil {f : FuncDecl} : funcFaults c f = [] ↔ SupportedFunc c f := by
  have hresults : fieldsFaults ((f.results.map FieldList.list).getD []) = [] ↔ ∀ fields ∈ f.results,
      AllNamed fields.list := by
    cases f.results with
    | none => simp [fieldsFaults]
    | some fields => simp [fieldsFaults_eq_nil]
  unfold funcFaults
  rw [List.append_eq_nil_iff, List.append_eq_nil_iff, fieldsFaults_eq_nil, hresults]
  constructor
  · rintro ⟨hparams, hresults, hbody⟩
    refine ⟨hparams, hresults, ?_⟩
    cases hb : f.body with
    | none => simp [hb] at hbody
    | some body => exact ⟨body, rfl, bodyFaults_eq_nil.1 (by simpa [hb] using hbody)⟩
  · rintro ⟨hparams, hresults, body, hb, hbody⟩
    exact ⟨hparams, hresults, by simpa [hb] using bodyFaults_eq_nil.2 hbody⟩

theorem importFaults_eq_nil {spec : ImportSpec} :
    importFaults c spec = [] ↔ SupportedImport c spec := by
  unfold importFaults
  constructor
  · intro h
    cases hname : spec.name with
    | some name => simp [hname] at h
    | none =>
      simp only [hname, List.append_eq_nil_iff, faultUnless_eq_nil] at h
      refine ⟨hname, ?_⟩
      cases hpath : spec.path with
      | lit l =>
        have hkind : l.kind = .string := by simpa [hpath, isString] using h.2
        exact ⟨l, _, rfl, by rw [lowerLiteral, hkind]⟩
      | _ => simp [hpath, isString] at h
  · rintro ⟨hname, l, s, hpath, hl⟩
    have hkind : l.kind = .string := by
      have hkind := literalOf_lowerLiteral hl
      cases hk : l.kind <;> simp_all [literalOf]
    simp [hname, hpath, exprFaults, literalFaults, hl, isString, hkind]

theorem declFaults_eq_nil {d : Decl} : declFaults c d = [] ↔ SupportedDecl c d := by
  cases d with
  | func f => exact funcFaults_eq_nil
  | gen g => simp [declFaults, SupportedDecl]

theorem fileFaults_eq_nil {file : File} : fileFaults c file = [] ↔ SupportedFile c file := by
  simp only [fileFaults, List.append_eq_nil_iff, List.flatMap_eq_nil_iff, importFaults_eq_nil,
    declFaults_eq_nil]
  exact ⟨fun h => ⟨h.1, h.2⟩, fun h => ⟨h.imports, h.decls⟩⟩

/-- Exactly the files of the fragment are lowered. For any other file the failure is the first one
in the order of imports and declarations, and within a function in that of parameter types, result
types and body. -/
theorem lowerFile_fragment (m : SourceMap) (c : Config) (file : File) :
    ((∃ module, lowerFile m c file = .ok module) ↔ SupportedFile c file) ∧
      ∀ failure, lowerFile m c file = .error failure ↔ (fileFaults c file).head? = some failure :=
  ⟨(reports_file m c file).exists_ok_iff.trans fileFaults_eq_nil,
    (reports_file m c file).eq_error_iff⟩

end GoFun.Fun
