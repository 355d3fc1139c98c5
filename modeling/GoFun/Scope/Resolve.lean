import GoFun.Scope.Basic

/-!
# Resolution of names

`File.resolve` gives each identifier that refers to a declaration of the same file its object. Names
of packages, predeclared names, members behind a dot, labels, methods and field names used as keys
are left alone. What is declared at package level is visible in the whole file; all other names are
visible from their declaration to the end of their scope.
-/
namespace GoFun

open Scoping

attribute [local instance (high)] Applicative.toFunctor

def DeclWord.objKind : DeclWord → ObjKind
  | var => .var
  | const => .const
  | type => .type

mutual

def Expr.resolve : Expr → Scoping Expr
  | .ident id => return .ident (← use id)
  | .lit l => return .lit l
  | .paren lparen x rparen => return .paren lparen (← x.resolve) rparen
  | .selector x sel => return .selector (← x.resolve) sel
  | .index x lbrack i rbrack => return .index (← x.resolve) lbrack (← i.resolve) rbrack
  | .call f lparen args dots rparen =>
    return .call (← f.resolve) lparen (← resolveExprs args) dots rparen
  | .star starPos x => return .star starPos (← x.resolve)
  | .unary opPos op x => return .unary opPos op (← x.resolve)
  | .binary x opPos op y => return .binary (← x.resolve) opPos op (← y.resolve)
  | .array lbrack len elem => return .array lbrack (← resolveExpr? len) (← elem.resolve)
  | .map mapPos key value => return .map mapPos (← key.resolve) (← value.resolve)
  | .chan chanPos dir value => return .chan chanPos dir (← value.resolve)
  | .struct structPos fields => return .struct structPos (← nested (fields.resolve .var))
  | .composite type lbrace elems rbrace =>
    return .composite (← resolveExpr? type) lbrace (← resolveElems elems) rbrace
  | .keyValue key colon value => return .keyValue (← key.resolve) colon (← value.resolve)
  | .funcLit type ⟨lbrace, list, rbrace⟩ => nested do
    return .funcLit (← type.resolve) ⟨lbrace, ← resolveStmts list, rbrace⟩
  | .slice x lbrack low high max rbrack =>
    return .slice (← x.resolve) lbrack (← resolveExpr? low) (← resolveExpr? high)
      (← resolveExpr? max) rbrack
  | .assertion x lparen type rparen =>
    return .assertion (← x.resolve) lparen (← resolveExpr? type) rparen
  | .ellipsis dots elem => return .ellipsis dots (← resolveExpr? elem)
  | .func type => return .func (← nested type.resolve)
  | .interface interfacePos methods =>
    return .interface interfacePos (← nested (methods.resolve .func))

def resolveExprs : List Expr → Scoping (List Expr)
  | [] => return []
  | e :: es => return (← e.resolve) :: (← resolveExprs es)

def resolveExpr? : Option Expr → Scoping (Option Expr)
  | none => return none
  | some e => return some (← e.resolve)

/-- A key that is a plain name is the name of a field and is not looked up. -/
def resolveElems : List Expr → Scoping (List Expr)
  | [] => return []
  | .keyValue (.ident key) colon value :: es =>
    return .keyValue (.ident key) colon (← value.resolve) :: (← resolveElems es)
  | e :: es => return (← e.resolve) :: (← resolveElems es)

/-- The left side of an assignment. Where it defines, plain names are declared. -/
def resolveTargets (defines : Bool) : List Expr → Scoping (List Expr)
  | [] => return []
  | .ident id :: es =>
    return .ident (← if defines then declare .var id else use id) :: (← resolveTargets defines es)
  | e :: es => return (← e.resolve) :: (← resolveTargets defines es)

def resolveTarget? (defines : Bool) : Option Expr → Scoping (Option Expr)
  | none => return none
  | some (.ident id) => return some (.ident (← if defines then declare .var id else use id))
  | some e => return some (← e.resolve)

/-- Each field's type is looked up before its names are declared. -/
def FieldList.resolve (kind : ObjKind) : FieldList → Scoping FieldList
  | ⟨opening, list, closing⟩ => return ⟨opening, ← resolveFields kind list, closing⟩

def resolveFields (kind : ObjKind) : List Field → Scoping (List Field)
  | [] => return []
  | ⟨names, type, tag⟩ :: fields => do
    let type ← type.resolve
    let names ← names.mapM (declare kind)
    return ⟨names, type, tag⟩ :: (← resolveFields kind fields)

def resolveFieldList? : Option FieldList → Scoping (Option FieldList)
  | none => return none
  | some fields => return some (← fields.resolve .var)

/-- Parameters and results are declared in the scope at hand. -/
def FuncType.resolve : FuncType → Scoping FuncType
  | ⟨funcPos, params, results⟩ =>
    return ⟨funcPos, ← params.resolve .var, ← resolveFieldList? results⟩

def Block.resolve : Block → Scoping Block
  | ⟨lbrace, list, rbrace⟩ => return ⟨lbrace, ← nested (resolveStmts list), rbrace⟩

/-- The name of a type is visible in its own definition, the name of a value is not. -/
def resolveSpecs (kind : ObjKind) : List Spec → Scoping (List Spec)
  | [] => return []
  | .value names type values :: specs => do
    let type ← resolveExpr? type
    let values ← resolveExprs values
    let names ← names.mapM (declare kind)
    return .value names type values :: (← resolveSpecs kind specs)
  | .type name equals type :: specs => do
    let name ← declare kind name
    return .type name equals (← type.resolve) :: (← resolveSpecs kind specs)

def Stmt.resolve : Stmt → Scoping Stmt
  | .decl ⟨wordPos, word, lparen, specs, rparen⟩ =>
    return .decl ⟨wordPos, word, lparen, ← resolveSpecs word.objKind specs, rparen⟩
  | .expr x => return .expr (← x.resolve)
  | .assign lhs opPos op rhs => do
    let rhs ← resolveExprs rhs
    return .assign (← resolveTargets (op == .define) lhs) opPos op rhs
  | .incDec x stepPos step => return .incDec (← x.resolve) stepPos step
  | .ret retPos results => return .ret retPos (← resolveExprs results)
  | .jump jumpPos word label => return .jump jumpPos word label
  | .block b => return .block (← b.resolve)
  | .ifElse ifPos init cond body other => nested do
    return .ifElse ifPos (← resolveStmt? init) (← cond.resolve) (← body.resolve)
      (← resolveStmt? other)
  | .forLoop forPos init cond post body => nested do
    return .forLoop forPos (← resolveStmt? init) (← resolveExpr? cond) (← resolveStmt? post)
      (← body.resolve)
  | .range forPos key value opPos op x body => do
    let x ← x.resolve
    nested do
      let key ← resolveTarget? (op == some .define) key
      let value ← resolveTarget? (op == some .define) value
      return .range forPos key value opPos op x (← body.resolve)
  | .go goPos call => return .go goPos (← call.resolve)
  | .defer deferPos call => return .defer deferPos (← call.resolve)
  | .labeled label colon stmt => return .labeled label colon (← stmt.resolve)
  | .send chan arrow value => return .send (← chan.resolve) arrow (← value.resolve)
  | .switch switchPos init tag ⟨lbrace, list, rbrace⟩ => nested do
    return .switch switchPos (← resolveStmt? init) (← resolveExpr? tag)
      ⟨lbrace, ← resolveStmts list, rbrace⟩
  | .typeSwitch switchPos init guard ⟨lbrace, list, rbrace⟩ => nested do
    return .typeSwitch switchPos (← resolveStmt? init) (← guard.resolve)
      ⟨lbrace, ← resolveStmts list, rbrace⟩
  | .select selectPos ⟨lbrace, list, rbrace⟩ =>
    return .select selectPos ⟨lbrace, ← resolveStmts list, rbrace⟩
  | .caseClause casePos list colon body => do
    let list ← resolveExprs list
    return .caseClause casePos list colon (← nested (resolveStmts body))
  | .commClause casePos comm colon body => nested do
    return .commClause casePos (← resolveStmt? comm) colon (← resolveStmts body)

def resolveStmts : List Stmt → Scoping (List Stmt)
  | [] => return []
  | s :: ss => return (← s.resolve) :: (← resolveStmts ss)

def resolveStmt? : Option Stmt → Scoping (Option Stmt)
  | none => return none
  | some s => return some (← s.resolve)

end

def Spec.declareNames (kind : ObjKind) : Spec → Scoping Spec
  | .value names t values => return .value (← names.mapM (declare kind)) t values
  | .type name equals t => return .type (← declare kind name) equals t

/-- Declares what a declaration adds to the package. Methods are reached through their receiver and
add nothing. -/
def Decl.declareNames : Decl → Scoping Decl
  | .func f =>
    if f.recv.isSome then return .func f
    else return .func { f with name := ← declare .func f.name }
  | .gen g => return .gen { g with specs := ← g.specs.mapM (·.declareNames g.word.objKind) }

/-- The names that a package declares are known beforehand; only their definitions are left. -/
def Spec.resolveDefinition : Spec → Scoping Spec
  | .value names t values => return .value names (← resolveExpr? t) (← resolveExprs values)
  | .type name equals t => return .type name equals (← t.resolve)

/-- Receiver, parameters, results and body share one scope. -/
def FuncDecl.resolve (f : FuncDecl) : Scoping FuncDecl := nested do
  let recv ← resolveFieldList? f.recv
  let type ← FuncType.resolve ⟨f.funcPos, f.params, f.results⟩
  let body ← f.body.mapM fun b => return { b with list := ← resolveStmts b.list }
  return { f with recv, params := type.params, results := type.results, body }

def Decl.resolve : Decl → Scoping Decl
  | .func f => return .func (← f.resolve)
  | .gen g => return .gen { g with specs := ← g.specs.mapM Spec.resolveDefinition }

def resolveDecls (decls : List Decl) : Scoping (List Decl) := nested do
  let decls ← decls.mapM Decl.declareNames
  decls.mapM Decl.resolve

def File.resolve (file : File) : File :=
  { file with decls := (resolveDecls file.decls).run' [] }

end GoFun
