import GoFun.Fun.Failure
import GoFun.Fun.Module
import GoFun.Outline.Tree
import GoFun.Printer.Basic

/-!
# Lowering Go trees to Fun modules

A tree is lowered as a whole or not at all: the first part without a Fun form is the failure.
Imports come before declarations, declarations go in source order, and in a function the parameter
types come before the result types, these before the body.
-/
namespace GoFun.Fun

structure Config where
  /-- Variables, constants and types at package level are failures, instead of being left out. -/
  strictTopLevels : Bool := false
  /-- A character literal of more than one character is a failure, instead of its first
  character. -/
  rejectLongChars : Bool := false
  deriving DecidableEq, Repr

abbrev Lowering := Except Failure

def unsupported {α : Type} (reason : Reason) (part : Outline) : Lowering α :=
  .error (.unsupported reason part)

/-- What stands between two characters `q` at the ends. They must be two, not one and the same. -/
def between? (q : Char) (cs : List Char) : Option (List Char) :=
  match cs with
  | c :: tail => if c == q && tail.getLast? == some q then some tail.dropLast else none
  | [] => none

/-- Takes one pair of quotes away. Escapes stay as they are. -/
def unquote (cs : List Char) : List Char :=
  (between? '"' cs <|> between? '\x60' cs).getD cs

def lowerChar (c : Config) (l : Literal) : Lowering Expr :=
  match (between? '\'' l.text.toList).getD l.text.toList with
  | [] => unsupported .invalidChar l.outline
  | [first] => .ok (.char first)
  | first :: _ =>
    if c.rejectLongChars then unsupported .invalidChar l.outline else .ok (.char first)

def lowerLiteral (c : Config) (l : Literal) : Lowering Expr :=
  match l.kind with
  | .int => ((Number.readInt64 l.text.toList).map Expr.int).mapError Failure.integer
  | .float => ((Number.readDouble l.text.toList).map Expr.double).mapError Failure.double
  | .string => .ok (.string (String.ofList (unquote l.text.toList)))
  | .char => lowerChar c l
  | .imag => unsupported .unexpectedLiteral l.outline

/-- Only variables are values. -/
def lowerIdent (id : Ident) : Lowering Expr :=
  match id.obj with
  | some obj => if obj.kind == .var then .ok (.var id.name)
      else unsupported .unsupportedObjKind obj.outline
  | none => unsupported .unresolvedIdent id.outline

mutual

def lowerExpr (c : Config) : GoFun.Expr → Lowering Expr
  | .ident id => lowerIdent id
  | .binary x _ op y => do
    let x ← lowerExpr c x
    let y ← lowerExpr c y
    return .binary x op.symbol y
  | .selector (.ident package) sel => return .funcName (package.name ++ "." ++ sel.name)
  | .selector x _ => unsupported .unsupportedArgument x.outline
  | .call f _ args _ _ => do
    match ← lowerExpr c f with
    | .funcName name => return .application name (← lowerExprs c args)
    | _ => unsupported .expectedFunction f.outline
  | .lit l => lowerLiteral c l
  | e => unsupported .unsupportedExpr e.outline

def lowerExprs (c : Config) : List GoFun.Expr → Lowering (List Expr)
  | [] => return []
  | e :: es => do
    let e ← lowerExpr c e
    return e :: (← lowerExprs c es)

end

def lowerStmt (c : Config) : Stmt → Lowering Expr
  | .ret retPos [] => unsupported .emptyResults (Stmt.ret retPos []).outline
  | .ret _ [result] => lowerExpr c result
  | .ret _ results => do return .results (← lowerExprs c results)
  | .expr x => lowerExpr c x
  | s => unsupported .unsupportedStmt s.outline

def lowerType : GoFun.Expr → Lowering Ty
  | .ident id => .ok (.atomic id.name)
  | e => unsupported .unsupportedType e.outline

/-- Names without a type of their own share the type of their group; a type without a name is no
parameter. -/
def lowerParams : List Field → Lowering (List Param)
  | [] => return []
  | field :: fields => do
    let type ← lowerType field.type
    return field.names.map (⟨·.name, type⟩) ++ (← lowerParams fields)

/-- One type for each field. -/
def lowerResults : List Field → Lowering (List Ty)
  | [] => return []
  | field :: fields => do
    let type ← lowerType field.type
    return type :: (← lowerResults fields)

/-- A single statement becomes an expression. Any other number of them is kept as text. -/
def lowerBody (m : SourceMap) (c : Config) : List Stmt → Lowering Body
  | [stmt] => do return .single (← lowerStmt c stmt)
  | stmts => return .inline (stmts.map (·.text m))

/-- The receiver of a method is dropped. -/
def lowerFunction (m : SourceMap) (c : Config) (f : FuncDecl) : Lowering Function := do
  let params ← lowerParams f.params.list
  let results ← lowerResults ((f.results.map FieldList.list).getD [])
  match f.body with
  | some body => return ⟨f.name.name, params, results, ← lowerBody m c body.list⟩
  | none => unsupported .emptyBody f.outline

def lowerImport (c : Config) (spec : ImportSpec) : Lowering String :=
  match spec.name with
  | some name => unsupported .importAlias name.outline
  | none => do
    match ← lowerExpr c spec.path with
    | .string path => return path
    | _ => unsupported .notStringLiteral spec.path.outline

def lowerImports (c : Config) : List ImportSpec → Lowering (List String)
  | [] => return []
  | spec :: specs => do
    let path ← lowerImport c spec
    return path :: (← lowerImports c specs)

def lowerDecls (m : SourceMap) (c : Config) : List Decl → Lowering (List Function)
  | [] => return []
  | .func f :: decls => do
    let function ← lowerFunction m c f
    return function :: (← lowerDecls m c decls)
  | .gen g :: decls =>
    if c.strictTopLevels then unsupported .unsupportedTopLevel g.outline else lowerDecls m c decls

def lowerFile (m : SourceMap) (c : Config) (file : File) : Lowering Module := do
  let imports ← lowerImports c file.imports
  let functions ← lowerDecls m c file.decls
  return ⟨file.name.name, imports, functions⟩

end GoFun.Fun
