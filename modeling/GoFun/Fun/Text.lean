import GoFun.Fun.Module
import GoFun.Number.Shortest
import GoFun.Text.Quoted

/-!
# The text of a Fun module

A module is written as nested records, applications and lists. Each part stands on a line of its
own, four columns deeper than what holds it, and ends in a comma; an empty list stays on its line.
-/
namespace GoFun.Fun

inductive Doc where
  | atom (text : String)
  | record (name : String) (fields : List (String × Doc))
  | apply (name : String) (args : List Doc)
  | list (items : List Doc)

def margin (level : Nat) : String := String.ofList (List.replicate (4 * level) ' ')

mutual

/-- The text of a part whose lines after the first one are indented by `level`. -/
def Doc.render (level : Nat) : Doc → String
  | .atom text => text
  | .record name fields =>
    name ++ " \x7b\n" ++ renderFields (level + 1) fields ++ margin level ++ "\x7d"
  | .apply name args => name ++ "(\n" ++ renderItems (level + 1) args ++ margin level ++ ")"
  | .list [] => "[]"
  | .list (item :: items) =>
    "[\n" ++ renderItems (level + 1) (item :: items) ++ margin level ++ "]"

def renderFields (level : Nat) : List (String × Doc) → String
  | [] => ""
  | (name, doc) :: fields =>
    margin level ++ name ++ ": " ++ doc.render level ++ ",\n" ++ renderFields level fields

def renderItems (level : Nat) : List Doc → String
  | [] => ""
  | doc :: docs => margin level ++ doc.render level ++ ",\n" ++ renderItems level docs

end

def Doc.string (s : String) : Doc := .atom (Text.quoteString s)

mutual

def Expr.doc : Expr → Doc
  | .var name => .apply "Var" [.string name]
  | .binary x op y =>
    .apply "BinaryOp" [.record "BinaryOp"
      [("x", x.doc), ("op", .apply "Operator" [.string op]), ("y", y.doc)]]
  | .funcName name => .apply "FuncName" [.apply "FuncName" [.string name]]
  | .application name args =>
    .apply "Application" [.record "Application"
      [("name", .apply "FuncName" [.string name]), ("args", .list (exprDocs args))]]
  | .int value => .apply "IntegerLit" [.atom (toString value.toInt)]
  | .double value => .apply "DoubleLit" [.atom value.text]
  | .string value => .apply "StringLit" [.string value]
  | .char value => .apply "CharLit" [.atom (Text.quoteChar value)]
  | .results values => .apply "Results" [.list (exprDocs values)]

def exprDocs : List Expr → List Doc
  | [] => []
  | e :: es => e.doc :: exprDocs es

end

def Ty.doc : Ty → Doc
  | .atomic name => .apply "Atomic" [.string name]

def Param.doc (p : Param) : Doc := .record "Param" [("name", .string p.name), ("ty", p.type.doc)]

def Body.doc : Body → Doc
  | .single e => .apply "Single" [e.doc]
  | .inline stmts => .apply "Inline" [.list (stmts.map Doc.string)]

def Function.doc (f : Function) : Doc :=
  .record "FuncDecl" [("name", .string f.name), ("params", .list (f.params.map Param.doc)),
    ("results", .list (f.results.map Ty.doc)), ("body", f.body.doc)]

def Module.doc (m : Module) : Doc :=
  .record "Module" [("name", .string m.name),
    ("imports", .list (m.imports.map fun path => .record "Import" [("path", .string path)])),
    ("top_levels", .list (m.functions.map fun f => .apply "FuncDecl" [f.doc]))]

def Module.text (m : Module) : String := m.doc.render 0

end GoFun.Fun
