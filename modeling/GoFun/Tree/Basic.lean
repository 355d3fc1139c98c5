import GoFun.Tree.Operator
import GoFun.Tree.Literal

/-!
# Go trees

Expressions, statements and declarations of one source file. Types are written with the same trees
as expressions. Every token whose place matters has a position; trees built by hand have none.
-/
namespace GoFun

inductive ObjKind where
  | package | const | type | var | func | label
  deriving DecidableEq, Repr

namespace ObjKind

def word : ObjKind → String
  | package => "package"
  | const => "const"
  | type => "type"
  | var => "var"
  | func => "func"
  | label => "label"

def ofWord? (s : String) : Option ObjKind :=
  [package, const, type, var, func, label].find? (·.word == s)

end ObjKind

/-- What an identifier refers to inside its file. -/
structure Object where
  kind : ObjKind
  name : String
  deriving DecidableEq, Repr

structure Ident where
  pos : Pos
  name : String
  /-- Absent for package names, predeclared names and names outside the scope rules. -/
  obj : Option Object := none
  deriving DecidableEq, Repr

def Ident.isBlank (id : Ident) : Bool := id.name == "_"

mutual

inductive Expr where
  | ident (id : Ident)
  | lit (l : Literal)
  | paren (lparen : Pos) (x : Expr) (rparen : Pos)
  | selector (x : Expr) (sel : Ident)
  | index (x : Expr) (lbrack : Pos) (i : Expr) (rbrack : Pos)
  /-- The position `dots` is known exactly when the arguments end in three dots. -/
  | call (f : Expr) (lparen : Pos) (args : List Expr) (dots : Pos) (rparen : Pos)
  | star (starPos : Pos) (x : Expr)
  | unary (opPos : Pos) (op : UnaryOp) (x : Expr)
  | binary (x : Expr) (opPos : Pos) (op : BinaryOp) (y : Expr)
  | array (lbrack : Pos) (len : Option Expr) (elem : Expr)
  | map (mapPos : Pos) (key : Expr) (value : Expr)
  | chan (chanPos : Pos) (dir : ChanDir) (value : Expr)
  | struct (structPos : Pos) (fields : FieldList)
  /-- The type is absent inside another literal, where it is implied. -/
  | composite (type : Option Expr) (lbrace : Pos) (elems : List Expr) (rbrace : Pos)
  | keyValue (key : Expr) (colon : Pos) (value : Expr)
  | funcLit (type : FuncType) (body : Block)
  | slice (x : Expr) (lbrack : Pos) (low high max : Option Expr) (rbrack : Pos)
  /-- The type is absent in the guard of a type switch. -/
  | assertion (x : Expr) (lparen : Pos) (type : Option Expr) (rparen : Pos)
  | ellipsis (dots : Pos) (elem : Option Expr)
  | func (type : FuncType)
  | interface (interfacePos : Pos) (methods : FieldList)

/-- A group of names with one type: parameters, results, fields of a struct, methods. -/
structure Field where
  names : List Ident
  type : Expr
  tag : Option Literal

/-- The brackets are absent around a single result. -/
structure FieldList where
  opening : Pos
  list : List Field
  closing : Pos

/-- The word `func` is absent in front of the methods of an interface. -/
structure FuncType where
  funcPos : Pos
  params : FieldList
  results : Option FieldList

structure Block where
  lbrace : Pos
  list : List Stmt
  rbrace : Pos

inductive Spec where
  | value (names : List Ident) (type : Option Expr) (values : List Expr)
  /-- The position `equals` is known exactly for an alias. -/
  | type (name : Ident) (equals : Pos) (type : Expr)

/-- The parentheses are known exactly for a grouped declaration. -/
structure GenDecl where
  wordPos : Pos
  word : DeclWord
  lparen : Pos
  specs : List Spec
  rparen : Pos

inductive Stmt where
  | decl (d : GenDecl)
  | expr (x : Expr)
  | assign (lhs : List Expr) (opPos : Pos) (op : AssignOp) (rhs : List Expr)
  | incDec (x : Expr) (stepPos : Pos) (step : Step)
  | ret (retPos : Pos) (results : List Expr)
  | jump (jumpPos : Pos) (word : Jump) (label : Option Ident)
  | block (b : Block)
  | ifElse (ifPos : Pos) (init : Option Stmt) (cond : Expr) (body : Block) (other : Option Stmt)
  | forLoop (forPos : Pos) (init : Option Stmt) (cond : Option Expr) (post : Option Stmt)
      (body : Block)
  | range (forPos : Pos) (key value : Option Expr) (opPos : Pos) (op : Option AssignOp) (x : Expr)
      (body : Block)
  | go (goPos : Pos) (call : Expr)
  | defer (deferPos : Pos) (call : Expr)
  | labeled (label : Ident) (colon : Pos) (stmt : Stmt)
  | send (chan : Expr) (arrow : Pos) (value : Expr)
  | switch (switchPos : Pos) (init : Option Stmt) (tag : Option Expr) (body : Block)
  | typeSwitch (switchPos : Pos) (init : Option Stmt) (guard : Stmt) (body : Block)
  | select (selectPos : Pos) (body : Block)
  /-- A clause of a switch. Without expressions it is the default. -/
  | caseClause (casePos : Pos) (list : List Expr) (colon : Pos) (body : List Stmt)
  /-- A clause of a select. Without a statement it is the default. -/
  | commClause (casePos : Pos) (comm : Option Stmt) (colon : Pos) (body : List Stmt)

end

structure FuncDecl where
  funcPos : Pos
  /-- Present for methods only. -/
  recv : Option FieldList
  name : Ident
  params : FieldList
  results : Option FieldList
  /-- Absent for a function that is defined elsewhere. -/
  body : Option Block

inductive Decl where
  | func (f : FuncDecl)
  | gen (g : GenDecl)

structure ImportSpec where
  /-- Local name of the package, a dot or a low line included. -/
  name : Option Ident
  path : Expr

structure File where
  packagePos : Pos
  name : Ident
  imports : List ImportSpec
  /-- All declarations but the imports, in source order. -/
  decls : List Decl

end GoFun
