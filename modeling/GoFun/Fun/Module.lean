import GoFun.Number.Double

/-!
# Fun modules

Fun is a language of expressions. A module has a name, the paths that it imports, and functions. The
body of a function is an expression, or statements of the source language kept as text.
-/
namespace GoFun.Fun

inductive Expr where
  | var (name : String)
  | binary (x : Expr) (op : String) (y : Expr)
  /-- The name of a function with its package: `fmt.Println`. -/
  | funcName (name : String)
  | application (name : String) (args : List Expr)
  | int (value : Int64)
  | double (value : Number.Double)
  | string (value : String)
  | char (value : Char)
  /-- Two or more values returned together. -/
  | results (values : List Expr)

/-- A type that is given by its name alone. -/
inductive Ty where
  | atomic (name : String)
  deriving DecidableEq, Repr

structure Param where
  name : String
  type : Ty
  deriving DecidableEq, Repr

inductive Body where
  | single (e : Expr)
  /-- One text for each statement. -/
  | inline (stmts : List String)

structure Function where
  name : String
  params : List Param
  results : List Ty
  body : Body

structure Module where
  name : String
  imports : List String
  functions : List Function

end GoFun.Fun
