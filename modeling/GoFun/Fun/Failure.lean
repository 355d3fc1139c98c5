import GoFun.Number.Reading
import GoFun.Outline.Basic

/-!
# Why a tree has no Fun form
-/
namespace GoFun.Fun

inductive Reason where
  | unsupportedType | unsupportedStmt | unsupportedExpr
  | unexpectedLiteral | unsupportedObjKind | unresolvedIdent | unsupportedArgument
  | expectedFunction | emptyBody | emptyResults | notStringLiteral | importAlias
  | unsupportedTopLevel | invalidChar
  deriving DecidableEq, Repr

def Reason.text : Reason → String
  | unsupportedType => "not supported type"
  | unsupportedStmt => "ast.Stmt type not supported"
  | unsupportedExpr => "Expr type not supported"
  | unexpectedLiteral => "unexpected literal type"
  | unsupportedObjKind => "unsupported Obj kind"
  | unresolvedIdent => "Ident with empty Obj is not supported"
  | unsupportedArgument => "argument type not supported"
  | expectedFunction => "expected FunctionVal but got"
  | emptyBody => "empty function body is not supported"
  | emptyResults => "result list of zero length is not supported"
  | notStringLiteral => "not a string or char literal"
  | importAlias => "import alias is not supported"
  | unsupportedTopLevel => "top-level declaration is not supported"
  | invalidChar => "char literal is not a single code point"

inductive Failure where
  /-- The part of the tree that has no Fun form. -/
  | unsupported (reason : Reason) (part : Outline)
  | integer (cause : Number.IntegerError)
  | double (cause : Number.DoubleError)

def Failure.message (m : SourceMap) : Failure → String
  | unsupported reason part => reason.text ++ ":\n" ++ part.render m .notEmpty
  | integer cause => cause.message
  | double cause => cause.message

end GoFun.Fun
