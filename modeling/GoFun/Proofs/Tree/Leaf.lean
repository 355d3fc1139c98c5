import GoFun.Proofs.Scope.Move

/-!
# Leaves

The leaves of a tree are its identifiers and literals, each with its position and its text. They are
listed in the order in which the tree is written, but for parameters: a name that waits for its type
is listed with it.
-/
namespace GoFun

structure Leaf where
  pos : Pos
  text : String
  deriving DecidableEq, Repr

def Ident.leaf (id : Ident) : Leaf := ⟨id.pos, id.name⟩

def Literal.leaf (l : Literal) : Leaf := ⟨l.pos, l.text⟩

mutual

def Expr.leaves : Expr → List Leaf
  | .ident id => [id.leaf]
  | .lit l => [l.leaf]
  | .paren _ x _ => x.leaves
  | .selector x sel => x.leaves ++ [sel.leaf]
  | .index x _ i _ => x.leaves ++ i.leaves
  | .call f _ args _ _ => f.leaves ++ leavesOfExprs args
  | .star _ x => x.leaves
  | .unary _ _ x => x.leaves
  | .binary x _ _ y => x.leaves ++ y.leaves
  | .array _ len elem => leavesOfExpr? len ++ elem.leaves
  | .map _ key value => key.leaves ++ value.leaves
  | .chan _ _ value => value.leaves
  | .struct _ fields => fields.leaves
  | .composite type _ elems _ => leavesOfExpr? type ++ leavesOfExprs elems
  | .keyValue key _ value => key.leaves ++ value.leaves
  | .funcLit type body => type.leaves ++ body.leaves
  | .slice x _ low high max _ => x.leaves ++ leavesOfExpr? low ++ leavesOfExpr? high ++
      leavesOfExpr? max
  | .assertion x _ type _ => x.leaves ++ leavesOfExpr? type
  | .ellipsis _ elem => leavesOfExpr? elem
  | .func type => type.leaves
  | .interface _ methods => methods.leaves

def leavesOfExprs : List Expr → List Leaf
  | [] => []
  | e :: es => e.leaves ++ leavesOfExprs es

def leavesOfExpr? : Option Expr → List Leaf
  | none => []
  | some e => e.leaves

def leavesOfFields : List Field → List Leaf
  | [] => []
  | ⟨names, type, tag⟩ :: fields =>
    names.map Ident.leaf ++ type.leaves ++ tag.toList.map Literal.leaf ++ leavesOfFields fields

def FieldList.leaves : FieldList → List Leaf
  | ⟨_, list, _⟩ => leavesOfFields list

def leavesOfFieldList? : Option FieldList → List Leaf
  | none => []
  | some fields => fields.leaves

def FuncType.leaves : FuncType → List Leaf
  | ⟨_, params, results⟩ => params.leaves ++ leavesOfFieldList? results

def Block.leaves : Block → List Leaf
  | ⟨_, list, _⟩ => leavesOfStmts list

def leavesOfSpecs : List Spec → List Leaf
  | [] => []
  | .value names type values :: specs =>
    names.map Ident.leaf ++ leavesOfExpr? type ++ leavesOfExprs values ++ leavesOfSpecs specs
  | .type name _ type :: specs => name.leaf :: type.leaves ++ leavesOfSpecs specs

def GenDecl.leaves : GenDecl → List Leaf
  | ⟨_, _, _, specs, _⟩ => leavesOfSpecs specs

def Stmt.leaves : Stmt → List Leaf
  | .decl d => d.leaves
  | .expr x => x.leaves
  | .assign lhs _ _ rhs => leavesOfExprs lhs ++ leavesOfExprs rhs
  | .incDec x _ _ => x.leaves
  | .ret _ results => leavesOfExprs results
  | .jump _ _ label => label.toList.map Ident.leaf
  | .block b => b.leaves
  | .ifElse _ init cond body other => leavesOfStmt? init ++ cond.leaves ++ body.leaves ++
      leavesOfStmt? other
  | .forLoop _ init cond post body =>
    leavesOfStmt? init ++ leavesOfExpr? cond ++ leavesOfStmt? post ++ body.leaves
  | .range _ key value _ _ x body => leavesOfExpr? key ++ leavesOfExpr? value ++ x.leaves ++
      body.leaves
  | .go _ call => call.leaves
  | .defer _ call => call.leaves
  | .labeled label _ stmt => label.leaf :: stmt.leaves
  | .send chan _ value => chan.leaves ++ value.leaves
  | .switch _ init tag body => leavesOfStmt? init ++ leavesOfExpr? tag ++ body.leaves
  | .typeSwitch _ init guard body => leavesOfStmt? init ++ guard.leaves ++ body.leaves
  | .select _ body => body.leaves
  | .caseClause _ list _ body => leavesOfExprs list ++ leavesOfStmts body
  | .commClause _ comm _ body => leavesOfStmt? comm ++ leavesOfStmts body

def leavesOfStmts : List Stmt → List Leaf
  | [] => []
  | s :: ss => s.leaves ++ leavesOfStmts ss

def leavesOfStmt? : Option Stmt → List Leaf
  | none => []
  | some s => s.leaves

end

def Field.leaves (f : Field) : List Leaf :=
  f.names.map Ident.leaf ++ f.type.leaves ++ f.tag.toList.map Literal.leaf

def Spec.leaves : Spec → List Leaf
  | .value names t values => names.map Ident.leaf ++ leavesOfExpr? t ++ leavesOfExprs values
  | .type name _ t => name.leaf :: t.leaves

def FuncDecl.leaves (d : FuncDecl) : List Leaf :=
  leavesOfFieldList? d.recv ++ d.name.leaf :: (d.params.leaves ++ leavesOfFieldList? d.results) ++
    d.body.toList.flatMap Block.leaves

def Decl.leaves : Decl → List Leaf
  | .func d => d.leaves
  | .gen g => g.leaves

def ImportSpec.leaves (spec : ImportSpec) : List Leaf :=
  spec.name.toList.map Ident.leaf ++ spec.path.leaves

/-- The package name, the names and paths of the imports, and the leaves of the declarations. -/
def File.leaves (file : File) : List Leaf :=
  file.name.leaf :: (file.imports.flatMap ImportSpec.leaves ++ file.decls.flatMap Decl.leaves)

theorem leavesOfExprs_eq (es : List Expr) : leavesOfExprs es = es.flatMap Expr.leaves := by
  induction es with
  | nil => simp [leavesOfExprs]
  | cons e es ih => simp [leavesOfExprs, ih]

theorem leavesOfExpr?_eq (e : Option Expr) : leavesOfExpr? e = e.toList.flatMap Expr.leaves := by
  cases e <;> simp [leavesOfExpr?]

theorem leavesOfFields_eq (fields : List Field) :
    leavesOfFields fields = fields.flatMap Field.leaves := by
  induction fields with
  | nil => simp [leavesOfFields]
  | cons f fields ih =>
    obtain ⟨names, type, tag⟩ := f
    simp [leavesOfFields, Field.leaves, ih]

theorem leavesOfFieldList?_eq (fields : Option FieldList) :
    leavesOfFieldList? fields = fields.toList.flatMap FieldList.leaves := by
  cases fields <;> simp [leavesOfFieldList?]

theorem leavesOfSpecs_eq (specs : List Spec) : leavesOfSpecs specs = specs.flatMap Spec.leaves := by
  induction specs with
  | nil => simp [leavesOfSpecs]
  | cons spec specs ih => cases spec <;> simp [leavesOfSpecs, Spec.leaves, ih]

theorem leavesOfStmts_eq (ss : List Stmt) : leavesOfStmts ss = ss.flatMap Stmt.leaves := by
  induction ss with
  | nil => simp [leavesOfStmts]
  | cons s ss ih => simp [leavesOfStmts, ih]

theorem leavesOfStmt?_eq (s : Option Stmt) : leavesOfStmt? s = s.toList.flatMap Stmt.leaves := by
  cases s <;> simp [leavesOfStmt?]

end GoFun
