import GoFun.Printer.Basic

/-!
# Shapes of trees

The shape of a tree is what is left of it without positions and objects. A position that says
whether something is there at all is kept as a mark. How much is kept of the parentheses around
expressions is a parameter: two trees are equal up to redundant parentheses when their shapes
without any are equal.
-/
namespace GoFun

/-- What a shape keeps of parentheses: all of them, one pair of those that stand directly around
each other, or none. -/
inductive Parens where
  | kept | merged | dropped
  deriving DecidableEq, Repr

def Parens.around : Parens → Expr → Expr
  | kept, x => .paren none x none
  | merged, x => if x.isParen then x else .paren none x none
  | dropped, x => x

/-- Whether there is a position, without saying which. -/
def Pos.mark (p : Pos) : Pos := p.map fun _ => 0

def Ident.shape (id : Ident) : Ident := ⟨none, id.name, none⟩

def Literal.shape (l : Literal) : Literal := ⟨none, l.kind, l.text⟩

mutual

def Expr.shape (p : Parens) : Expr → Expr
  | .ident id => .ident id.shape
  | .lit l => .lit l.shape
  | .paren _ x _ => p.around (x.shape p)
  | .selector x sel => .selector (x.shape p) sel.shape
  | .index x _ i _ => .index (x.shape p) none (i.shape p) none
  | .call f _ args dots _ => .call (f.shape p) none (shapeExprs p args) dots.mark none
  | .star _ x => .star none (x.shape p)
  | .unary _ op x => .unary none op (x.shape p)
  | .binary x _ op y => .binary (x.shape p) none op (y.shape p)
  | .array _ len elem => .array none (shapeExpr? p len) (elem.shape p)
  | .map _ key value => .map none (key.shape p) (value.shape p)
  | .chan _ dir value => .chan none dir (value.shape p)
  | .struct _ fields => .struct none (fields.shape p)
  | .composite type _ elems _ => .composite (shapeExpr? p type) none (shapeExprs p elems) none
  | .keyValue key _ value => .keyValue (key.shape p) none (value.shape p)
  | .funcLit type body => .funcLit (type.shape p) (body.shape p)
  | .slice x _ low high max _ =>
    .slice (x.shape p) none (shapeExpr? p low) (shapeExpr? p high) (shapeExpr? p max) none
  | .assertion x _ type _ => .assertion (x.shape p) none (shapeExpr? p type) none
  | .ellipsis _ elem => .ellipsis none (shapeExpr? p elem)
  | .func type => .func (type.shape p)
  | .interface _ methods => .interface none (methods.shape p)

def shapeExprs (p : Parens) : List Expr → List Expr
  | [] => []
  | e :: es => e.shape p :: shapeExprs p es

def shapeExpr? (p : Parens) : Option Expr → Option Expr
  | none => none
  | some e => some (e.shape p)

def shapeFields (p : Parens) : List Field → List Field
  | [] => []
  | ⟨names, type, tag⟩ :: fields =>
    ⟨names.map Ident.shape, type.shape p, tag.map Literal.shape⟩ :: shapeFields p fields

def FieldList.shape (p : Parens) : FieldList → FieldList
  | ⟨_, list, _⟩ => ⟨none, shapeFields p list, none⟩

def shapeFieldList? (p : Parens) : Option FieldList → Option FieldList
  | none => none
  | some fields => some (fields.shape p)

def FuncType.shape (p : Parens) : FuncType → FuncType
  | ⟨_, params, results⟩ => ⟨none, params.shape p, shapeFieldList? p results⟩

def Block.shape (p : Parens) : Block → Block
  | ⟨_, list, _⟩ => ⟨none, shapeStmts p list, none⟩

def shapeSpecs (p : Parens) : List Spec → List Spec
  | [] => []
  | .value names type values :: specs =>
    .value (names.map Ident.shape) (shapeExpr? p type) (shapeExprs p values) :: shapeSpecs p specs
  | .type name equals type :: specs =>
    .type name.shape equals.mark (type.shape p) :: shapeSpecs p specs

def GenDecl.shape (p : Parens) : GenDecl → GenDecl
  | ⟨_, word, lparen, specs, rparen⟩ => ⟨none, word, lparen.mark, shapeSpecs p specs, rparen.mark⟩

def Stmt.shape (p : Parens) : Stmt → Stmt
  | .decl d => .decl (d.shape p)
  | .expr x => .expr (x.shape p)
  | .assign lhs _ op rhs => .assign (shapeExprs p lhs) none op (shapeExprs p rhs)
  | .incDec x _ step => .incDec (x.shape p) none step
  | .ret _ results => .ret none (shapeExprs p results)
  | .jump _ word label => .jump none word (label.map Ident.shape)
  | .block b => .block (b.shape p)
  | .ifElse _ init cond body other =>
    .ifElse none (shapeStmt? p init) (cond.shape p) (body.shape p) (shapeStmt? p other)
  | .forLoop _ init cond post body =>
    .forLoop none (shapeStmt? p init) (shapeExpr? p cond) (shapeStmt? p post) (body.shape p)
  | .range _ key value _ op x body =>
    .range none (shapeExpr? p key) (shapeExpr? p value) none op (x.shape p) (body.shape p)
  | .go _ call => .go none (call.shape p)
  | .defer _ call => .defer none (call.shape p)
  | .labeled label _ stmt => .labeled label.shape none (stmt.shape p)
  | .send chan _ value => .send (chan.shape p) none (value.shape p)
  | .switch _ init tag body =>
    .switch none (shapeStmt? p init) (shapeExpr? p tag) (body.shape p)
  | .typeSwitch _ init guard body =>
    .typeSwitch none (shapeStmt? p init) (guard.shape p) (body.shape p)
  | .select _ body => .select none (body.shape p)
  | .caseClause _ list _ body => .caseClause none (shapeExprs p list) none (shapeStmts p body)
  | .commClause _ comm _ body => .commClause none (shapeStmt? p comm) none (shapeStmts p body)

def shapeStmts (p : Parens) : List Stmt → List Stmt
  | [] => []
  | s :: ss => s.shape p :: shapeStmts p ss

def shapeStmt? (p : Parens) : Option Stmt → Option Stmt
  | none => none
  | some s => some (s.shape p)

end

def Spec.shape (p : Parens) : Spec → Spec
  | .value names t values => .value (names.map Ident.shape) (shapeExpr? p t) (shapeExprs p values)
  | .type name equals t => .type name.shape equals.mark (t.shape p)

def FuncDecl.shape (p : Parens) (f : FuncDecl) : FuncDecl where
  funcPos := none
  recv := shapeFieldList? p f.recv
  name := f.name.shape
  params := f.params.shape p
  results := shapeFieldList? p f.results
  body := f.body.map (Block.shape p)

def Decl.shape (p : Parens) : Decl → Decl
  | .func f => .func (f.shape p)
  | .gen g => .gen (g.shape p)

theorem shapeExprs_eq_map (p : Parens) (es : List Expr) :
    shapeExprs p es = es.map (Expr.shape p) := by
  induction es with
  | nil => simp [shapeExprs]
  | cons e es ih => simp [shapeExprs, ih]

theorem shapeExpr?_eq_map (p : Parens) (e : Option Expr) :
    shapeExpr? p e = e.map (Expr.shape p) := by
  cases e <;> simp [shapeExpr?]

theorem shapeStmt?_eq_map (p : Parens) (s : Option Stmt) :
    shapeStmt? p s = s.map (Stmt.shape p) := by
  cases s <;> simp [shapeStmt?]

end GoFun
