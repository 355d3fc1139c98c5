import GoFun.Proofs.Tree.Phrase

/-!
# Moved trees

`Expr.move f` sends every position of a tree through `f` and takes the objects away. With the
identity it only forgets the objects, which is all that resolution adds.
-/
namespace GoFun

def Ident.move (f : Nat → Nat) (id : Ident) : Ident := ⟨id.pos.map f, id.name, none⟩

def Literal.move (f : Nat → Nat) (l : Literal) : Literal := ⟨l.pos.map f, l.kind, l.text⟩

mutual

def Expr.move (f : Nat → Nat) : Expr → Expr
  | .ident id => .ident (id.move f)
  | .lit l => .lit (l.move f)
  | .paren lparen x rparen => .paren (lparen.map f) (x.move f) (rparen.map f)
  | .selector x sel => .selector (x.move f) (sel.move f)
  | .index x lbrack i rbrack => .index (x.move f) (lbrack.map f) (i.move f) (rbrack.map f)
  | .call g lparen args dots rparen =>
    .call (g.move f) (lparen.map f) (moveExprs f args) (dots.map f) (rparen.map f)
  | .star starPos x => .star (starPos.map f) (x.move f)
  | .unary opPos op x => .unary (opPos.map f) op (x.move f)
  | .binary x opPos op y => .binary (x.move f) (opPos.map f) op (y.move f)
  | .array lbrack len elem => .array (lbrack.map f) (moveExpr? f len) (elem.move f)
  | .map mapPos key value => .map (mapPos.map f) (key.move f) (value.move f)
  | .chan chanPos dir value => .chan (chanPos.map f) dir (value.move f)
  | .struct structPos fields => .struct (structPos.map f) (fields.move f)
  | .composite type lbrace elems rbrace =>
    .composite (moveExpr? f type) (lbrace.map f) (moveExprs f elems) (rbrace.map f)
  | .keyValue key colon value => .keyValue (key.move f) (colon.map f) (value.move f)
  | .funcLit type body => .funcLit (type.move f) (body.move f)
  | .slice x lbrack low high max rbrack =>
    .slice (x.move f) (lbrack.map f) (moveExpr? f low) (moveExpr? f high) (moveExpr? f max)
      (rbrack.map f)
  | .assertion x lparen type rparen => .assertion (x.move f) (lparen.map f) (moveExpr? f type)
      (rparen.map f)
  | .ellipsis dots elem => .ellipsis (dots.map f) (moveExpr? f elem)
  | .func type => .func (type.move f)
  | .interface interfacePos methods => .interface (interfacePos.map f) (methods.move f)

def moveExprs (f : Nat → Nat) : List Expr → List Expr
  | [] => []
  | e :: es => e.move f :: moveExprs f es

def moveExpr? (f : Nat → Nat) : Option Expr → Option Expr
  | none => none
  | some e => some (e.move f)

def moveFields (f : Nat → Nat) : List Field → List Field
  | [] => []
  | ⟨names, type, tag⟩ :: fields =>
    ⟨names.map (Ident.move f), type.move f, tag.map (Literal.move f)⟩ :: moveFields f fields

def FieldList.move (f : Nat → Nat) : FieldList → FieldList
  | ⟨opening, list, closing⟩ => ⟨opening.map f, moveFields f list, closing.map f⟩

def moveFieldList? (f : Nat → Nat) : Option FieldList → Option FieldList
  | none => none
  | some fields => some (fields.move f)

def FuncType.move (f : Nat → Nat) : FuncType → FuncType
  | ⟨funcPos, params, results⟩ => ⟨funcPos.map f, params.move f, moveFieldList? f results⟩

def Block.move (f : Nat → Nat) : Block → Block
  | ⟨lbrace, list, rbrace⟩ => ⟨lbrace.map f, moveStmts f list, rbrace.map f⟩

def moveSpecs (f : Nat → Nat) : List Spec → List Spec
  | [] => []
  | .value names type values :: specs =>
    .value (names.map (Ident.move f)) (moveExpr? f type) (moveExprs f values) :: moveSpecs f specs
  | .type name equals type :: specs =>
    .type (name.move f) (equals.map f) (type.move f) :: moveSpecs f specs

def GenDecl.move (f : Nat → Nat) : GenDecl → GenDecl
  | ⟨wordPos, word, lparen, specs, rparen⟩ =>
    ⟨wordPos.map f, word, lparen.map f, moveSpecs f specs, rparen.map f⟩

def Stmt.move (f : Nat → Nat) : Stmt → Stmt
  | .decl d => .decl (d.move f)
  | .expr x => .expr (x.move f)
  | .assign lhs opPos op rhs => .assign (moveExprs f lhs) (opPos.map f) op (moveExprs f rhs)
  | .incDec x stepPos step => .incDec (x.move f) (stepPos.map f) step
  | .ret retPos results => .ret (retPos.map f) (moveExprs f results)
  | .jump jumpPos word label => .jump (jumpPos.map f) word (label.map (Ident.move f))
  | .block b => .block (b.move f)
  | .ifElse ifPos init cond body other =>
    .ifElse (ifPos.map f) (moveStmt? f init) (cond.move f) (body.move f) (moveStmt? f other)
  | .forLoop forPos init cond post body =>
    .forLoop (forPos.map f) (moveStmt? f init) (moveExpr? f cond) (moveStmt? f post) (body.move f)
  | .range forPos key value opPos op x body =>
    .range (forPos.map f) (moveExpr? f key) (moveExpr? f value) (opPos.map f) op (x.move f)
      (body.move f)
  | .go goPos call => .go (goPos.map f) (call.move f)
  | .defer deferPos call => .defer (deferPos.map f) (call.move f)
  | .labeled label colon stmt => .labeled (label.move f) (colon.map f) (stmt.move f)
  | .send chan arrow value => .send (chan.move f) (arrow.map f) (value.move f)
  | .switch switchPos init tag body =>
    .switch (switchPos.map f) (moveStmt? f init) (moveExpr? f tag) (body.move f)
  | .typeSwitch switchPos init guard body =>
    .typeSwitch (switchPos.map f) (moveStmt? f init) (guard.move f) (body.move f)
  | .select selectPos body => .select (selectPos.map f) (body.move f)
  | .caseClause casePos list colon body =>
    .caseClause (casePos.map f) (moveExprs f list) (colon.map f) (moveStmts f body)
  | .commClause casePos comm colon body =>
    .commClause (casePos.map f) (moveStmt? f comm) (colon.map f) (moveStmts f body)

def moveStmts (f : Nat → Nat) : List Stmt → List Stmt
  | [] => []
  | s :: ss => s.move f :: moveStmts f ss

def moveStmt? (f : Nat → Nat) : Option Stmt → Option Stmt
  | none => none
  | some s => some (s.move f)

end

def Field.move (f : Nat → Nat) (field : Field) : Field :=
  ⟨field.names.map (Ident.move f), field.type.move f, field.tag.map (Literal.move f)⟩

def Spec.move (f : Nat → Nat) : Spec → Spec
  | .value names t values => .value (names.map (Ident.move f)) (moveExpr? f t) (moveExprs f values)
  | .type name equals t => .type (name.move f) (equals.map f) (t.move f)

def FuncDecl.move (f : Nat → Nat) (d : FuncDecl) : FuncDecl where
  funcPos := d.funcPos.map f
  recv := moveFieldList? f d.recv
  name := d.name.move f
  params := d.params.move f
  results := moveFieldList? f d.results
  body := d.body.map (Block.move f)

def Decl.move (f : Nat → Nat) : Decl → Decl
  | .func d => .func (d.move f)
  | .gen g => .gen (g.move f)

def Phrase.move (f : Nat → Nat) : Phrase → Phrase
  | expr e => .expr (e.move f)
  | stmt s => .stmt (s.move f)

variable (f : Nat → Nat)

theorem moveExprs_eq_map (es : List Expr) : moveExprs f es = es.map (Expr.move f) := by
  induction es with
  | nil => simp [moveExprs]
  | cons e es ih => simp [moveExprs, ih]

theorem moveExpr?_eq_map (e : Option Expr) : moveExpr? f e = e.map (Expr.move f) := by
  cases e <;> simp [moveExpr?]

theorem moveFields_eq_map (fields : List Field) :
    moveFields f fields = fields.map (Field.move f) := by
  induction fields with
  | nil => simp [moveFields]
  | cons field fields ih =>
    obtain ⟨names, type, tag⟩ := field
    simp [moveFields, Field.move, ih]

theorem moveFieldList?_eq_map (fields : Option FieldList) :
    moveFieldList? f fields = fields.map (FieldList.move f) := by
  cases fields <;> simp [moveFieldList?]

theorem moveSpecs_eq_map (specs : List Spec) : moveSpecs f specs = specs.map (Spec.move f) := by
  induction specs with
  | nil => simp [moveSpecs]
  | cons spec specs ih => cases spec <;> simp [moveSpecs, Spec.move, ih]

theorem moveStmts_eq_map (ss : List Stmt) : moveStmts f ss = ss.map (Stmt.move f) := by
  induction ss with
  | nil => simp [moveStmts]
  | cons s ss ih => simp [moveStmts, ih]

theorem moveStmt?_eq_map (s : Option Stmt) : moveStmt? f s = s.map (Stmt.move f) := by
  cases s <;> simp [moveStmt?]

@[simp] theorem Ident.shape_move (id : Ident) : (id.move f).shape = id.shape := rfl

@[simp] theorem Literal.shape_move (l : Literal) : (l.move f).shape = l.shape := rfl

@[simp] theorem Ident.shape_comp_move : Ident.shape ∘ Ident.move f = Ident.shape := rfl

@[simp] theorem Literal.shape_comp_move : Literal.shape ∘ Literal.move f = Literal.shape := rfl

@[simp] theorem Pos.mark_map (p : Pos) : Pos.mark (p.map f) = Pos.mark p := by
  cases p <;> rfl

section

variable (p : Parens) (f : Nat → Nat)

theorem shape_move_all :
    (∀ e : Expr, (e.move f).shape p = e.shape p) ∧ (∀ b : Block, (b.move f).shape p = b.shape p) ∧
    (∀ ss, shapeStmts p (moveStmts f ss) = shapeStmts p ss) ∧
    (∀ s : Stmt, (s.move f).shape p = s.shape p) ∧
    (∀ e, shapeExpr? p (moveExpr? f e) = shapeExpr? p e) ∧
    (∀ s, shapeStmt? p (moveStmt? f s) = shapeStmt? p s) ∧
    (∀ es, shapeExprs p (moveExprs f es) = shapeExprs p es) ∧
    (∀ d : GenDecl, (d.move f).shape p = d.shape p) ∧
    (∀ specs, shapeSpecs p (moveSpecs f specs) = shapeSpecs p specs) ∧
    (∀ t : FuncType, (t.move f).shape p = t.shape p) ∧
    (∀ r, shapeFieldList? p (moveFieldList? f r) = shapeFieldList? p r) ∧
    (∀ l : FieldList, (l.move f).shape p = l.shape p) ∧
    ∀ l, shapeFields p (moveFields f l) = shapeFields p l := by
  apply Expr.move.mutual_induct
  all_goals intros
  all_goals
    simp_all [Expr.move, Block.move, moveStmts, Stmt.move, moveExpr?, moveStmt?, moveExprs,
      GenDecl.move, moveSpecs, FuncType.move, moveFieldList?, FieldList.move, moveFields,
      Expr.shape, Block.shape, shapeStmts, Stmt.shape, shapeExpr?, shapeStmt?, shapeExprs,
      GenDecl.shape, shapeSpecs, FuncType.shape, shapeFieldList?, FieldList.shape, shapeFields]

theorem Decl.shape_move (d : Decl) : (d.move f).shape p = d.shape p := by
  cases d with
  | func d =>
    have hb : Block.shape p ∘ Block.move f = Block.shape p := funext (shape_move_all p f).2.1
    simp [Decl.move, Decl.shape, FuncDecl.move, FuncDecl.shape, shape_move_all p f, hb]
  | gen g => simp [Decl.move, Decl.shape, shape_move_all p f]

theorem Phrase.shape_move (n : Phrase) : (n.move f).shape p = n.shape p := by
  cases n <;> simp [Phrase.move, Phrase.shape, shape_move_all p f]

end

theorem Phrase.shape_eq_of_move_eq {f : Nat → Nat} {n k : Phrase} (h : n.move f = k.move f)
    (p : Parens) :
    n.shape p = k.shape p := by
  rw [← n.shape_move p f, h, k.shape_move]

@[simp] theorem Phrase.move_comp_expr : Phrase.move f ∘ Phrase.expr = Phrase.expr ∘ Expr.move f :=
  rfl

@[simp] theorem Phrase.move_comp_stmt : Phrase.move f ∘ Phrase.stmt = Phrase.stmt ∘ Stmt.move f :=
  rfl

theorem FieldList.children_move (fields : FieldList) :
    (fields.move f).children = fields.children.map (Phrase.move f) := by
  obtain ⟨opening, list, closing⟩ := fields
  simp [FieldList.move, FieldList.children, moveFields_eq_map, Phrase.move, Field.move]

theorem children_moveFieldList? (fields : Option FieldList) :
    (moveFieldList? f fields).toList.flatMap FieldList.children =
      (fields.toList.flatMap FieldList.children).map (Phrase.move f) := by
  cases fields <;> simp [moveFieldList?, FieldList.children_move]

theorem FuncType.children_move (t : FuncType) :
    (t.move f).children = t.children.map (Phrase.move f) := by
  obtain ⟨funcPos, params, results⟩ := t
  simp only [FuncType.move, FuncType.children, FieldList.children_move, children_moveFieldList?,
    List.map_append]

theorem Block.children_move (b : Block) : (b.move f).children = b.children.map (Phrase.move f) := by
  obtain ⟨lbrace, list, rbrace⟩ := b
  simp [Block.move, Block.children, moveStmts_eq_map]

theorem Spec.children_move (spec : Spec) :
    (spec.move f).children = spec.children.map (Phrase.move f) := by
  cases spec <;>
    simp [Spec.move, Spec.children, moveExpr?_eq_map, moveExprs_eq_map, Option.toList_map,
      Phrase.move]

theorem GenDecl.children_move (d : GenDecl) :
    (d.move f).children = d.children.map (Phrase.move f) := by
  obtain ⟨wordPos, word, lparen, specs, rparen⟩ := d
  simp only [GenDecl.move, GenDecl.children, moveSpecs_eq_map]
  induction specs with
  | nil => rfl
  | cons spec specs ih => simp [Spec.children_move, ih]

theorem Expr.children_move (e : Expr) : (e.move f).children = e.children.map (Phrase.move f) := by
  cases e <;>
    simp [Expr.move, Expr.children, Phrase.move, Option.toList_map, moveExpr?_eq_map,
      moveExprs_eq_map, FieldList.children_move, FuncType.children_move, Block.children_move]

theorem Stmt.children_move (s : Stmt) : (s.move f).children = s.children.map (Phrase.move f) := by
  cases s <;>
    simp [Stmt.move, Stmt.children, Phrase.move, Option.toList_map, moveExpr?_eq_map,
      moveExprs_eq_map, moveStmt?_eq_map, moveStmts_eq_map, Block.children_move,
        GenDecl.children_move]

theorem Phrase.children_move (n : Phrase) :
    (n.move f).children = n.children.map (Phrase.move f) := by
  cases n with
  | expr e => exact e.children_move f
  | stmt s => exact s.children_move f

theorem Decl.children_move (d : Decl) : (d.move f).children = d.children.map (Phrase.move f) := by
  cases d with
  | func d =>
    obtain ⟨funcPos, recv, name, params, results, body⟩ := d
    cases body <;>
      simp [Decl.move, Decl.children, FuncDecl.move, FuncDecl.children, children_moveFieldList?,
        FieldList.children_move, Block.children_move]
  | gen g => exact g.children_move f

end GoFun
