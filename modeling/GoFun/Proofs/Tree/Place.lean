import GoFun.Proofs.Tree.Move

/-!
# Placed trees

`Expr.place f` sends every position of a tree through `f`, unknown ones too, and keeps all else,
objects included. It tells where a resolved tree stands when its text is moved. Sending every
position to the unknown one leaves what trees that are equal up to positions have in common.
-/
namespace GoFun

variable (f : Pos → Pos)

def Ident.place (f : Pos → Pos) (id : Ident) : Ident := { id with pos := f id.pos }

def Literal.place (f : Pos → Pos) (l : Literal) : Literal := { l with pos := f l.pos }

mutual

def Expr.place (f : Pos → Pos) : Expr → Expr
  | .ident id => .ident (id.place f)
  | .lit l => .lit (l.place f)
  | .paren lparen x rparen => .paren (f lparen) (x.place f) (f rparen)
  | .selector x sel => .selector (x.place f) (sel.place f)
  | .index x lbrack i rbrack => .index (x.place f) (f lbrack) (i.place f) (f rbrack)
  | .call g lparen args dots rparen =>
    .call (g.place f) (f lparen) (placeExprs f args) (f dots) (f rparen)
  | .star starPos x => .star (f starPos) (x.place f)
  | .unary opPos op x => .unary (f opPos) op (x.place f)
  | .binary x opPos op y => .binary (x.place f) (f opPos) op (y.place f)
  | .array lbrack len elem => .array (f lbrack) (placeExpr? f len) (elem.place f)
  | .map mapPos key value => .map (f mapPos) (key.place f) (value.place f)
  | .chan chanPos dir value => .chan (f chanPos) dir (value.place f)
  | .struct structPos fields => .struct (f structPos) (fields.place f)
  | .composite type lbrace elems rbrace =>
    .composite (placeExpr? f type) (f lbrace) (placeExprs f elems) (f rbrace)
  | .keyValue key colon value => .keyValue (key.place f) (f colon) (value.place f)
  | .funcLit type body => .funcLit (type.place f) (body.place f)
  | .slice x lbrack low high max rbrack =>
    .slice (x.place f) (f lbrack) (placeExpr? f low) (placeExpr? f high) (placeExpr? f max)
      (f rbrack)
  | .assertion x lparen type rparen => .assertion (x.place f) (f lparen) (placeExpr? f type)
      (f rparen)
  | .ellipsis dots elem => .ellipsis (f dots) (placeExpr? f elem)
  | .func type => .func (type.place f)
  | .interface interfacePos methods => .interface (f interfacePos) (methods.place f)

def placeExprs (f : Pos → Pos) : List Expr → List Expr
  | [] => []
  | e :: es => e.place f :: placeExprs f es

def placeExpr? (f : Pos → Pos) : Option Expr → Option Expr
  | none => none
  | some e => some (e.place f)

def placeFields (f : Pos → Pos) : List Field → List Field
  | [] => []
  | ⟨names, type, tag⟩ :: fields =>
    ⟨names.map (Ident.place f), type.place f, tag.map (Literal.place f)⟩ :: placeFields f fields

def FieldList.place (f : Pos → Pos) : FieldList → FieldList
  | ⟨opening, list, closing⟩ => ⟨f opening, placeFields f list, f closing⟩

def placeFieldList? (f : Pos → Pos) : Option FieldList → Option FieldList
  | none => none
  | some fields => some (fields.place f)

def FuncType.place (f : Pos → Pos) : FuncType → FuncType
  | ⟨funcPos, params, results⟩ => ⟨f funcPos, params.place f, placeFieldList? f results⟩

def Block.place (f : Pos → Pos) : Block → Block
  | ⟨lbrace, list, rbrace⟩ => ⟨f lbrace, placeStmts f list, f rbrace⟩

def placeSpecs (f : Pos → Pos) : List Spec → List Spec
  | [] => []
  | .value names type values :: specs =>
    .value (names.map (Ident.place f)) (placeExpr? f type) (placeExprs f values) ::
      placeSpecs f specs
  | .type name equals type :: specs =>
    .type (name.place f) (f equals) (type.place f) :: placeSpecs f specs

def GenDecl.place (f : Pos → Pos) : GenDecl → GenDecl
  | ⟨wordPos, word, lparen, specs, rparen⟩ =>
    ⟨f wordPos, word, f lparen, placeSpecs f specs, f rparen⟩

def Stmt.place (f : Pos → Pos) : Stmt → Stmt
  | .decl d => .decl (d.place f)
  | .expr x => .expr (x.place f)
  | .assign lhs opPos op rhs => .assign (placeExprs f lhs) (f opPos) op (placeExprs f rhs)
  | .incDec x stepPos step => .incDec (x.place f) (f stepPos) step
  | .ret retPos results => .ret (f retPos) (placeExprs f results)
  | .jump jumpPos word label => .jump (f jumpPos) word (label.map (Ident.place f))
  | .block b => .block (b.place f)
  | .ifElse ifPos init cond body other =>
    .ifElse (f ifPos) (placeStmt? f init) (cond.place f) (body.place f) (placeStmt? f other)
  | .forLoop forPos init cond post body =>
    .forLoop (f forPos) (placeStmt? f init) (placeExpr? f cond) (placeStmt? f post) (body.place f)
  | .range forPos key value opPos op x body =>
    .range (f forPos) (placeExpr? f key) (placeExpr? f value) (f opPos) op (x.place f)
      (body.place f)
  | .go goPos call => .go (f goPos) (call.place f)
  | .defer deferPos call => .defer (f deferPos) (call.place f)
  | .labeled label colon stmt => .labeled (label.place f) (f colon) (stmt.place f)
  | .send chan arrow value => .send (chan.place f) (f arrow) (value.place f)
  | .switch switchPos init tag body =>
    .switch (f switchPos) (placeStmt? f init) (placeExpr? f tag) (body.place f)
  | .typeSwitch switchPos init guard body =>
    .typeSwitch (f switchPos) (placeStmt? f init) (guard.place f) (body.place f)
  | .select selectPos body => .select (f selectPos) (body.place f)
  | .caseClause casePos list colon body =>
    .caseClause (f casePos) (placeExprs f list) (f colon) (placeStmts f body)
  | .commClause casePos comm colon body =>
    .commClause (f casePos) (placeStmt? f comm) (f colon) (placeStmts f body)

def placeStmts (f : Pos → Pos) : List Stmt → List Stmt
  | [] => []
  | s :: ss => s.place f :: placeStmts f ss

def placeStmt? (f : Pos → Pos) : Option Stmt → Option Stmt
  | none => none
  | some s => some (s.place f)

end

def Field.place (f : Pos → Pos) (field : Field) : Field :=
  ⟨field.names.map (Ident.place f), field.type.place f, field.tag.map (Literal.place f)⟩

def Spec.place (f : Pos → Pos) : Spec → Spec
  | .value names t values => .value (names.map (Ident.place f)) (placeExpr? f t)
      (placeExprs f values)
  | .type name equals t => .type (name.place f) (f equals) (t.place f)

def FuncDecl.place (f : Pos → Pos) (d : FuncDecl) : FuncDecl where
  funcPos := f d.funcPos
  recv := placeFieldList? f d.recv
  name := d.name.place f
  params := d.params.place f
  results := placeFieldList? f d.results
  body := d.body.map (Block.place f)

def Decl.place (f : Pos → Pos) : Decl → Decl
  | .func d => .func (d.place f)
  | .gen g => .gen (g.place f)

def ImportSpec.place (f : Pos → Pos) (spec : ImportSpec) : ImportSpec :=
  ⟨spec.name.map (Ident.place f), spec.path.place f⟩

def File.place (f : Pos → Pos) (file : File) : File :=
  ⟨f file.packagePos, file.name.place f, file.imports.map (ImportSpec.place f),
    file.decls.map (Decl.place f)⟩

theorem placeExprs_eq_map (es : List Expr) : placeExprs f es = es.map (Expr.place f) := by
  induction es with
  | nil => simp [placeExprs]
  | cons e es ih => simp [placeExprs, ih]

theorem placeExpr?_eq_map (e : Option Expr) : placeExpr? f e = e.map (Expr.place f) := by
  cases e <;> simp [placeExpr?]

theorem placeFields_eq_map (fields : List Field) :
    placeFields f fields = fields.map (Field.place f) := by
  induction fields with
  | nil => simp [placeFields]
  | cons field fields ih =>
    obtain ⟨names, type, tag⟩ := field
    simp [placeFields, Field.place, ih]

theorem placeSpecs_eq_map (specs : List Spec) : placeSpecs f specs = specs.map (Spec.place f) := by
  induction specs with
  | nil => simp [placeSpecs]
  | cons spec specs ih => cases spec <;> simp [placeSpecs, Spec.place, ih]

theorem placeStmts_eq_map (ss : List Stmt) : placeStmts f ss = ss.map (Stmt.place f) := by
  induction ss with
  | nil => simp [placeStmts]
  | cons s ss ih => simp [placeStmts, ih]

theorem placeStmt?_eq_map (s : Option Stmt) : placeStmt? f s = s.map (Stmt.place f) := by
  cases s <;> simp [placeStmt?]

theorem placeFieldList?_eq_map (fields : Option FieldList) :
    placeFieldList? f fields = fields.map (FieldList.place f) := by
  cases fields <;> simp [placeFieldList?]

@[simp] theorem Ident.place_id : Ident.place id = id := rfl

@[simp] theorem Literal.place_id : Literal.place id = id := rfl

attribute [local simp] Expr.place Block.place placeStmts Stmt.place placeExpr? placeStmt? placeExprs
  GenDecl.place placeSpecs FuncType.place placeFieldList? FieldList.place placeFields

theorem place_id_all :
    (∀ e : Expr, e.place id = e) ∧ (∀ b : Block, b.place id = b) ∧ (∀ ss, placeStmts id ss = ss) ∧
    (∀ s : Stmt, s.place id = s) ∧ (∀ e, placeExpr? id e = e) ∧ (∀ s, placeStmt? id s = s) ∧
    (∀ es, placeExprs id es = es) ∧ (∀ d : GenDecl, d.place id = d) ∧
    (∀ specs, placeSpecs id specs = specs) ∧
    (∀ t : FuncType, t.place id = t) ∧ (∀ r, placeFieldList? id r = r) ∧
    (∀ l : FieldList, l.place id = l) ∧
    ∀ l, placeFields id l = l := by
  apply Expr.move.mutual_induct
  all_goals intros
  all_goals simp_all

theorem Expr.place_id (e : Expr) : e.place id = e := place_id_all.1 e

theorem Block.place_id (b : Block) : b.place id = b := place_id_all.2.1 b

theorem Stmt.place_id (s : Stmt) : s.place id = s := place_id_all.2.2.2.1 s

theorem GenDecl.place_id (d : GenDecl) : d.place id = d := by simp only [place_id_all]

theorem FuncType.place_id (t : FuncType) : t.place id = t := by simp only [place_id_all]

theorem FieldList.place_id (l : FieldList) : l.place id = l := by simp only [place_id_all]

theorem Field.place_id (field : Field) : field.place id = field := by
  obtain ⟨names, t, tag⟩ := field
  simp [Field.place, Expr.place_id]

theorem Spec.place_id (spec : Spec) : spec.place id = spec := by
  cases spec <;> simp [Spec.place, place_id_all]

theorem FuncDecl.place_id (d : FuncDecl) : d.place id = d := by
  have hblock : Block.place id = id := funext Block.place_id
  simp [FuncDecl.place, place_id_all, hblock]

@[simp] theorem Decl.place_id (d : Decl) : d.place id = d := by
  cases d with
  | func d => simp [Decl.place, FuncDecl.place_id]
  | gen g => simp [Decl.place, GenDecl.place_id]

theorem ImportSpec.place_id (spec : ImportSpec) : spec.place id = spec := by
  simp [ImportSpec.place, Expr.place_id]

theorem File.place_id (file : File) : file.place id = file := by
  have himport : ImportSpec.place id = id := funext ImportSpec.place_id
  have hdecl : Decl.place id = id := funext Decl.place_id
  simp [File.place, himport, hdecl]

theorem Ident.place_move (f g : Nat → Nat) (x : Ident) :
    (x.move g).place (Option.map f) = x.move (f ∘ g) := by
  simp [Ident.place, Ident.move]

theorem Literal.place_move (f g : Nat → Nat) (l : Literal) :
    (l.move g).place (Option.map f) = l.move (f ∘ g) := by
  simp [Literal.place, Literal.move]

theorem Ident.place_comp_move (f g : Nat → Nat) :
    Ident.place (Option.map f) ∘ Ident.move g = Ident.move (f ∘ g) :=
  funext fun x => x.place_move f g

theorem Literal.place_comp_move (f g : Nat → Nat) :
    Literal.place (Option.map f) ∘ Literal.move g = Literal.move (f ∘ g) :=
  funext fun l => l.place_move f g

theorem place_move_all (f g : Nat → Nat) :
    (∀ e : Expr, (e.move g).place (Option.map f) = e.move (f ∘ g)) ∧
    (∀ b : Block, (b.move g).place (Option.map f) = b.move (f ∘ g)) ∧
    (∀ ss, placeStmts (Option.map f) (moveStmts g ss) = moveStmts (f ∘ g) ss) ∧
    (∀ s : Stmt, (s.move g).place (Option.map f) = s.move (f ∘ g)) ∧
    (∀ e, placeExpr? (Option.map f) (moveExpr? g e) = moveExpr? (f ∘ g) e) ∧
    (∀ s, placeStmt? (Option.map f) (moveStmt? g s) = moveStmt? (f ∘ g) s) ∧
    (∀ es, placeExprs (Option.map f) (moveExprs g es) = moveExprs (f ∘ g) es) ∧
    (∀ d : GenDecl, (d.move g).place (Option.map f) = d.move (f ∘ g)) ∧
    (∀ specs, placeSpecs (Option.map f) (moveSpecs g specs) = moveSpecs (f ∘ g) specs) ∧
    (∀ t : FuncType, (t.move g).place (Option.map f) = t.move (f ∘ g)) ∧
    (∀ r, placeFieldList? (Option.map f) (moveFieldList? g r) = moveFieldList? (f ∘ g) r) ∧
    (∀ l : FieldList, (l.move g).place (Option.map f) = l.move (f ∘ g)) ∧
    ∀ l, placeFields (Option.map f) (moveFields g l) = moveFields (f ∘ g) l := by
  apply Expr.move.mutual_induct
  all_goals intros
  all_goals
    simp_all [Expr.move, Block.move, moveStmts, Stmt.move, moveExpr?, moveStmt?, moveExprs,
      GenDecl.move, moveSpecs, FuncType.move, moveFieldList?, FieldList.move, moveFields,
      Ident.place_move, Literal.place_move, Ident.place_comp_move, Literal.place_comp_move]

end GoFun
