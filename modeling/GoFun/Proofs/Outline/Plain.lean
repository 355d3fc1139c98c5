import GoFun.Proofs.Outline.Alike

/-!
# Outlines of trees are plain

The kinds of expressions and of statements and their fields are listed in schemas, which all trees
keep to. Kinds and fields are labels, and no operator or word of a tree can be taken for the end of
a line or the opening of a block.
-/
namespace GoFun

open Outline.Line (positionFields)

def Field.outline (field : Field) : Outline :=
  .node "Field" [⟨"names", .value, .nodes (field.names.map Ident.outline)⟩,
    ⟨"ty", .value, .node field.type.outline⟩,
    ⟨"tag", .value, .ofOption (field.tag.map Literal.outline)⟩]

def Spec.outline : Spec → Outline
  | .value names t values =>
    .node "ValueSpec" [⟨"names", .value, .nodes (names.map Ident.outline)⟩,
      ⟨"ty", .value, outlineExpr? t⟩, ⟨"values", .value, .nodes (outlineExprs values)⟩]
  | .type name equals t =>
    .node "TypeSpec" [⟨"name", .value, .node name.outline⟩, ⟨"assign", .position, .pos equals⟩,
      ⟨"ty", .value, .node t.outline⟩]

theorem outlineExpr?_eq_map (e : Option Expr) :
    outlineExpr? e = .ofOption (e.map Expr.outline) := by
  cases e <;> simp [outlineExpr?, Value.ofOption]

theorem outlineStmt?_eq_map (s : Option Stmt) :
    outlineStmt? s = .ofOption (s.map Stmt.outline) := by
  cases s <;> simp [outlineStmt?, Value.ofOption]

theorem outlineFieldList?_eq_map (fields : Option FieldList) :
    outlineFieldList? fields = .ofOption (fields.map FieldList.outline) := by
  cases fields <;> simp [outlineFieldList?, Value.ofOption]

theorem outlineExprs_eq_map (es : List Expr) : outlineExprs es = es.map Expr.outline := by
  induction es <;> simp [outlineExprs, *]

theorem outlineStmts_eq_map (ss : List Stmt) : outlineStmts ss = ss.map Stmt.outline := by
  induction ss <;> simp [outlineStmts, *]

theorem outlineFields_eq_map (fields : List Field) :
    outlineFields fields = fields.map Field.outline := by
  induction fields with
  | nil => simp [outlineFields]
  | cons field fields ih =>
    obtain ⟨names, type, tag⟩ := field
    simp [outlineFields, Field.outline, ih]

theorem outlineSpecs_eq_map (specs : List Spec) : outlineSpecs specs = specs.map Spec.outline := by
  induction specs with
  | nil => simp [outlineSpecs]
  | cons spec specs ih => cases spec <;> simp [outlineSpecs, Spec.outline, ih]

/-- The kinds of expressions in the order of the constructors, with the names of their fields. -/
def Expr.schema : List (String × List String) :=
  [("Ident", ["name_pos", "name", "obj"]), ("BasicLit", ["value_pos", "kind", "value"]),
    ("ParenExpr", ["lparen", "x", "rparen"]), ("SelectorExpr", ["x", "sel"]),
    ("IndexExpr", ["x", "lbrack", "index", "rbrack"]),
    ("CallExpr", ["fun", "lparen", "args", "ellipsis", "rparen"]), ("StarExpr", ["star", "x"]),
    ("UnaryExpr", ["op_pos", "op", "x"]), ("BinaryExpr", ["x", "op_pos", "op", "y"]),
    ("ArrayType", ["lbrack", "len", "elt"]), ("MapType", ["map_pos", "key", "value"]),
    ("ChanType", ["begin", "dir", "value"]), ("StructType", ["struct_pos", "fields"]),
    ("CompositeLit", ["ty", "lbrace", "elts", "rbrace"]),
    ("KeyValueExpr", ["key", "colon", "value"]), ("FuncLit", ["ty", "body"]),
    ("SliceExpr", ["x", "lbrack", "low", "high", "max", "rbrack"]),
    ("TypeAssertExpr", ["x", "lparen", "ty", "rparen"]), ("Ellipsis", ["ellipsis", "elt"]),
      ("FuncType", ["func", "params", "results"]), ("InterfaceType", ["interface_pos", "methods"])]

def Stmt.schema : List (String × List String) :=
  [("DeclStmt", ["decl"]), ("ExprStmt", ["x"]), ("AssignStmt", ["lhs", "tok_pos", "tok", "rhs"]),
    ("IncDecStmt", ["x", "tok_pos", "tok"]), ("ReturnStmt", ["return_pos", "results"]),
    ("BranchStmt", ["tok_pos", "tok", "label"]), ("BlockStmt", ["lbrace", "list", "rbrace"]),
    ("IfStmt", ["if_pos", "init", "cond", "body", "else"]),
    ("ForStmt", ["for_pos", "init", "cond", "post", "body"]),
    ("RangeStmt", ["for_pos", "key", "value", "tok_pos", "tok", "x", "body"]),
    ("GoStmt", ["go_pos", "call"]), ("DeferStmt", ["defer_pos", "call"]),
    ("LabeledStmt", ["label", "colon", "stmt"]), ("SendStmt", ["chan", "arrow", "value"]),
    ("SwitchStmt", ["switch_pos", "init", "tag", "body"]),
    ("TypeSwitchStmt", ["switch_pos", "init", "assign", "body"]),
    ("SelectStmt", ["select_pos", "body"]), ("CaseClause", ["case", "list", "colon", "body"]),
      ("CommClause", ["case", "comm", "colon", "body"])]

theorem Expr.schema_outline (e : Expr) :
    Expr.schema[e.ctorIdx]? = some (e.outline.kind, e.outline.entries.map Entry.name) := by
  cases e with
  | func t =>
    obtain ⟨_, _, _⟩ := t
    simp only [Expr.outline, FuncType.outline]
    rfl
  | _ =>
    simp only [Expr.outline]
    rfl

theorem Stmt.schema_outline (s : Stmt) :
    Stmt.schema[s.ctorIdx]? = some (s.outline.kind, s.outline.entries.map Entry.name) := by
  cases s with
  | block b =>
    obtain ⟨_, _, _⟩ := b
    simp only [Stmt.outline, Block.outline]
    rfl
  | _ =>
    simp only [Stmt.outline]
    rfl

/-- Kinds differ, the fields of a kind differ, and all of them are labels. -/
def IsSchema (schema : List (String × List String)) : Prop :=
  (schema.map Prod.fst).Nodup ∧ ∀ x ∈ schema, x.2.Nodup ∧ isLabel x.1 = true ∧ ∀ name ∈ x.2,
    isLabel name = true

instance (schema : List (String × List String)) : Decidable (IsSchema schema) :=
  inferInstanceAs (Decidable (_ ∧ _))

theorem Expr.isSchema : IsSchema Expr.schema := by decide

theorem Stmt.isSchema : IsSchema Stmt.schema := by decide

theorem plainNodes_iff (os : List Outline) : PlainNodes os ↔ ∀ o ∈ os, o.IsPlain := by
  induction os with
  | nil => simp [PlainNodes]
  | cons o os ih => simp [PlainNodes, ih]

/-- The value is what the role and the name of the field say. -/
def Entry.Fits (x : Entry) : Prop :=
  (x.role = .position ↔ x.value.isPos = true) ∧ x.value.IsPlain x.name

theorem plainEntries_iff (es : List Entry) :
    PlainEntries es ↔ ∀ x ∈ es, isLabel x.name = true ∧ x.Fits := by
  induction es with
  | nil => simp [PlainEntries]
  | cons x es ih =>
    obtain ⟨name, role, value⟩ := x
    simp [PlainEntries, Entry.Fits, ih, and_assoc]

theorem Value.isPlain_ofOption {name : String} (hn : name ∉ positionFields) {o : Option Outline}
    (h : ∀ x ∈ o, x.IsPlain) :
    (Value.ofOption o).IsPlain name := by
  cases o with
  | none => simpa [Value.ofOption, Value.IsPlain] using hn
  | some x => simpa [Value.ofOption, Value.IsPlain] using h x rfl

/-- A node that keeps to a schema is plain when its values are. -/
theorem IsSchema.isPlain {schema : List (String × List String)} (hs : IsSchema schema) {i : Nat}
    {o : Outline}
    (hi : schema[i]? = some (o.kind, o.entries.map Entry.name)) (hv : ∀ x ∈ o.entries, x.Fits) :
    o.IsPlain := by
  obtain ⟨kind, entries⟩ := o
  obtain ⟨-, hkind, hnames⟩ := hs.2 _ (List.mem_of_getElem? hi)
  rw [Outline.IsPlain, plainEntries_iff]
  exact ⟨hkind, fun x hx => ⟨hnames _ (List.mem_map_of_mem hx), hv x hx⟩⟩

theorem Expr.plain_of_values {e : Expr} (hv : ∀ x ∈ e.outline.entries, x.Fits) :
    e.outline.IsPlain :=
  Expr.isSchema.isPlain e.schema_outline hv

theorem Stmt.plain_of_values {s : Stmt} (hv : ∀ x ∈ s.outline.entries, x.Fits) :
    s.outline.IsPlain :=
  Stmt.isSchema.isPlain s.schema_outline hv

theorem Value.isPos_mk : (∀ p, (Value.pos p).isPos = true) ∧ (∀ s, (Value.text s).isPos = false) ∧
    (∀ s, (Value.token s).isPos = false) ∧ (∀ o, (Value.node o).isPos = false) ∧
    ∀ os, (Value.nodes os).isPos = false :=
  ⟨fun _ => rfl, fun _ => rfl, fun _ => rfl, fun _ => rfl, fun _ => rfl⟩

theorem Value.isPos_ofOption (o : Option Outline) :
    (Value.ofOption o).isPos = false := by cases o <;> rfl

theorem isPos_outlineExpr? (e : Option Expr) : (outlineExpr? e).isPos = false := by
  rw [outlineExpr?_eq_map, Value.isPos_ofOption]

theorem isPos_outlineStmt? (s : Option Stmt) : (outlineStmt? s).isPos = false := by
  rw [outlineStmt?_eq_map, Value.isPos_ofOption]

theorem isPos_outlineFieldList? (fields : Option FieldList) :
    (outlineFieldList? fields).isPos = false := by
  rw [outlineFieldList?_eq_map, Value.isPos_ofOption]

theorem Value.isPos_assignOp? (op : Option AssignOp) :
    ((op.map fun o => Value.token o.symbol).getD .absent).isPos = false := by cases op <;> rfl

theorem UnaryOp.isToken_symbol (op : UnaryOp) : IsToken op.symbol := by cases op <;> decide

theorem BinaryOp.isToken_symbol (op : BinaryOp) : IsToken op.symbol := by cases op <;> decide

theorem AssignOp.isToken_symbol (op : AssignOp) : IsToken op.symbol := by cases op <;> decide

theorem Step.isToken_symbol (step : Step) : IsToken step.symbol := by cases step <;> decide

theorem Jump.isToken_word (jump : Jump) : IsToken jump.word := by cases jump <;> decide

theorem DeclWord.isToken_word (word : DeclWord) : IsToken word.word := by cases word <;> decide

theorem ChanDir.isToken_symbol (dir : ChanDir) : IsToken dir.symbol := by cases dir <;> decide

theorem ObjKind.isToken_word (kind : ObjKind) : IsToken kind.word := by cases kind <;> decide

theorem LitKind.isToken_symbol (kind : LitKind) : IsToken kind.symbol := by cases kind <;> decide

section Plain

attribute [local simp] Outline.IsPlain PlainEntries PlainNodes Value.IsPlain positionFields
  Outline.entries Expr.outline
  Stmt.outline Entry.Fits Value.isPos_mk Value.isPos_ofOption Value.isPos_assignOp?
  isPos_outlineExpr? isPos_outlineStmt? isPos_outlineFieldList? UnaryOp.isToken_symbol
  BinaryOp.isToken_symbol AssignOp.isToken_symbol Step.isToken_symbol Jump.isToken_word
  DeclWord.isToken_word ChanDir.isToken_symbol ObjKind.isToken_word LitKind.isToken_symbol

theorem Object.outline_plain (o : Object) : o.outline.IsPlain := by
  simp +decide [Object.outline]

theorem Ident.outline_plain (id : Ident) : id.outline.IsPlain := by
  have hobj : (Value.ofOption (id.obj.map Object.outline)).IsPlain "obj" :=
    Value.isPlain_ofOption (by decide) (by simpa using fun o _ => o.outline_plain)
  simp +decide [Ident.outline, hobj]

theorem Literal.outline_plain (l : Literal) : l.outline.IsPlain := by
  simp +decide [Literal.outline]

theorem plainNodes_idents (ids : List Ident) : PlainNodes (ids.map Ident.outline) := by
  simpa [plainNodes_iff] using fun id _ => id.outline_plain

theorem Value.isPlain_ident? (id : Option Ident) {name : String} (hn : name ∉ positionFields) :
    (Value.ofOption (id.map Ident.outline)).IsPlain name :=
  Value.isPlain_ofOption hn (by simpa using fun id _ => id.outline_plain)

theorem Value.isPlain_literal? (l : Option Literal) {name : String} (hn : name ∉ positionFields) :
    (Value.ofOption (l.map Literal.outline)).IsPlain name :=
  Value.isPlain_ofOption hn (by simpa using fun l _ => l.outline_plain)

theorem Value.isPlain_assignOp? (op : Option AssignOp) {name : String}
    (hn : name ∉ positionFields) :
    ((op.map fun o => Value.token o.symbol).getD .absent).IsPlain name := by
  cases op with
  | none => simpa using hn
  | some op => exact ⟨op.isToken_symbol, hn⟩

attribute [local simp] Ident.outline_plain Literal.outline_plain plainNodes_idents
  Value.isPlain_ident? Value.isPlain_literal? Value.isPlain_assignOp?

mutual

theorem Expr.outline_plain (e : Expr) : e.outline.IsPlain := by
  cases e
  case ident id => rw [Expr.outline]; exact id.outline_plain
  case lit l => rw [Expr.outline]; exact l.outline_plain
  case func t => rw [Expr.outline]; exact t.outline_plain
  all_goals
    refine Expr.plain_of_values ?_
    simp [Expr.outline_plain, plainNodes_outlineExprs, isPlain_outlineExpr?,
      FieldList.outline_plain, FuncType.outline_plain, Block.outline_plain]

theorem plainNodes_outlineExprs : ∀ es : List Expr, PlainNodes (outlineExprs es)
  | [] => by simp [outlineExprs]
  | e :: es => by simp [outlineExprs, e.outline_plain, plainNodes_outlineExprs es]

theorem isPlain_outlineExpr? :
    ∀ (e : Option Expr) {name : String}, name ∉ positionFields → (outlineExpr? e).IsPlain name
  | none, _, hn => by simpa [outlineExpr?] using hn
  | some e, _, _ => by simp [outlineExpr?, e.outline_plain]

theorem FieldList.outline_plain : ∀ fields : FieldList, fields.outline.IsPlain
  | ⟨_, list, _⟩ => by simp +decide [FieldList.outline, plainNodes_outlineFields list]

theorem plainNodes_outlineFields : ∀ fields : List Field, PlainNodes (outlineFields fields)
  | [] => by simp [outlineFields]
  | ⟨names, t, tag⟩ :: fields => by simp +decide
      [outlineFields, t.outline_plain, plainNodes_outlineFields fields]

theorem isPlain_outlineFieldList? :
    ∀ (fields : Option FieldList) {name : String}, name ∉ positionFields →
    (outlineFieldList? fields).IsPlain name
  | none, _, hn => by simpa [outlineFieldList?] using hn
  | some fields, _, _ => by simp [outlineFieldList?, fields.outline_plain]

theorem FuncType.outline_plain : ∀ t : FuncType, t.outline.IsPlain
  | ⟨_, params, results⟩ => by simp +decide
      [FuncType.outline, params.outline_plain, isPlain_outlineFieldList? results]

theorem Block.outline_plain : ∀ b : Block, b.outline.IsPlain
  | ⟨_, list, _⟩ => by simp +decide [Block.outline, plainNodes_outlineStmts list]

theorem plainNodes_outlineSpecs : ∀ specs : List Spec, PlainNodes (outlineSpecs specs)
  | [] => by simp [outlineSpecs]
  | .value names t values :: specs => by
    simp +decide [outlineSpecs, isPlain_outlineExpr? t, plainNodes_outlineExprs values,
      plainNodes_outlineSpecs specs]
  | .type name _ t :: specs => by simp +decide
    [outlineSpecs, t.outline_plain, plainNodes_outlineSpecs specs]

theorem GenDecl.outline_plain : ∀ d : GenDecl, d.outline.IsPlain
  | ⟨_, word, _, specs, _⟩ => by simp +decide [GenDecl.outline, plainNodes_outlineSpecs specs]

theorem Stmt.outline_plain (s : Stmt) : s.outline.IsPlain := by
  cases s
  case block b => rw [Stmt.outline]; exact b.outline_plain
  all_goals
    refine Stmt.plain_of_values ?_
    simp [Stmt.outline_plain, plainNodes_outlineStmts, isPlain_outlineStmt?, Expr.outline_plain,
      plainNodes_outlineExprs, isPlain_outlineExpr?, Block.outline_plain, GenDecl.outline_plain]

theorem plainNodes_outlineStmts : ∀ ss : List Stmt, PlainNodes (outlineStmts ss)
  | [] => by simp [outlineStmts]
  | s :: ss => by simp [outlineStmts, s.outline_plain, plainNodes_outlineStmts ss]

theorem isPlain_outlineStmt? :
    ∀ (s : Option Stmt) {name : String}, name ∉ positionFields → (outlineStmt? s).IsPlain name
  | none, _, hn => by simpa [outlineStmt?] using hn
  | some s, _, _ => by simp [outlineStmt?, s.outline_plain]

end

theorem FuncDecl.outline_plain (d : FuncDecl) : d.outline.IsPlain := by
  have hfields : ∀ (fields : Option FieldList) {name : String}, name ∉ positionFields →
      (Value.ofOption (fields.map FieldList.outline)).IsPlain name := fun fields _ hn =>
    Value.isPlain_ofOption hn (by simpa using fun x _ => x.outline_plain)
  have hbody : (Value.ofOption (d.body.map Block.outline)).IsPlain "body" :=
    Value.isPlain_ofOption (by decide) (by simpa using fun x _ => x.outline_plain)
  simp +decide [FuncDecl.outline, hfields, d.params.outline_plain, hbody]

theorem Decl.outline_plain (d : Decl) : d.outline.IsPlain := by
  cases d with
  | func f => exact f.outline_plain
  | gen g => exact g.outline_plain

theorem ImportSpec.outline_plain (spec : ImportSpec) : spec.outline.IsPlain := by
  simp +decide [ImportSpec.outline, spec.path.outline_plain]

theorem File.outline_plain (file : File) : file.outline.IsPlain := by
  have himports : PlainNodes (file.imports.map ImportSpec.outline) := by
    simpa [plainNodes_iff] using fun spec _ => spec.outline_plain
  have hdecls : PlainNodes (file.decls.map Decl.outline) := by
    simpa [plainNodes_iff] using fun d _ => d.outline_plain
  simp +decide [File.outline, himports, hdecls]

theorem Field.outline_plain (field : Field) : field.outline.IsPlain := by
  have h := plainNodes_outlineFields [field]
  rw [outlineFields_eq_map, plainNodes_iff] at h
  exact h _ (by simp)

theorem Spec.outline_plain (spec : Spec) : spec.outline.IsPlain := by
  have h := plainNodes_outlineSpecs [spec]
  rw [outlineSpecs_eq_map, plainNodes_iff] at h
  exact h _ (by simp)

end Plain

end GoFun
