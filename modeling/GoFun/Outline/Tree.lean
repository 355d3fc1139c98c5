import GoFun.Outline.Basic
import GoFun.Tree.Basic

/-!
# Outlines of trees

Every node of a tree lists all its fields in a fixed order.
-/
namespace GoFun

def Object.outline (o : Object) : Outline :=
  .node "Object" [⟨"kind", .value, .token o.kind.word⟩, ⟨"name", .value, .text o.name⟩]

/-- The value of a field that may be absent. -/
def Value.ofOption : Option Outline → Value
  | some o => .node o
  | none => .absent

def Ident.outline (id : Ident) : Outline :=
  .node "Ident" [⟨"name_pos", .position, .pos id.pos⟩, ⟨"name", .value, .text id.name⟩,
    ⟨"obj", .metadata, .ofOption (id.obj.map Object.outline)⟩]

def Literal.outline (l : Literal) : Outline :=
  .node "BasicLit" [⟨"value_pos", .position, .pos l.pos⟩, ⟨"kind", .value, .token l.kind.symbol⟩,
    ⟨"value", .value, .text l.text⟩]

mutual

def Expr.outline : Expr → Outline
  | .ident id => id.outline
  | .lit l => l.outline
  | .paren lparen x rparen =>
    .node "ParenExpr" [⟨"lparen", .position, .pos lparen⟩, ⟨"x", .value, .node x.outline⟩,
      ⟨"rparen", .position, .pos rparen⟩]
  | .selector x sel =>
    .node "SelectorExpr" [⟨"x", .value, .node x.outline⟩, ⟨"sel", .value, .node sel.outline⟩]
  | .index x lbrack i rbrack =>
    .node "IndexExpr" [⟨"x", .value, .node x.outline⟩, ⟨"lbrack", .position, .pos lbrack⟩,
      ⟨"index", .value, .node i.outline⟩, ⟨"rbrack", .position, .pos rbrack⟩]
  | .call f lparen args dots rparen =>
    .node "CallExpr" [⟨"fun", .value, .node f.outline⟩, ⟨"lparen", .position, .pos lparen⟩,
      ⟨"args", .value, .nodes (outlineExprs args)⟩, ⟨"ellipsis", .position, .pos dots⟩,
      ⟨"rparen", .position, .pos rparen⟩]
  | .star starPos x =>
    .node "StarExpr" [⟨"star", .position, .pos starPos⟩, ⟨"x", .value, .node x.outline⟩]
  | .unary opPos op x =>
    .node "UnaryExpr" [⟨"op_pos", .position, .pos opPos⟩, ⟨"op", .value, .token op.symbol⟩,
      ⟨"x", .value, .node x.outline⟩]
  | .binary x opPos op y =>
    .node "BinaryExpr" [⟨"x", .value, .node x.outline⟩, ⟨"op_pos", .position, .pos opPos⟩,
      ⟨"op", .value, .token op.symbol⟩, ⟨"y", .value, .node y.outline⟩]
  | .array lbrack len elem =>
    .node "ArrayType" [⟨"lbrack", .position, .pos lbrack⟩, ⟨"len", .value, outlineExpr? len⟩,
      ⟨"elt", .value, .node elem.outline⟩]
  | .map mapPos key value =>
    .node "MapType" [⟨"map_pos", .position, .pos mapPos⟩, ⟨"key", .value, .node key.outline⟩,
      ⟨"value", .value, .node value.outline⟩]
  | .chan chanPos dir value =>
    .node "ChanType" [⟨"begin", .position, .pos chanPos⟩, ⟨"dir", .value, .token dir.symbol⟩,
      ⟨"value", .value, .node value.outline⟩]
  | .struct structPos fields =>
    .node "StructType" [⟨"struct_pos", .position, .pos structPos⟩,
      ⟨"fields", .value, .node fields.outline⟩]
  | .composite type lbrace elems rbrace =>
    .node "CompositeLit" [⟨"ty", .value, outlineExpr? type⟩, ⟨"lbrace", .position, .pos lbrace⟩,
      ⟨"elts", .value, .nodes (outlineExprs elems)⟩, ⟨"rbrace", .position, .pos rbrace⟩]
  | .keyValue key colon value =>
    .node "KeyValueExpr" [⟨"key", .value, .node key.outline⟩, ⟨"colon", .position, .pos colon⟩,
      ⟨"value", .value, .node value.outline⟩]
  | .funcLit type body =>
    .node "FuncLit" [⟨"ty", .value, .node type.outline⟩, ⟨"body", .value, .node body.outline⟩]
  | .slice x lbrack low high max rbrack =>
    .node "SliceExpr" [⟨"x", .value, .node x.outline⟩, ⟨"lbrack", .position, .pos lbrack⟩,
      ⟨"low", .value, outlineExpr? low⟩, ⟨"high", .value, outlineExpr? high⟩,
      ⟨"max", .value, outlineExpr? max⟩, ⟨"rbrack", .position, .pos rbrack⟩]
  | .assertion x lparen type rparen =>
    .node "TypeAssertExpr" [⟨"x", .value, .node x.outline⟩, ⟨"lparen", .position, .pos lparen⟩,
      ⟨"ty", .value, outlineExpr? type⟩, ⟨"rparen", .position, .pos rparen⟩]
  | .ellipsis dots elem =>
    .node "Ellipsis" [⟨"ellipsis", .position, .pos dots⟩, ⟨"elt", .value, outlineExpr? elem⟩]
  | .func type => type.outline
  | .interface interfacePos methods =>
    .node "InterfaceType" [⟨"interface_pos", .position, .pos interfacePos⟩,
      ⟨"methods", .value, .node methods.outline⟩]

def outlineExprs : List Expr → List Outline
  | [] => []
  | e :: es => e.outline :: outlineExprs es

def outlineExpr? : Option Expr → Value
  | none => .absent
  | some e => .node e.outline

def FieldList.outline : FieldList → Outline
  | ⟨opening, list, closing⟩ =>
    .node "FieldList" [⟨"opening", .position, .pos opening⟩,
      ⟨"list", .value, .nodes (outlineFields list)⟩, ⟨"closing", .position, .pos closing⟩]

def outlineFields : List Field → List Outline
  | [] => []
  | ⟨names, type, tag⟩ :: fields =>
    .node "Field" [⟨"names", .value, .nodes (names.map Ident.outline)⟩,
      ⟨"ty", .value, .node type.outline⟩,
      ⟨"tag", .value, .ofOption (tag.map Literal.outline)⟩] :: outlineFields fields

def outlineFieldList? : Option FieldList → Value
  | none => .absent
  | some fields => .node fields.outline

def FuncType.outline : FuncType → Outline
  | ⟨funcPos, params, results⟩ =>
    .node "FuncType" [⟨"func", .position, .pos funcPos⟩, ⟨"params", .value, .node params.outline⟩,
      ⟨"results", .value, outlineFieldList? results⟩]

def Block.outline : Block → Outline
  | ⟨lbrace, list, rbrace⟩ =>
    .node "BlockStmt" [⟨"lbrace", .position, .pos lbrace⟩,
      ⟨"list", .value, .nodes (outlineStmts list)⟩, ⟨"rbrace", .position, .pos rbrace⟩]

def outlineSpecs : List Spec → List Outline
  | [] => []
  | .value names type values :: specs =>
    .node "ValueSpec" [⟨"names", .value, .nodes (names.map Ident.outline)⟩,
      ⟨"ty", .value, outlineExpr? type⟩,
      ⟨"values", .value, .nodes (outlineExprs values)⟩] :: outlineSpecs specs
  | .type name equals type :: specs =>
    .node "TypeSpec" [⟨"name", .value, .node name.outline⟩, ⟨"assign", .position, .pos equals⟩,
      ⟨"ty", .value, .node type.outline⟩] :: outlineSpecs specs

def GenDecl.outline : GenDecl → Outline
  | ⟨wordPos, word, lparen, specs, rparen⟩ =>
    .node "GenDecl" [⟨"tok_pos", .position, .pos wordPos⟩, ⟨"tok", .value, .token word.word⟩,
      ⟨"lparen", .position, .pos lparen⟩, ⟨"specs", .value, .nodes (outlineSpecs specs)⟩,
      ⟨"rparen", .position, .pos rparen⟩]

def Stmt.outline : Stmt → Outline
  | .decl d => .node "DeclStmt" [⟨"decl", .value, .node d.outline⟩]
  | .expr x => .node "ExprStmt" [⟨"x", .value, .node x.outline⟩]
  | .assign lhs opPos op rhs =>
    .node "AssignStmt" [⟨"lhs", .value, .nodes (outlineExprs lhs)⟩,
      ⟨"tok_pos", .position, .pos opPos⟩, ⟨"tok", .value, .token op.symbol⟩,
      ⟨"rhs", .value, .nodes (outlineExprs rhs)⟩]
  | .incDec x stepPos step =>
    .node "IncDecStmt" [⟨"x", .value, .node x.outline⟩, ⟨"tok_pos", .position, .pos stepPos⟩,
      ⟨"tok", .value, .token step.symbol⟩]
  | .ret retPos results =>
    .node "ReturnStmt" [⟨"return_pos", .position, .pos retPos⟩,
      ⟨"results", .value, .nodes (outlineExprs results)⟩]
  | .jump jumpPos word label =>
    .node "BranchStmt" [⟨"tok_pos", .position, .pos jumpPos⟩, ⟨"tok", .value, .token word.word⟩,
      ⟨"label", .value, .ofOption (label.map Ident.outline)⟩]
  | .block b => b.outline
  | .ifElse ifPos init cond body other =>
    .node "IfStmt" [⟨"if_pos", .position, .pos ifPos⟩, ⟨"init", .value, outlineStmt? init⟩,
      ⟨"cond", .value, .node cond.outline⟩, ⟨"body", .value, .node body.outline⟩,
      ⟨"else", .value, outlineStmt? other⟩]
  | .forLoop forPos init cond post body =>
    .node "ForStmt" [⟨"for_pos", .position, .pos forPos⟩, ⟨"init", .value, outlineStmt? init⟩,
      ⟨"cond", .value, outlineExpr? cond⟩, ⟨"post", .value, outlineStmt? post⟩,
      ⟨"body", .value, .node body.outline⟩]
  | .range forPos key value opPos op x body =>
    .node "RangeStmt" [⟨"for_pos", .position, .pos forPos⟩, ⟨"key", .value, outlineExpr? key⟩,
      ⟨"value", .value, outlineExpr? value⟩, ⟨"tok_pos", .position, .pos opPos⟩,
      ⟨"tok", .value, (op.map fun o => Value.token o.symbol).getD .absent⟩,
      ⟨"x", .value, .node x.outline⟩, ⟨"body", .value, .node body.outline⟩]
  | .go goPos call =>
    .node "GoStmt" [⟨"go_pos", .position, .pos goPos⟩, ⟨"call", .value, .node call.outline⟩]
  | .defer deferPos call =>
    .node "DeferStmt" [⟨"defer_pos", .position, .pos deferPos⟩,
      ⟨"call", .value, .node call.outline⟩]
  | .labeled label colon stmt =>
    .node "LabeledStmt" [⟨"label", .value, .node label.outline⟩, ⟨"colon", .position, .pos colon⟩,
      ⟨"stmt", .value, .node stmt.outline⟩]
  | .send chan arrow value =>
    .node "SendStmt" [⟨"chan", .value, .node chan.outline⟩, ⟨"arrow", .position, .pos arrow⟩,
      ⟨"value", .value, .node value.outline⟩]
  | .switch switchPos init tag body =>
    .node "SwitchStmt" [⟨"switch_pos", .position, .pos switchPos⟩,
      ⟨"init", .value, outlineStmt? init⟩, ⟨"tag", .value, outlineExpr? tag⟩,
      ⟨"body", .value, .node body.outline⟩]
  | .typeSwitch switchPos init guard body =>
    .node "TypeSwitchStmt" [⟨"switch_pos", .position, .pos switchPos⟩,
      ⟨"init", .value, outlineStmt? init⟩, ⟨"assign", .value, .node guard.outline⟩,
      ⟨"body", .value, .node body.outline⟩]
  | .select selectPos body =>
    .node "SelectStmt" [⟨"select_pos", .position, .pos selectPos⟩,
      ⟨"body", .value, .node body.outline⟩]
  | .caseClause casePos list colon body =>
    .node "CaseClause" [⟨"case", .position, .pos casePos⟩,
      ⟨"list", .value, .nodes (outlineExprs list)⟩, ⟨"colon", .position, .pos colon⟩,
      ⟨"body", .value, .nodes (outlineStmts body)⟩]
  | .commClause casePos comm colon body =>
    .node "CommClause" [⟨"case", .position, .pos casePos⟩, ⟨"comm", .value, outlineStmt? comm⟩,
      ⟨"colon", .position, .pos colon⟩, ⟨"body", .value, .nodes (outlineStmts body)⟩]

def outlineStmts : List Stmt → List Outline
  | [] => []
  | s :: ss => s.outline :: outlineStmts ss

def outlineStmt? : Option Stmt → Value
  | none => .absent
  | some s => .node s.outline

end

def FuncDecl.outline (f : FuncDecl) : Outline :=
  .node "FuncDecl" [⟨"func", .position, .pos f.funcPos⟩,
    ⟨"recv", .value, .ofOption (f.recv.map FieldList.outline)⟩,
    ⟨"name", .value, .node f.name.outline⟩, ⟨"params", .value, .node f.params.outline⟩,
    ⟨"results", .value, .ofOption (f.results.map FieldList.outline)⟩,
    ⟨"body", .value, .ofOption (f.body.map Block.outline)⟩]

def Decl.outline : Decl → Outline
  | .func f => f.outline
  | .gen g => g.outline

def ImportSpec.outline (s : ImportSpec) : Outline :=
  .node "ImportSpec" [⟨"name", .value, .ofOption (s.name.map Ident.outline)⟩,
    ⟨"path", .value, .node s.path.outline⟩]

def File.outline (f : File) : Outline :=
  .node "File" [⟨"package", .position, .pos f.packagePos⟩, ⟨"name", .value, .node f.name.outline⟩,
    ⟨"imports", .value, .nodes (f.imports.map ImportSpec.outline)⟩,
    ⟨"decls", .value, .nodes (f.decls.map Decl.outline)⟩]

end GoFun
