import GoFun.Proofs.Scope.Move

/-!
# Tokens of trees

The tokens of a tree are its words, literals, operators and brackets in the order in which the tree
is printed. A tree records where most of them stand, but not all: the dot of a selector, for
instance, has no position. Commas, semicolons and line breaks are no tokens.
-/
namespace GoFun

inductive Token.Kind
  | name
  | literal
  /-- A keyword, an operator or a bracket. -/
  | fixed
  deriving DecidableEq, Repr

structure Token where
  /-- The position that the tree has for the token, if it has one for it. -/
  place : Option Pos
  text : String
  kind : Token.Kind
  deriving DecidableEq, Repr

namespace Token

def placed (p : Pos) (w : String) : Token := ⟨some p, w, .fixed⟩

def loose (w : String) : Token := ⟨none, w, .fixed⟩

def known (p : Pos) (w : String) : List Token := if p.isSome then [placed p w] else []

@[simp] theorem text_placed (p : Pos) (w : String) : (placed p w).text = w := rfl

@[simp] theorem text_loose (w : String) : (loose w).text = w := rfl

end Token

open Token

def Ident.token (id : Ident) : Token := ⟨some id.pos, id.name, .name⟩

def Literal.token (l : Literal) : Token := ⟨some l.pos, l.text, .literal⟩

@[simp] theorem Ident.text_token (id : Ident) : id.token.text = id.name := rfl

@[simp] theorem Literal.text_token (l : Literal) : l.token.text = l.text := rfl

def ChanDir.tokens (p : Pos) : ChanDir → List Token
  | both => [placed p "chan"]
  | send => [placed p "chan", loose "<-"]
  | receive => [placed p "<-", loose "chan"]

/-- How many tokens of its type a method leaves out: the word `func`, which is not in front of its
signature. -/
def silentTokens (names : List Ident) : Expr → Nat
  | .func ⟨none, _, _⟩ => if names.isEmpty then 0 else 1
  | _ => 0

@[simp] theorem silentTokens_nil (e : Expr) : silentTokens [] e = 0 := by
  unfold silentTokens
  split <;> rfl

mutual

def Expr.tokens : Expr → List Token
  | .ident id => [id.token]
  | .lit l => [l.token]
  | .paren lparen x rparen => placed lparen "(" :: (x.tokens ++ [placed rparen ")"])
  | .selector x sel => x.tokens ++ [loose ".", sel.token]
  | .index x lbrack i rbrack => x.tokens ++ placed lbrack "[" :: (i.tokens ++ [placed rbrack "]"])
  | .call f lparen args dots rparen =>
    f.tokens ++ placed lparen "(" :: (tokensOfExprs args ++ known dots "..." ++ [placed rparen ")"])
  | .star starPos x => placed starPos "*" :: x.tokens
  | .unary opPos op x => placed opPos op.symbol :: x.tokens
  | .binary x opPos op y => x.tokens ++ placed opPos op.symbol :: y.tokens
  | .array lbrack len elem => placed lbrack "[" ::
      (tokensOfExpr? [] len ++ loose "]" :: elem.tokens)
  | .map mapPos key value => placed mapPos "map" :: loose "[" ::
      (key.tokens ++ loose "]" :: value.tokens)
  | .chan chanPos dir value => dir.tokens chanPos ++ value.tokens
  | .struct structPos fields => placed structPos "struct" :: fields.tokens "\x7b" "\x7d"
  | .composite type lbrace elems rbrace =>
    tokensOfExpr? [] type ++ placed lbrace "\x7b" :: (tokensOfExprs elems ++ [placed rbrace "\x7d"])
  | .keyValue key colon value => key.tokens ++ placed colon ":" :: value.tokens
  | .funcLit type body => placed type.funcPos "func" :: (type.tokens ++ body.tokens)
  | .slice x lbrack low high max rbrack =>
    x.tokens ++ placed lbrack "[" :: (tokensOfExpr? [] low ++ loose ":" :: (tokensOfExpr? [] high ++
      tokensOfExpr? [loose ":"] max ++ [placed rbrack "]"]))
  | .assertion x lparen type rparen =>
    x.tokens ++ loose "." :: placed lparen "(" :: ((if type.isSome then [] else [loose "type"]) ++
      tokensOfExpr? [] type ++ [placed rparen ")"])
  | .ellipsis dots elem => placed dots "..." :: tokensOfExpr? [] elem
  | .func type => placed type.funcPos "func" :: type.tokens
  | .interface interfacePos methods => placed interfacePos "interface" :: methods.methodTokens

def tokensOfExprs : List Expr → List Token
  | [] => []
  | e :: es => e.tokens ++ tokensOfExprs es

def tokensOfExpr? (before : List Token) : Option Expr → List Token
  | none => []
  | some e => before ++ e.tokens

def tokensOfFields : List Field → List Token
  | [] => []
  | ⟨names, type, tag⟩ :: fields =>
    names.map Ident.token ++ type.tokens ++ tag.toList.map Literal.token ++ tokensOfFields fields

def FieldList.tokens (before after : String) : FieldList → List Token
  | ⟨opening, list, closing⟩ => placed opening before ::
      (tokensOfFields list ++ [placed closing after])

def tokensOfMethods : List Field → List Token
  | [] => []
  | ⟨names, type, tag⟩ :: fields =>
    names.map Ident.token ++ type.tokens.drop (silentTokens names type) ++
      tag.toList.map Literal.token ++ tokensOfMethods fields

def FieldList.methodTokens : FieldList → List Token
  | ⟨opening, list, closing⟩ => placed opening "\x7b" ::
      (tokensOfMethods list ++ [placed closing "\x7d"])

/-- The tokens of a signature, without the word in front. -/
def FuncType.tokens : FuncType → List Token
  | ⟨_, params, results⟩ => params.tokens "(" ")" ++ tokensOfResults results

/-- A single result without a name may have no brackets. -/
def tokensOfResults : Option FieldList → List Token
  | none => []
  | some ⟨opening, [⟨[], type, _⟩], closing⟩ =>
    (if closing.isSome then [placed opening "("] else []) ++ type.tokens ++ known closing ")"
  | some ⟨opening, list, closing⟩ => placed opening "(" ::
      (tokensOfFields list ++ [placed closing ")"])

def Block.tokens : Block → List Token
  | ⟨lbrace, list, rbrace⟩ => placed lbrace "\x7b" :: (tokensOfStmts list ++ [placed rbrace "\x7d"])

def tokensOfSpecs : List Spec → List Token
  | [] => []
  | .value names type values :: specs =>
    names.map Ident.token ++ tokensOfExpr? [] type ++
      (if values.isEmpty then [] else [loose "="]) ++ tokensOfExprs values ++ tokensOfSpecs specs
  | .type name equals type :: specs => name.token ::
      (known equals "=" ++ type.tokens ++ tokensOfSpecs specs)

def GenDecl.tokens : GenDecl → List Token
  | ⟨wordPos, word, lparen, specs, rparen⟩ =>
    placed wordPos word.word :: (known lparen "(" ++ tokensOfSpecs specs ++ known rparen ")")

def Stmt.tokens : Stmt → List Token
  | .decl d => d.tokens
  | .expr x => x.tokens
  | .assign lhs opPos op rhs => tokensOfExprs lhs ++ placed opPos op.symbol :: tokensOfExprs rhs
  | .incDec x stepPos step => x.tokens ++ [placed stepPos step.symbol]
  | .ret retPos results => placed retPos "return" :: tokensOfExprs results
  | .jump jumpPos word label => placed jumpPos word.word :: label.toList.map Ident.token
  | .block b => b.tokens
  | .ifElse ifPos init cond body other =>
    placed ifPos "if" :: (tokensOfStmt? [] init ++ cond.tokens ++ body.tokens ++
      tokensOfStmt? [loose "else"] other)
  | .forLoop forPos init cond post body =>
    placed forPos "for" :: (tokensOfStmt? [] init ++ tokensOfExpr? [] cond ++
      tokensOfStmt? [] post ++ body.tokens)
  | .range forPos key value opPos op x body =>
    placed forPos "for" :: (tokensOfExpr? [] key ++ tokensOfExpr? [] value ++
      op.toList.map (fun o => placed opPos o.symbol) ++ loose "range" :: (x.tokens ++ body.tokens))
  | .go goPos call => placed goPos "go" :: call.tokens
  | .defer deferPos call => placed deferPos "defer" :: call.tokens
  | .labeled label colon stmt => label.token :: placed colon ":" :: stmt.tokens
  | .send chan arrow value => chan.tokens ++ placed arrow "<-" :: value.tokens
  | .switch switchPos init tag body =>
    placed switchPos "switch" :: (tokensOfStmt? [] init ++ tokensOfExpr? [] tag ++ body.tokens)
  | .typeSwitch switchPos init guard body =>
    placed switchPos "switch" :: (tokensOfStmt? [] init ++ guard.tokens ++ body.tokens)
  | .select selectPos body => placed selectPos "select" :: body.tokens
  | .caseClause casePos list colon body =>
    placed casePos (if list.isEmpty then "default" else "case") :: (tokensOfExprs list ++
      placed colon ":" :: tokensOfStmts body)
  | .commClause casePos comm colon body =>
    placed casePos (if comm.isSome then "case" else "default") :: (tokensOfStmt? [] comm ++
      placed colon ":" :: tokensOfStmts body)

def tokensOfStmts : List Stmt → List Token
  | [] => []
  | s :: ss => s.tokens ++ tokensOfStmts ss

def tokensOfStmt? (before : List Token) : Option Stmt → List Token
  | none => []
  | some s => before ++ s.tokens

end

def Field.tokens (f : Field) : List Token :=
  f.names.map Ident.token ++ f.type.tokens ++ f.tag.toList.map Literal.token

def Field.methodTokens (f : Field) : List Token :=
  f.names.map Ident.token ++ f.type.tokens.drop (silentTokens f.names f.type) ++
    f.tag.toList.map Literal.token

def Spec.tokens : Spec → List Token
  | .value names t values =>
    names.map Ident.token ++ tokensOfExpr? [] t ++ (if values.isEmpty then [] else [loose "="]) ++
      tokensOfExprs values
  | .type name equals t => name.token :: (known equals "=" ++ t.tokens)

def FuncDecl.tokens (d : FuncDecl) : List Token :=
  placed d.funcPos "func" :: (d.recv.toList.flatMap (FieldList.tokens "(" ")") ++ d.name.token ::
    (FuncType.tokens ⟨d.funcPos, d.params, d.results⟩ ++ d.body.toList.flatMap Block.tokens))

def Decl.tokens : Decl → List Token
  | .func d => d.tokens
  | .gen g => g.tokens

theorem tokensOfExprs_eq (es : List Expr) : tokensOfExprs es = es.flatMap Expr.tokens := by
  induction es with
  | nil => simp [tokensOfExprs]
  | cons e es ih => simp [tokensOfExprs, ih]

theorem tokensOfExpr?_eq (before : List Token) (e : Option Expr) :
    tokensOfExpr? before e = e.toList.flatMap fun e => before ++ e.tokens := by
  cases e <;> simp [tokensOfExpr?]

theorem tokensOfFields_eq (fields : List Field) :
    tokensOfFields fields = fields.flatMap Field.tokens := by
  induction fields with
  | nil => simp [tokensOfFields]
  | cons f fields ih =>
    obtain ⟨names, type, tag⟩ := f
    simp [tokensOfFields, Field.tokens, ih]

theorem tokensOfMethods_eq (fields : List Field) :
    tokensOfMethods fields = fields.flatMap Field.methodTokens := by
  induction fields with
  | nil => simp [tokensOfMethods]
  | cons f fields ih =>
    obtain ⟨names, type, tag⟩ := f
    simp [tokensOfMethods, Field.methodTokens, ih]

@[simp] theorem tokensOfResults_none : tokensOfResults none = [] := by simp [tokensOfResults]

theorem tokensOfSpecs_eq (specs : List Spec) : tokensOfSpecs specs = specs.flatMap Spec.tokens := by
  induction specs with
  | nil => simp [tokensOfSpecs]
  | cons spec specs ih => cases spec <;> simp [tokensOfSpecs, Spec.tokens, ih]

theorem tokensOfStmts_eq (ss : List Stmt) : tokensOfStmts ss = ss.flatMap Stmt.tokens := by
  induction ss with
  | nil => simp [tokensOfStmts]
  | cons s ss ih => simp [tokensOfStmts, ih]

theorem tokensOfStmt?_eq (before : List Token) (s : Option Stmt) :
    tokensOfStmt? before s = s.toList.flatMap fun s => before ++ s.tokens := by
  cases s <;> simp [tokensOfStmt?]

@[simp] theorem Ident.token_move (x : Ident) :
    (x.move id).token = x.token := by simp [Ident.token, Ident.move]

@[simp] theorem Literal.token_move (l : Literal) :
    (l.move id).token = l.token := by simp [Literal.token, Literal.move]

@[simp] theorem Ident.token_comp_move : Ident.token ∘ Ident.move id = Ident.token :=
  funext Ident.token_move

@[simp] theorem Literal.token_comp_move : Literal.token ∘ Literal.move id = Literal.token :=
  funext Literal.token_move

@[simp] theorem FuncType.funcPos_move (t : FuncType) : (t.move id).funcPos = t.funcPos := by
  obtain ⟨funcPos, params, results⟩ := t
  simp [FuncType.move]

theorem silentTokens_move (names : List Ident) (e : Expr) :
    silentTokens (names.map (Ident.move id)) (e.move id) = silentTokens names e := by
  cases e with
  | func t =>
    obtain ⟨funcPos, params, results⟩ := t
    cases funcPos <;> simp [Expr.move, FuncType.move, silentTokens]
  | _ => rfl

@[simp] theorem isSome_moveExpr? (f : Nat → Nat) (e : Option Expr) :
    (moveExpr? f e).isSome = e.isSome := by
  simp [moveExpr?_eq_map]

@[simp] theorem isSome_moveStmt? (f : Nat → Nat) (s : Option Stmt) :
    (moveStmt? f s).isSome = s.isSome := by
  simp [moveStmt?_eq_map]

@[simp] theorem moveExprs_eq_nil (f : Nat → Nat) (es : List Expr) :
    moveExprs f es = [] ↔ es = [] := by
  simp [moveExprs_eq_map]

theorem tokens_moveResults : ∀ {r : Option FieldList},
    (∀ l ∈ r, tokensOfFields (moveFields id l.list) = tokensOfFields l.list) →
      tokensOfResults (moveFieldList? id r) = tokensOfResults r
  | none, _ => rfl
  | some ⟨_, [], _⟩, _ => by simp [moveFieldList?, FieldList.move, moveFields, tokensOfResults]
  | some ⟨_, [⟨[], _, _⟩], _⟩, h => by
    simpa [moveFieldList?, FieldList.move, moveFields, tokensOfResults, tokensOfFields,
      Option.toList_map] using h
  | some ⟨_, ⟨_ :: _, _, _⟩ :: _, _⟩,
    h => by simpa [moveFieldList?, FieldList.move, moveFields, tokensOfResults] using h
  | some ⟨_, ⟨[], _, _⟩ :: ⟨_, _, _⟩ :: _, _⟩, h => by
    simpa [moveFieldList?, FieldList.move, moveFields, tokensOfResults] using h

theorem tokens_move_all :
    (∀ e : Expr, (e.move id).tokens = e.tokens) ∧ (∀ b : Block, (b.move id).tokens = b.tokens) ∧
    (∀ ss, tokensOfStmts (moveStmts id ss) = tokensOfStmts ss) ∧
    (∀ s : Stmt, (s.move id).tokens = s.tokens) ∧
    (∀ e before, tokensOfExpr? before (moveExpr? id e) = tokensOfExpr? before e) ∧
    (∀ s before, tokensOfStmt? before (moveStmt? id s) = tokensOfStmt? before s) ∧
    (∀ es, tokensOfExprs (moveExprs id es) = tokensOfExprs es) ∧
    (∀ d : GenDecl, (d.move id).tokens = d.tokens) ∧
    (∀ specs, tokensOfSpecs (moveSpecs id specs) = tokensOfSpecs specs) ∧
    (∀ t : FuncType, (t.move id).tokens = t.tokens) ∧
    (∀ r, tokensOfResults (moveFieldList? id r) = tokensOfResults r ∧
      ∀ l ∈ r, ∀ before after, (l.move id).tokens before after = l.tokens before after) ∧
    (∀ l : FieldList, tokensOfFields (moveFields id l.list) = tokensOfFields l.list ∧
      (∀ before after, (l.move id).tokens before after = l.tokens before after) ∧
      (l.move id).methodTokens = l.methodTokens) ∧
    ∀ l, tokensOfFields (moveFields id l) = tokensOfFields l ∧
    tokensOfMethods (moveFields id l) = tokensOfMethods l := by
  apply Expr.move.mutual_induct
  all_goals intros
  all_goals
    simp_all [Expr.move, Block.move, moveStmts, Stmt.move, moveExpr?, moveStmt?, moveExprs,
      GenDecl.move, moveSpecs, FuncType.move, FieldList.move, moveFields, Expr.tokens, Block.tokens,
      tokensOfStmts, Stmt.tokens, tokensOfExpr?, tokensOfStmt?, tokensOfExprs, GenDecl.tokens,
      tokensOfSpecs, FuncType.tokens, FieldList.tokens, FieldList.methodTokens, tokensOfFields,
        tokensOfMethods, silentTokens_move, tokens_moveResults, Option.toList_map]

theorem Stmt.tokens_move (s : Stmt) : (s.move id).tokens = s.tokens := tokens_move_all.2.2.2.1 s

theorem Decl.tokens_move (d : Decl) : (d.move id).tokens = d.tokens := by
  cases d with
  | gen g => simp [Decl.move, Decl.tokens, tokens_move_all]
  | func f =>
    obtain ⟨funcPos, recv, name, params, results, body⟩ := f
    cases recv <;> cases body <;>
      simp [Decl.move, FuncDecl.move, Decl.tokens, FuncDecl.tokens, FuncType.tokens, moveFieldList?,
        tokens_move_all]

theorem File.resolve_tokens (f : File) :
    f.resolve.decls.flatMap Decl.tokens = f.decls.flatMap Decl.tokens := by
  have h : ∀ decls : List Decl,
      decls.flatMap Decl.tokens = (decls.map (Decl.move id)).flatMap Decl.tokens := by
    intro decls
    simp [List.flatMap_map, Decl.tokens_move]
  rw [h, f.resolve_decls_move, ← h]

end GoFun
