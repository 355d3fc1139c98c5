import GoFun.Proofs.Tree.Shape
import GoFun.Proofs.Tree.Token

/-!
# Tidy trees

A tidy tree has no positions and no objects, and of the parentheses only those that are printed: one
pair of those that stand directly around each other, none around what stands in a header, and none
around a single result without a name. `tidy .merged` makes a tree tidy, `tidy .kept` leaves all
parentheses in place.
-/
namespace GoFun

open Token

def Expr.unparen : Expr → Expr
  | .paren _ x _ => x
  | e => e

/-- What is left of an expression where parentheses around the whole are not printed. -/
def Parens.strip : Parens → Expr → Expr
  | kept, x => x
  | _, x => x.unparen

/-- Whether brackets are there, if brackets are kept. -/
def Parens.mark : Parens → Pos → Pos
  | kept, p => p.mark
  | _, _ => none

mutual

def Expr.tidy (p : Parens) : Expr → Expr
  | .ident id => .ident id.shape
  | .lit l => .lit l.shape
  | .paren _ x _ => p.around (x.tidy p)
  | .selector x sel => .selector (x.tidy p) sel.shape
  | .index x _ i _ => .index (x.tidy p) none (i.tidy p) none
  | .call f _ args dots _ => .call (f.tidy p) none (tidyExprs p args) dots.mark none
  | .star _ x => .star none (x.tidy p)
  | .unary _ op x => .unary none op (x.tidy p)
  | .binary x _ op y => .binary (x.tidy p) none op (y.tidy p)
  | .array _ len elem => .array none (tidyExpr? p len) (elem.tidy p)
  | .map _ key value => .map none (key.tidy p) (value.tidy p)
  | .chan _ dir value => .chan none dir (value.tidy p)
  | .struct _ fields => .struct none (fields.tidy p)
  | .composite type _ elems _ => .composite (tidyExpr? p type) none (tidyExprs p elems) none
  | .keyValue key _ value => .keyValue (key.tidy p) none (value.tidy p)
  | .funcLit type body => .funcLit (type.tidy p) (body.tidy p)
  | .slice x _ low high max _ =>
    .slice (x.tidy p) none (tidyExpr? p low) (tidyExpr? p high) (tidyExpr? p max) none
  | .assertion x _ type _ => .assertion (x.tidy p) none (tidyExpr? p type) none
  | .ellipsis _ elem => .ellipsis none (tidyExpr? p elem)
  | .func type => .func (type.tidy p)
  | .interface _ methods => .interface none (methods.tidy p)

def tidyExprs (p : Parens) : List Expr → List Expr
  | [] => []
  | e :: es => e.tidy p :: tidyExprs p es

def tidyExpr? (p : Parens) : Option Expr → Option Expr
  | none => none
  | some e => some (e.tidy p)

/-- An expression in a header. -/
def tidyHeader? (p : Parens) : Option Expr → Option Expr
  | none => none
  | some e => some (p.strip (e.tidy p))

def tidyFields (p : Parens) : List Field → List Field
  | [] => []
  | ⟨names, type, tag⟩ :: fields =>
    ⟨names.map Ident.shape, type.tidy p, tag.map Literal.shape⟩ :: tidyFields p fields

def FieldList.tidy (p : Parens) : FieldList → FieldList
  | ⟨_, list, _⟩ => ⟨none, tidyFields p list, none⟩

def FuncType.tidy (p : Parens) : FuncType → FuncType
  | ⟨funcPos, params, results⟩ => ⟨funcPos.mark, params.tidy p, tidyResults p results⟩

def tidyResults (p : Parens) : Option FieldList → Option FieldList
  | none => none
  | some ⟨_, [], _⟩ => if p = .kept then some ⟨none, [], none⟩ else none
  | some ⟨_, [⟨[], type, _⟩], closing⟩ =>
    some ⟨p.mark closing, [⟨[], p.strip (type.tidy p), none⟩], p.mark closing⟩
  | some ⟨_, list, _⟩ => some ⟨none, tidyFields p list, none⟩

def Block.tidy (p : Parens) : Block → Block
  | ⟨_, list, _⟩ => ⟨none, tidyStmts p list, none⟩

def tidySpecs (p : Parens) : List Spec → List Spec
  | [] => []
  | .value names type values :: specs =>
    .value (names.map Ident.shape) (tidyExpr? p type) (tidyExprs p values) :: tidySpecs p specs
  | .type name equals type :: specs =>
    .type name.shape equals.mark (type.tidy p) :: tidySpecs p specs

def GenDecl.tidy (p : Parens) : GenDecl → GenDecl
  | ⟨_, word, lparen, specs, rparen⟩ => ⟨none, word, lparen.mark, tidySpecs p specs, rparen.mark⟩

def Stmt.tidy (p : Parens) : Stmt → Stmt
  | .decl d => .decl (d.tidy p)
  | .expr x => .expr (x.tidy p)
  | .assign lhs _ op rhs => .assign (tidyExprs p lhs) none op (tidyExprs p rhs)
  | .incDec x _ step => .incDec (x.tidy p) none step
  | .ret _ results => .ret none (tidyExprs p results)
  | .jump _ word label => .jump none word (label.map Ident.shape)
  | .block b => .block (b.tidy p)
  | .ifElse _ init cond body other =>
    .ifElse none (tidyStmt? p init) (p.strip (cond.tidy p)) (body.tidy p) (tidyStmt? p other)
  | .forLoop _ init cond post body =>
    .forLoop none (tidyStmt? p init) (tidyHeader? p cond) (tidyStmt? p post) (body.tidy p)
  | .range _ key value _ op x body =>
    .range none (tidyExpr? p key) (tidyExpr? p value) none op (p.strip (x.tidy p)) (body.tidy p)
  | .go _ call => .go none (call.tidy p)
  | .defer _ call => .defer none (call.tidy p)
  | .labeled label _ stmt => .labeled label.shape none (stmt.tidy p)
  | .send chan _ value => .send (chan.tidy p) none (value.tidy p)
  | .switch _ init tag body => .switch none (tidyStmt? p init) (tidyHeader? p tag) (body.tidy p)
  | .typeSwitch _ init guard body => .typeSwitch none (tidyStmt? p init) (guard.tidy p)
      (body.tidy p)
  | .select _ body => .select none (body.tidy p)
  | .caseClause _ list _ body => .caseClause none (tidyExprs p list) none (tidyStmts p body)
  | .commClause _ comm _ body => .commClause none (tidyStmt? p comm) none (tidyStmts p body)

def tidyStmts (p : Parens) : List Stmt → List Stmt
  | [] => []
  | s :: ss => s.tidy p :: tidyStmts p ss

def tidyStmt? (p : Parens) : Option Stmt → Option Stmt
  | none => none
  | some s => some (s.tidy p)

end

@[simp] theorem Ident.shape_shape (id : Ident) : id.shape.shape = id.shape := rfl

@[simp] theorem Literal.shape_shape (l : Literal) : l.shape.shape = l.shape := rfl

@[simp] theorem Ident.shape_comp_shape : Ident.shape ∘ Ident.shape = Ident.shape := rfl

@[simp] theorem Literal.shape_comp_shape : Literal.shape ∘ Literal.shape = Literal.shape := rfl

@[simp] theorem Pos.mark_mark (p : Pos) : p.mark.mark = p.mark := by cases p <;> rfl

@[simp] theorem Pos.mark_none : Pos.mark none = none := rfl

@[simp] theorem Parens.mark_merged (p : Pos) : Parens.merged.mark p = none := rfl

@[simp] theorem Parens.mark_kept (p : Pos) : Parens.kept.mark p = p.mark := rfl

@[simp] theorem Parens.strip_kept (e : Expr) : Parens.kept.strip e = e := rfl

@[simp] theorem Parens.strip_merged (e : Expr) : Parens.merged.strip e = e.unparen := rfl

theorem Parens.tidy_around {e : Expr} (h : e.tidy .kept = e) :
    (merged.around e).tidy .kept = merged.around e := by
  by_cases hp : e.isParen = true
  · simpa [Parens.around, hp] using h
  · simp [Parens.around, hp, Expr.tidy, h]

theorem Expr.tidy_unparen {e : Expr} (h : e.tidy .kept = e) : e.unparen.tidy .kept = e.unparen := by
  cases e with
  | paren l x r =>
    rw [Expr.tidy, Parens.around] at h
    obtain ⟨-, hx, -⟩ := Expr.paren.inj h
    exact hx
  | _ => exact h

mutual

theorem Expr.tidy_tidy (e : Expr) : (e.tidy .merged).tidy .kept = e.tidy .merged := by
  cases e with
  | ident | lit => rfl
  | paren _ x _ => exact Parens.tidy_around x.tidy_tidy
  | selector x _ | star _ x | unary _ _ x | chan _ _ x => simp [Expr.tidy, x.tidy_tidy]
  | index x _ y _ | binary x _ _ y | map _ x y | keyValue x _ y =>
    simp [Expr.tidy, x.tidy_tidy, y.tidy_tidy]
  | call f _ args _ _ => simp [Expr.tidy, f.tidy_tidy, tidyExprs_tidy args]
  | array _ len elem => simp [Expr.tidy, tidyExpr?_tidy len, elem.tidy_tidy]
  | struct _ fields | interface _ fields => simp [Expr.tidy, fields.tidy_tidy]
  | composite t _ elems _ => simp [Expr.tidy, tidyExpr?_tidy t, tidyExprs_tidy elems]
  | funcLit t body => simp [Expr.tidy, t.tidy_tidy, body.tidy_tidy]
  | slice x _ low high max _ =>
    simp [Expr.tidy, x.tidy_tidy, tidyExpr?_tidy low, tidyExpr?_tidy high, tidyExpr?_tidy max]
  | assertion x _ t _ => simp [Expr.tidy, x.tidy_tidy, tidyExpr?_tidy t]
  | ellipsis _ elem => simp [Expr.tidy, tidyExpr?_tidy elem]
  | func t => simp [Expr.tidy, t.tidy_tidy]

theorem tidyExprs_tidy : ∀ es, tidyExprs .kept (tidyExprs .merged es) = tidyExprs .merged es
  | [] => rfl
  | e :: es => by simp [tidyExprs, e.tidy_tidy, tidyExprs_tidy es]

theorem tidyExpr?_tidy : ∀ e, tidyExpr? .kept (tidyExpr? .merged e) = tidyExpr? .merged e
  | none => rfl
  | some e => by simp [tidyExpr?, e.tidy_tidy]

theorem tidyHeader?_tidy : ∀ e, tidyHeader? .kept (tidyHeader? .merged e) = tidyHeader? .merged e
  | none => rfl
  | some e => by simp [tidyHeader?, Expr.tidy_unparen e.tidy_tidy]

theorem tidyFields_tidy :
    ∀ fields, tidyFields .kept (tidyFields .merged fields) = tidyFields .merged fields
  | [] => rfl
  | ⟨_, t, _⟩ :: fields => by simp [tidyFields, t.tidy_tidy, tidyFields_tidy fields]

theorem FieldList.tidy_tidy :
    ∀ fields : FieldList, (fields.tidy .merged).tidy .kept = fields.tidy .merged
  | ⟨_, list, _⟩ => by simp [FieldList.tidy, tidyFields_tidy list]

theorem FuncType.tidy_tidy : ∀ t : FuncType, (t.tidy .merged).tidy .kept = t.tidy .merged
  | ⟨_, params, results⟩ => by simp [FuncType.tidy, params.tidy_tidy, tidyResults_tidy results]

theorem tidyResults_tidy : ∀ r, tidyResults .kept (tidyResults .merged r) = tidyResults .merged r
  | none => rfl
  | some ⟨_, [], _⟩ => by simp [tidyResults]
  | some ⟨_, [⟨[], t, _⟩], _⟩ => by simp [tidyResults, Expr.tidy_unparen t.tidy_tidy]
  | some ⟨_, ⟨_ :: _, t, _⟩ :: fields, _⟩ => by
    simp [tidyResults, tidyFields, t.tidy_tidy, tidyFields_tidy fields]
  | some ⟨_, ⟨[], t, _⟩ :: ⟨_, t', _⟩ :: fields, _⟩ => by
    simp [tidyResults, tidyFields, t.tidy_tidy, t'.tidy_tidy, tidyFields_tidy fields]

theorem Block.tidy_tidy : ∀ b : Block, (b.tidy .merged).tidy .kept = b.tidy .merged
  | ⟨_, list, _⟩ => by simp [Block.tidy, tidyStmts_tidy list]

theorem tidySpecs_tidy :
    ∀ specs, tidySpecs .kept (tidySpecs .merged specs) = tidySpecs .merged specs
  | [] => rfl
  | .value _ t values :: specs => by
    simp [tidySpecs, tidyExpr?_tidy t, tidyExprs_tidy values, tidySpecs_tidy specs]
  | .type _ _ t :: specs => by simp [tidySpecs, t.tidy_tidy, tidySpecs_tidy specs]

theorem GenDecl.tidy_tidy : ∀ d : GenDecl, (d.tidy .merged).tidy .kept = d.tidy .merged
  | ⟨_, _, _, specs, _⟩ => by simp [GenDecl.tidy, tidySpecs_tidy specs]

theorem Stmt.tidy_tidy (s : Stmt) : (s.tidy .merged).tidy .kept = s.tidy .merged := by
  cases s with
  | decl d => simp [Stmt.tidy, d.tidy_tidy]
  | expr x | incDec x _ _ | go _ x | defer _ x => simp [Stmt.tidy, x.tidy_tidy]
  | assign lhs _ _ rhs => simp [Stmt.tidy, tidyExprs_tidy lhs, tidyExprs_tidy rhs]
  | ret _ results => simp [Stmt.tidy, tidyExprs_tidy results]
  | jump => simp [Stmt.tidy]
  | block b | select _ b => simp [Stmt.tidy, b.tidy_tidy]
  | ifElse _ init cond body other =>
    simp [Stmt.tidy, tidyStmt?_tidy init, Expr.tidy_unparen cond.tidy_tidy, body.tidy_tidy,
      tidyStmt?_tidy other]
  | forLoop _ init cond post body =>
    simp [Stmt.tidy, tidyStmt?_tidy init, tidyHeader?_tidy cond, tidyStmt?_tidy post,
      body.tidy_tidy]
  | range _ key value _ _ x body =>
    simp [Stmt.tidy, tidyExpr?_tidy key, tidyExpr?_tidy value, Expr.tidy_unparen x.tidy_tidy,
      body.tidy_tidy]
  | labeled _ _ s => simp [Stmt.tidy, s.tidy_tidy]
  | send x _ y => simp [Stmt.tidy, x.tidy_tidy, y.tidy_tidy]
  | switch _ init tag body => simp [Stmt.tidy, tidyStmt?_tidy init, tidyHeader?_tidy tag,
    body.tidy_tidy]
  | typeSwitch _ init guard body =>
    simp [Stmt.tidy, tidyStmt?_tidy init, guard.tidy_tidy, body.tidy_tidy]
  | caseClause _ list _ body => simp [Stmt.tidy, tidyExprs_tidy list, tidyStmts_tidy body]
  | commClause _ comm _ body => simp [Stmt.tidy, tidyStmt?_tidy comm, tidyStmts_tidy body]

theorem tidyStmts_tidy : ∀ ss, tidyStmts .kept (tidyStmts .merged ss) = tidyStmts .merged ss
  | [] => rfl
  | s :: ss => by simp [tidyStmts, s.tidy_tidy, tidyStmts_tidy ss]

theorem tidyStmt?_tidy : ∀ s, tidyStmt? .kept (tidyStmt? .merged s) = tidyStmt? .merged s
  | none => rfl
  | some s => by simp [tidyStmt?, s.tidy_tidy]

end

theorem tidyExprs_eq_map (p : Parens) (es : List Expr) : tidyExprs p es = es.map (Expr.tidy p) := by
  induction es with
  | nil => rfl
  | cons e es ih => rw [tidyExprs, ih, List.map_cons]

theorem tidyStmts_eq_map (p : Parens) (ss : List Stmt) : tidyStmts p ss = ss.map (Stmt.tidy p) := by
  induction ss with
  | nil => rfl
  | cons s ss ih => rw [tidyStmts, ih, List.map_cons]

def Field.tidy (p : Parens) (f : Field) : Field :=
  ⟨f.names.map Ident.shape, f.type.tidy p, f.tag.map Literal.shape⟩

theorem tidyFields_eq_map (p : Parens) (fields : List Field) :
    tidyFields p fields = fields.map (Field.tidy p) := by
  induction fields with
  | nil => rfl
  | cons f fields ih =>
    obtain ⟨names, t, tag⟩ := f
    rw [tidyFields, ih, List.map_cons, Field.tidy]

def Spec.tidy (p : Parens) : Spec → Spec
  | .value names t values => .value (names.map Ident.shape) (tidyExpr? p t) (tidyExprs p values)
  | .type name equals t => .type name.shape equals.mark (t.tidy p)

theorem tidySpecs_eq_map (p : Parens) (specs : List Spec) :
    tidySpecs p specs = specs.map (Spec.tidy p) := by
  induction specs with
  | nil => rfl
  | cons spec specs ih => cases spec <;> rw [tidySpecs, ih, List.map_cons, Spec.tidy]

theorem Parens.isParen_around {p : Parens} (hp : p ≠ .dropped) (e : Expr) :
    (p.around e).isParen = true := by
  cases p with
  | kept => rfl
  | merged =>
    by_cases he : e.isParen = true
    · rwa [Parens.around, if_pos he]
    · rw [Parens.around, if_neg he]
      rfl
  | dropped => exact absurd rfl hp

section Heads

variable {p : Parens} (hp : p ≠ .dropped)

include hp

theorem Expr.isParen_tidy (e : Expr) : (e.tidy p).isParen = e.isParen := by
  cases e with
  | paren l x r => exact Parens.isParen_around hp _
  | _ => rfl

theorem Expr.tidy_paren (l : Pos) (x : Expr) (r : Pos) :
    ∃ l' y r', (Expr.paren l x r).tidy p = .paren l' y r' := by
  have h := Expr.isParen_tidy hp (.paren l x r)
  generalize (Expr.paren l x r).tidy p = e at h
  cases e with
  | paren l' y r' => exact ⟨l', y, r', rfl⟩
  | _ => cases h

theorem Expr.isBinary_tidy (e : Expr) : (e.tidy p).isBinary = e.isBinary := by
  cases e with
  | paren l x r =>
    obtain ⟨l', y, r', hy⟩ := Expr.tidy_paren hp l x r
    rw [hy]
    rfl
  | _ => rfl

theorem Expr.strength_tidy (e : Expr) : (e.tidy p).strength = e.strength := by
  cases e with
  | paren l x r =>
    obtain ⟨l', y, r', hy⟩ := Expr.tidy_paren hp l x r
    rw [hy]
    rfl
  | _ => rfl

theorem clash_tidy (op : BinaryOp) (e : Expr) : clash op (e.tidy p) = clash op e := by
  cases e with
  | paren l x r =>
    obtain ⟨l', y, r', hy⟩ := Expr.tidy_paren hp l x r
    rw [hy]
    rfl
  | _ => rfl

theorem Expr.mix_tidy (e : Expr) : (e.tidy p).mix = e.mix := by
  cases e with
  | binary x _ _ y =>
    rw [Expr.tidy, Expr.mix, Expr.mix, Expr.strength_tidy hp, Expr.strength_tidy hp, clash_tidy hp,
      x.mix_tidy, y.mix_tidy]
  | paren l x r =>
    obtain ⟨l', y, r', hy⟩ := Expr.tidy_paren hp l x r
    rw [hy]
    rfl
  | _ => rfl

theorem cutoff_tidy (e : Expr) (depth : Nat) : cutoff (e.tidy p) depth = cutoff e depth := by
  rw [cutoff, cutoff, e.mix_tidy hp]

theorem silentTokens_tidy (names : List Ident) (e : Expr) :
    silentTokens (names.map Ident.shape) (e.tidy p) = silentTokens names e := by
  cases e with
  | func t =>
    obtain ⟨funcPos, params, results⟩ := t
    cases funcPos <;> simp [Expr.tidy, FuncType.tidy, silentTokens, Pos.mark]
  | paren l x r =>
    obtain ⟨l', y, r', hy⟩ := Expr.tidy_paren hp l x r
    rw [hy]
    rfl
  | _ => rfl

end Heads

end GoFun
