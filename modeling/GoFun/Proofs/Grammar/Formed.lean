import GoFun.Grammar.Stmt
import GoFun.Proofs.Tree.Phrase

/-!
# Well-formed trees

A well-formed phrase has names and literals that are written as such, operands that bind at least as
strongly as their place asks for, keyed and elided elements only where elements stand, and headers
that open no composite literal in front of a body. All of this depends on the shape of the tree
only.
-/
namespace GoFun

attribute [local simp] Expr.shape

variable (e : Expr)

/-- A word that is no keyword. -/
def IsName (s : String) : Prop := Lex.word s.toList = some (s.toList, []) ∧ s ∉ Lex.keywords

/-- The text is one literal of the given kind. -/
def Literal.IsWritten (l : Literal) : Prop :=
  Lex.number l.text.toList = some (l.text.toList, []) ∧ l.kind = LitKind.ofNumber l.text.toList ∨
    Lex.string l.text.toList = some (l.text.toList, []) ∧ l.kind = .string ∨
    Lex.char l.text.toList = some (l.text.toList, []) ∧ l.kind = .char

/-- The places where an expression can stand: by itself, as an element without its type, as an
element with a key, or as dots in front of a type. -/
inductive Role where
  | plain | elided | keyed | dots
  deriving DecidableEq, Repr

def Expr.role : Expr → Role
  | .composite none _ _ _ => .elided
  | .keyValue _ _ _ => .keyed
  | .ellipsis _ _ => .dots
  | _ => .plain

/-- How strongly the outermost part binds: 6 for unary operators, 7 for all that needs no
operator. -/
def Expr.rank : Expr → Nat
  | .binary _ _ op _ => op.precedence
  | .unary _ _ _ | .star _ _ => 6
  | _ => 7

theorem BinaryOp.precedence_pos (op : BinaryOp) : 0 < op.precedence := by cases op <;> decide

theorem BinaryOp.precedence_lt (op : BinaryOp) : op.precedence < 6 := by cases op <;> decide

theorem Expr.rank_pos : 0 < e.rank := by
  cases e with
  | binary _ _ op _ => exact op.precedence_pos
  | _ => simp [Expr.rank]

theorem Expr.rank_le : e.rank ≤ 7 := by
  cases e with
  | binary _ _ op _ => exact Nat.le_of_lt (Nat.lt_succ_of_lt op.precedence_lt)
  | _ => simp [Expr.rank]

/-- An expression by itself that binds at least with strength `k`. -/
def Expr.Fits (k : Nat) (e : Expr) : Prop := k ≤ e.rank ∧ e.role = .plain

/-- A type that opens a composite literal in any place. -/
def Expr.isSpelledOut : Expr → Bool
  | .array _ _ _ | .map _ _ _ | .struct _ _ => true
  | _ => false

/-- A brace of a composite literal stands outside of all brackets, where the body of a statement
could begin instead. -/
def Expr.exposed : Expr → Bool
  | .composite (some t) _ _ _ => !t.isSpelledOut
  | .selector x _ | .index x _ _ _ | .call x _ _ _ _ | .slice x _ _ _ _ _ | .assertion x _ _ _ =>
      x.exposed
  | .star _ x | .unary _ _ x => x.exposed
  | .binary x _ _ y => x.exposed || y.exposed
  | _ => false

/-- An expression as it stands in the header of a statement. -/
def Expr.InHeader (e : Expr) : Prop := e.Fits 0 ∧ e.exposed = false

/-- A simple statement as it stands in the header of another one. -/
def Stmt.InHeader : Stmt → Prop
  | .expr x | .incDec x _ _ => x.InHeader
  | .assign lhs _ _ rhs => (∀ e ∈ lhs, e.InHeader) ∧ ∀ e ∈ rhs, e.InHeader
  | .send chan _ value => chan.InHeader ∧ value.InHeader
  | _ => False

/-- What can stand behind `else`. -/
def Stmt.isBranch : Stmt → Bool
  | .ifElse _ _ _ _ _ | .block _ => true
  | _ => false

def Expr.Formed : Expr → Prop
  | .ident id => IsName id.name
  | .lit l => l.IsWritten
  | .paren _ x _ => x.Fits 0
  | .selector x sel => x.Fits 7 ∧ IsName sel.name
  | .index x _ i _ => x.Fits 7 ∧ i.Fits 0
  | .call f _ args _ _ => f.Fits 7 ∧ ∀ a ∈ args, a.Fits 0
  | .star _ x | .unary _ _ x => x.Fits 6
  | .binary x _ op y => x.Fits op.precedence ∧ y.Fits (op.precedence + 1)
  | .composite t _ elems _ => (∀ x ∈ t, x.Fits 7) ∧ ∀ e ∈ elems, e.role ≠ .dots
  | .keyValue key _ value =>
    (key.role = .plain ∨ key.role = .elided) ∧ (value.role = .plain ∨ value.role = .elided)
  | .slice x _ low high max _ =>
    x.Fits 7 ∧ (∀ i ∈ low, i.Fits 0) ∧ (∀ i ∈ high, i.Fits 0) ∧ ∀ i ∈ max, i.Fits 0
  | .assertion x _ _ _ => x.Fits 7
  | _ => True

def Stmt.Formed : Stmt → Prop
  | .expr x | .incDec x _ _ | .go _ x | .defer _ x => x.Fits 0
  | .assign lhs _ _ rhs => (lhs ≠ [] ∧ ∀ e ∈ lhs, e.Fits 0) ∧ rhs ≠ [] ∧ ∀ e ∈ rhs, e.Fits 0
  | .ret _ results => ∀ e ∈ results, e.Fits 0
  | .send chan _ value => chan.Fits 0 ∧ value.Fits 0
  | .ifElse _ init cond _ other =>
    (∀ s ∈ init, s.InHeader) ∧ cond.InHeader ∧ ∀ s ∈ other, s.isBranch = true
  | .forLoop _ init cond post _ =>
    (∀ s ∈ init, s.InHeader) ∧ (∀ e ∈ cond, e.InHeader) ∧ ∀ s ∈ post, s.InHeader
  | .range _ key value _ op x _ =>
    (∀ e ∈ key, e.InHeader) ∧ (∀ e ∈ value, e.InHeader) ∧ x.InHeader ∧
      (key.isSome = op.isSome) ∧ (value.isSome → key.isSome) ∧ ∀ o ∈ op, o = .define ∨ o = .assign
  | .switch _ init tag _ => (∀ s ∈ init, s.InHeader) ∧ ∀ e ∈ tag, e.InHeader
  | _ => True

def Phrase.Formed : Phrase → Prop
  | .expr e => e.Formed
  | .stmt s => s.Formed

@[simp] theorem Expr.role_shape : (e.shape .kept).role = e.role := by
  cases e with
  | composite t _ _ _ => cases t <;> rfl
  | _ => rfl

@[simp] theorem Expr.rank_shape : (e.shape .kept).rank = e.rank := by
  cases e <;> rfl

@[simp] theorem Expr.isSpelledOut_shape : (e.shape .kept).isSpelledOut = e.isSpelledOut := by
  cases e <;> rfl

@[simp] theorem Expr.fits_shape (k : Nat) (e : Expr) : (e.shape .kept).Fits k ↔ e.Fits k := by
  simp [Expr.Fits]

@[simp] theorem Expr.exposed_shape (e : Expr) : (e.shape .kept).exposed = e.exposed := by
  cases e with
  | composite t _ _ _ => cases t <;> simp [shapeExpr?, Expr.exposed]
  | selector x _ | index x _ _ _ | call x _ _ _ _ | slice x _ _ _ _ _ | assertion x _ _ _
  | star _ x | unary _ _ x => simp [Expr.exposed, x.exposed_shape]
  | binary x _ _ y => simp [Expr.exposed, x.exposed_shape, y.exposed_shape]
  | _ => rfl

@[simp] theorem Expr.inHeader_shape : (e.shape .kept).InHeader ↔ e.InHeader := by
  simp [Expr.InHeader]

@[simp] theorem Stmt.inHeader_shape (s : Stmt) : (s.shape .kept).InHeader ↔ s.InHeader := by
  cases s <;> simp [Stmt.shape, Stmt.InHeader, shapeExprs_eq_map]

@[simp] theorem Stmt.isBranch_shape (s : Stmt) : (s.shape .kept).isBranch = s.isBranch := by
  cases s <;> rfl

theorem Literal.isWritten_shape (l : Literal) : l.shape.IsWritten ↔ l.IsWritten := Iff.rfl

theorem Expr.formed_shape : (e.shape .kept).Formed ↔ e.Formed := by
  cases e <;>
    simp [Expr.Formed, Parens.around, Ident.shape, Literal.isWritten_shape, shapeExprs_eq_map,
      shapeExpr?_eq_map]

theorem Stmt.formed_shape (s : Stmt) : (s.shape .kept).Formed ↔ s.Formed := by
  cases s <;>
    simp [Stmt.shape, Stmt.Formed, shapeExprs_eq_map, shapeExpr?_eq_map, shapeStmt?_eq_map]

theorem Phrase.Formed.of_shape_eq (n m : Phrase) (hs : n.shape .kept = m.shape .kept)
    (h : n.Formed) :
    m.Formed := by
  have hn : (n.shape .kept).Formed := by
    cases n with
    | expr e => exact e.formed_shape.2 h
    | stmt s => exact s.formed_shape.2 h
  rw [hs] at hn
  cases m with
  | expr e => exact e.formed_shape.1 hn
  | stmt s => exact s.formed_shape.1 hn

end GoFun
