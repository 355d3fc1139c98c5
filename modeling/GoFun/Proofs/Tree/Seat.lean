import GoFun.Proofs.Grammar.Formed
import GoFun.Proofs.Tree.Move

/-!
# Where phrases can stand

The types of trees let every expression and every statement stand everywhere. A phrase gives each
phrase directly below it a seat, and a seat admits certain phrases only: clauses of a switch stand
in the body of a switch, dots in front of a type in a list of parameters. A whole phrase has no
lists that are empty where the language asks for something, and marks that belong together are there
together.
-/
namespace GoFun

attribute [local simp] Phrase.move List.map_flatMap

inductive Seat where
  /-- An expression or a type by itself. -/
  | expr
  /-- An element of a composite literal. -/
  | element
  /-- The key or the value of an element. -/
  | keyOrValue
  /-- The length of an array. -/
  | length
  /-- The type of a parameter, of a result or of a receiver. -/
  | param
  /-- What a switch compares with its cases. -/
  | tag
  /-- A statement of a block or of a clause. -/
  | stmt
  | caseClause
  | commClause
  /-- A statement in a header or in front of the colon of a clause. -/
  | simple
  /-- What stands behind `else`. -/
  | branch
  /-- What a type switch asks for. -/
  | guard
  deriving DecidableEq, Repr

def Stmt.isCase : Stmt → Bool
  | .caseClause _ _ _ _ => true
  | _ => false

def Stmt.isComm : Stmt → Bool
  | .commClause _ _ _ _ => true
  | _ => false

/-- Expressions, assignments, sending, and counting up or down. -/
def Stmt.isSimple : Stmt → Bool
  | .expr _ | .assign _ _ _ _ | .incDec _ _ _ | .send _ _ _ => true
  | _ => false

def Expr.asksType : Expr → Bool
  | .assertion _ _ none _ => true
  | _ => false

/-- `x.(type)` alone, or one variable defined by it. -/
def Stmt.isGuard : Stmt → Bool
  | .expr x => x.asksType
  | .assign [_] _ .define [x] => x.asksType
  | _ => false

/-- Dots that stand for the length of an array. -/
def Expr.isOpenLength : Expr → Bool
  | .ellipsis _ none => true
  | _ => false

/-- Dots in front of the type of a parameter. -/
def Expr.isVariadic : Expr → Bool
  | .ellipsis _ (some _) => true
  | _ => false

def Seat.admits : Seat → Phrase → Bool
  | .expr, .expr e => e.role = .plain
  | .element, .expr e => e.role ≠ .dots
  | .keyOrValue, .expr e => e.role = .plain || e.role = .elided
  | .length, .expr e => e.role = .plain || e.isOpenLength
  | .param, .expr e => e.role = .plain || e.isVariadic
  | .tag, .expr e => e.role = .plain && !e.asksType
  | .stmt, .stmt s => !s.isCase && !s.isComm
  | .caseClause, .stmt s => s.isCase
  | .commClause, .stmt s => s.isComm
  | .simple, .stmt s => s.isSimple
  | .branch, .stmt s => s.isBranch
  | .guard, .stmt s => s.isGuard
  | _, _ => false

def exprsAt (seat : Seat) (es : List Expr) : List (Seat × Phrase) := es.map fun e => (seat, .expr e)

def stmtsAt (seat : Seat) (ss : List Stmt) : List (Seat × Phrase) := ss.map fun s => (seat, .stmt s)

def FieldList.seats (seat : Seat) (fields : FieldList) : List (Seat × Phrase) :=
  fields.list.map fun f => (seat, .expr f.type)

def FuncType.seats (t : FuncType) : List (Seat × Phrase) :=
  t.params.seats .param ++ t.results.toList.flatMap (FieldList.seats .param)

def Spec.seats : Spec → List (Seat × Phrase)
  | .value _ t values => exprsAt .expr t.toList ++ exprsAt .expr values
  | .type _ _ t => [(.expr, .expr t)]

def GenDecl.seats (d : GenDecl) : List (Seat × Phrase) := d.specs.flatMap Spec.seats

def Expr.seats : Expr → List (Seat × Phrase)
  | .ident _ | .lit _ => []
  | .paren _ x _ | .selector x _ | .star _ x | .unary _ _ x | .chan _ _ x => exprsAt .expr [x]
  | .index x _ y _ | .binary x _ _ y | .map _ x y => exprsAt .expr [x, y]
  | .keyValue x _ y => exprsAt .keyOrValue [x, y]
  | .call f _ args _ _ => exprsAt .expr (f :: args)
  | .array _ len elem => exprsAt .length len.toList ++ exprsAt .expr [elem]
  | .struct _ fields | .interface _ fields => fields.seats .expr
  | .composite t _ elems _ => exprsAt .expr t.toList ++ exprsAt .element elems
  | .funcLit t body => t.seats ++ stmtsAt .stmt body.list
  | .slice x _ low high max _ => exprsAt .expr (x :: (low.toList ++ high.toList ++ max.toList))
  | .assertion x _ t _ => exprsAt .expr (x :: t.toList)
  | .ellipsis _ elem => exprsAt .expr elem.toList
  | .func t => t.seats

def Stmt.seats : Stmt → List (Seat × Phrase)
  | .decl d => d.seats
  | .expr x | .incDec x _ _ | .go _ x | .defer _ x => exprsAt .expr [x]
  | .assign lhs _ _ rhs => exprsAt .expr (lhs ++ rhs)
  | .ret _ results => exprsAt .expr results
  | .jump _ _ _ => []
  | .block b => stmtsAt .stmt b.list
  | .select _ body => stmtsAt .commClause body.list
  | .ifElse _ init cond body other =>
    stmtsAt .simple init.toList ++ exprsAt .expr [cond] ++ stmtsAt .stmt body.list ++
      stmtsAt .branch other.toList
  | .forLoop _ init cond post body =>
    stmtsAt .simple init.toList ++ exprsAt .expr cond.toList ++ stmtsAt .simple post.toList ++
      stmtsAt .stmt body.list
  | .range _ key value _ _ x body =>
    exprsAt .expr (key.toList ++ value.toList ++ [x]) ++ stmtsAt .stmt body.list
  | .labeled _ _ s => stmtsAt .stmt [s]
  | .send chan _ value => exprsAt .expr [chan, value]
  | .switch _ init tag body =>
    stmtsAt .simple init.toList ++ exprsAt .tag tag.toList ++ stmtsAt .caseClause body.list
  | .typeSwitch _ init guard body =>
    stmtsAt .simple init.toList ++ stmtsAt .guard [guard] ++ stmtsAt .caseClause body.list
  | .caseClause _ list _ body => exprsAt .expr list ++ stmtsAt .stmt body
  | .commClause _ comm _ body => stmtsAt .simple comm.toList ++ stmtsAt .stmt body

def Phrase.seats : Phrase → List (Seat × Phrase)
  | .expr e => e.seats
  | .stmt s => s.seats

def Decl.seats : Decl → List (Seat × Phrase)
  | .func f =>
    f.recv.toList.flatMap (FieldList.seats .param) ++
      FuncType.seats ⟨f.funcPos, f.params, f.results⟩ ++
      stmtsAt .stmt (f.body.toList.flatMap Block.list)
  | .gen g => g.seats

/-- Only the fields of a struct have tags. -/
def FieldList.IsUntagged (fields : FieldList) : Prop := ∀ f ∈ fields.list, f.tag = none

/-- Brackets come in pairs and are absent around a single type only. -/
def FieldList.IsResult (fields : FieldList) : Prop :=
  fields.IsUntagged ∧ fields.opening.isSome = fields.closing.isSome ∧
    (fields.opening = none → fields.list.length = 1 ∧ ∀ f ∈ fields.list, f.names = [])

def FuncType.IsWhole (t : FuncType) : Prop :=
  t.params.IsUntagged ∧ ∀ fields ∈ t.results, fields.IsResult

/-- One name with a signature that has no word in front of it, or a type alone. -/
def Field.IsMethod (f : Field) : Prop :=
  (∃ name t, f.names = [name] ∧ f.type = .func t ∧ t.funcPos = none) ∨ f.names = []

def Spec.isType : Spec → Bool
  | .value _ _ _ => false
  | .type _ _ _ => true

/-- A declaration of values has names. -/
def Spec.IsWhole : Spec → Prop
  | .value names _ _ => names ≠ []
  | .type _ _ _ => True

def GenDecl.IsWhole (d : GenDecl) : Prop :=
  d.lparen.isSome = d.rparen.isSome ∧ (d.lparen = none → d.specs.length = 1) ∧
    ∀ spec ∈ d.specs, spec.IsWhole ∧ (spec.isType = true ↔ d.word = .type)

def Expr.IsWhole : Expr → Prop
  | .func t | .funcLit t _ => t.IsWhole
  | .interface _ methods => methods.IsUntagged ∧ ∀ f ∈ methods.list, f.IsMethod
  | _ => True

def Stmt.IsWhole : Stmt → Prop
  | .decl d => d.IsWhole
  | .assign lhs _ _ rhs => lhs ≠ [] ∧ rhs ≠ []
  | .range _ key value _ op _ _ =>
    key.isSome = op.isSome ∧ (value.isSome → key.isSome) ∧ ∀ o ∈ op, o = .assign ∨ o = .define
  | _ => True

def Phrase.IsWhole : Phrase → Prop
  | .expr e => e.IsWhole
  | .stmt s => s.IsWhole

def Decl.IsWhole : Decl → Prop
  | .func f => (∀ fields ∈ f.recv, fields.IsUntagged) ∧
    FuncType.IsWhole ⟨f.funcPos, f.params, f.results⟩
  | .gen g => g.IsWhole

/-- A phrase that is whole, with all phrases directly below it in their seats. -/
def Phrase.Arranged (n : Phrase) : Prop := (∀ x ∈ n.seats, x.1.admits x.2 = true) ∧ n.IsWhole

/-- The phrase is admitted to the seat, and all below it is arranged. -/
def Seated (seat : Seat) (n : Phrase) : Prop := seat.admits n = true ∧ Throughout Phrase.Arranged n

def Decl.Arranged (d : Decl) : Prop := (∀ x ∈ d.seats, Seated x.1 x.2) ∧ d.IsWhole

def File.Arranged (file : File) : Prop :=
  (∀ spec ∈ file.imports, Seated .expr (.expr spec.path)) ∧ ∀ d ∈ file.decls, d.Arranged

@[simp] theorem exprsAt_nil (seat : Seat) : exprsAt seat [] = [] := rfl

@[simp] theorem stmtsAt_nil (seat : Seat) : stmtsAt seat [] = [] := rfl

@[simp] theorem exprsAt_snd (seat : Seat) (es : List Expr) :
    (exprsAt seat es).map Prod.snd = es.map Phrase.expr := by
  simp [exprsAt]

@[simp] theorem stmtsAt_snd (seat : Seat) (ss : List Stmt) :
    (stmtsAt seat ss).map Prod.snd = ss.map Phrase.stmt := by
  simp [stmtsAt]

@[simp] theorem FieldList.seats_snd (seat : Seat) (fields : FieldList) :
    (fields.seats seat).map Prod.snd = fields.children := by
  simp [FieldList.seats, FieldList.children]

@[simp] theorem FuncType.seats_snd (t : FuncType) : t.seats.map Prod.snd = t.children := by
  simp [FuncType.seats, FuncType.children]

@[simp] theorem Spec.seats_snd (spec : Spec) : spec.seats.map Prod.snd = spec.children := by
  cases spec <;> simp [Spec.seats, Spec.children]

@[simp] theorem GenDecl.seats_snd (d : GenDecl) : d.seats.map Prod.snd = d.children := by
  simp [GenDecl.seats, GenDecl.children]

theorem Phrase.seats_snd (n : Phrase) : n.seats.map Prod.snd = n.children := by
  cases n with
  | expr e => cases e <;> simp [Phrase.seats, Phrase.children, Expr.seats, Expr.children,
    Block.children]
  | stmt s => cases s <;> simp [Phrase.seats, Phrase.children, Stmt.seats, Stmt.children,
    Block.children]

theorem Decl.seats_snd (d : Decl) : d.seats.map Prod.snd = d.children := by
  cases d with
  | gen g => exact g.seats_snd
  | func f =>
    simp [Decl.seats, Decl.children, FuncDecl.children, FuncType.seats]
    rfl

/-! ### Moved trees

Neither seats nor wholeness look at where a phrase stands in the text or at the objects of its
names.
-/

def moveSeat (f : Nat → Nat) (x : Seat × Phrase) : Seat × Phrase := (x.1, x.2.move f)

variable (f : Nat → Nat)

@[simp] theorem map_moveSeat_exprsAt (seat : Seat) (es : List Expr) :
    (exprsAt seat es).map (moveSeat f) = exprsAt seat (es.map (Expr.move f)) := by
  simp [exprsAt, moveSeat]

@[simp] theorem map_moveSeat_stmtsAt (seat : Seat) (ss : List Stmt) :
    (stmtsAt seat ss).map (moveSeat f) = stmtsAt seat (ss.map (Stmt.move f)) := by
  simp [stmtsAt, moveSeat]

@[simp] theorem FieldList.list_move (fields : FieldList) :
    (fields.move f).list = fields.list.map (Field.move f) := by
  obtain ⟨opening, list, closing⟩ := fields
  exact moveFields_eq_map f list

@[simp] theorem Block.list_move (b : Block) : (b.move f).list = b.list.map (Stmt.move f) := by
  obtain ⟨lbrace, list, rbrace⟩ := b
  exact moveStmts_eq_map f list

@[simp] theorem FieldList.seats_move (seat : Seat) (fields : FieldList) :
    (fields.move f).seats seat = (fields.seats seat).map (moveSeat f) := by
  simp [FieldList.seats, moveSeat, Field.move]

@[simp] theorem seats_moveFieldList? (seat : Seat) (fields : Option FieldList) :
    (moveFieldList? f fields).toList.flatMap (FieldList.seats seat) =
      (fields.toList.flatMap (FieldList.seats seat)).map (moveSeat f) := by
  cases fields <;> simp [moveFieldList?]

@[simp] theorem FuncType.seats_move (t : FuncType) :
    (t.move f).seats = t.seats.map (moveSeat f) := by
  obtain ⟨funcPos, params, results⟩ := t
  simp [FuncType.move, FuncType.seats]

@[simp] theorem Spec.seats_move (spec : Spec) :
    (spec.move f).seats = spec.seats.map (moveSeat f) := by
  cases spec <;>
    simp [Spec.move, Spec.seats, moveExpr?_eq_map, moveExprs_eq_map, Option.toList_map, moveSeat]

@[simp] theorem GenDecl.seats_move (d : GenDecl) : (d.move f).seats = d.seats.map (moveSeat f) := by
  obtain ⟨wordPos, word, lparen, specs, rparen⟩ := d
  simp [GenDecl.move, GenDecl.seats, moveSpecs_eq_map, List.flatMap_map]

theorem Phrase.seats_move (n : Phrase) : (n.move f).seats = n.seats.map (moveSeat f) := by
  cases n with
  | expr e =>
    cases e <;>
      simp [Phrase.seats, Expr.move, Expr.seats, Option.toList_map, moveExpr?_eq_map,
        moveExprs_eq_map]
  | stmt s =>
    cases s <;>
      simp [Phrase.seats, Stmt.move, Stmt.seats, Option.toList_map, moveExpr?_eq_map,
        moveExprs_eq_map, moveStmt?_eq_map, moveStmts_eq_map]

theorem Decl.seats_move (d : Decl) : (d.move f).seats = d.seats.map (moveSeat f) := by
  cases d with
  | func d =>
    obtain ⟨funcPos, recv, name, params, results, body⟩ := d
    cases body <;> simp [Decl.move, Decl.seats, FuncDecl.move, FuncType.seats]
  | gen g => exact g.seats_move f

@[simp] theorem Expr.role_move (e : Expr) : (e.move f).role = e.role := by
  cases e with
  | composite t _ _ _ => cases t <;> rfl
  | _ => rfl

@[simp] theorem Expr.asksType_move (e : Expr) : (e.move f).asksType = e.asksType := by
  cases e with
  | assertion _ _ t _ => cases t <;> rfl
  | _ => rfl

@[simp] theorem Expr.isOpenLength_move (e : Expr) : (e.move f).isOpenLength = e.isOpenLength := by
  cases e with
  | ellipsis _ t => cases t <;> rfl
  | _ => rfl

@[simp] theorem Expr.isVariadic_move (e : Expr) : (e.move f).isVariadic = e.isVariadic := by
  cases e with
  | ellipsis _ t => cases t <;> rfl
  | _ => rfl

theorem Stmt.isGuard_move (s : Stmt) : (s.move f).isGuard = s.isGuard := by
  cases s with
  | expr x => exact x.asksType_move f
  | assign lhs _ op rhs =>
    -- one variable, `:=` and one value; every other assignment is no guard
    rcases lhs with _ | ⟨x, _ | ⟨y, lhs⟩⟩ <;> try rfl
    rcases rhs with _ | ⟨z, _ | ⟨y, rhs⟩⟩ <;> cases op <;> first | exact z.asksType_move f | rfl
  | _ => rfl

theorem Seat.admits_move (seat : Seat) (n : Phrase) : seat.admits (n.move f) = seat.admits n := by
  cases n with
  | expr e => cases seat <;> simp [Seat.admits]
  | stmt s =>
    cases seat with
    | guard => exact s.isGuard_move f
    | _ => cases s <;> rfl

@[simp] theorem Field.isMethod_move (field : Field) : (field.move f).IsMethod ↔ field.IsMethod := by
  obtain ⟨names, type, tag⟩ := field
  refine or_congr ⟨?_, ?_⟩ (by simp [Field.move])
  · rintro ⟨name, t, hn, ht, hp⟩
    obtain ⟨id, rfl, -⟩ := List.map_eq_singleton_iff.1 hn
    cases type with
    | func t' =>
      obtain ⟨funcPos, params, results⟩ := t'
      obtain rfl :
          _ = t := by simpa only [Field.move, Expr.move, FuncType.move, Expr.func.injEq] using ht
      exact ⟨id, _, rfl, rfl, Option.map_eq_none_iff.1 hp⟩
    | _ => cases ht
  · rintro ⟨name, ⟨funcPos, params, results⟩, rfl, rfl, rfl⟩
    exact ⟨name.move f, _, rfl, rfl, rfl⟩

@[simp] theorem FieldList.isUntagged_move (fields : FieldList) :
    (fields.move f).IsUntagged ↔ fields.IsUntagged := by
  simp [FieldList.IsUntagged, Field.move]

@[simp] theorem FieldList.isResult_move (fields : FieldList) :
    (fields.move f).IsResult ↔ fields.IsResult := by
  obtain ⟨opening, list, closing⟩ := fields
  simp [FieldList.IsResult, FieldList.move, FieldList.IsUntagged, moveFields_eq_map, Field.move]

@[simp] theorem FuncType.isWhole_move (t : FuncType) : (t.move f).IsWhole ↔ t.IsWhole := by
  obtain ⟨funcPos, params, results⟩ := t
  simp [FuncType.IsWhole, FuncType.move, moveFieldList?_eq_map]

@[simp] theorem GenDecl.isWhole_move (d : GenDecl) : (d.move f).IsWhole ↔ d.IsWhole := by
  have hspec : ∀ spec : Spec, ((spec.move f).IsWhole ↔ spec.IsWhole) ∧
      (spec.move f).isType = spec.isType := by
    rintro (_ | _) <;> simp [Spec.move, Spec.IsWhole, Spec.isType]
  obtain ⟨wordPos, word, lparen, specs, rparen⟩ := d
  simp [GenDecl.IsWhole, GenDecl.move, moveSpecs_eq_map, hspec]

theorem Phrase.isWhole_move (n : Phrase) : (n.move f).IsWhole ↔ n.IsWhole := by
  cases n with
  | expr e => cases e <;> simp [Phrase.IsWhole, Expr.move, Expr.IsWhole]
  | stmt s =>
    cases s <;> simp [Phrase.IsWhole, Stmt.move, Stmt.IsWhole, moveExprs_eq_map, moveExpr?_eq_map]

theorem Decl.isWhole_move (d : Decl) : (d.move f).IsWhole ↔ d.IsWhole := by
  cases d with
  | func d =>
    obtain ⟨funcPos, recv, name, params, results, body⟩ := d
    simp [Decl.move, FuncDecl.move, Decl.IsWhole, FuncType.IsWhole, moveFieldList?_eq_map]
  | gen g => exact g.isWhole_move f

theorem Phrase.arranged_move (n : Phrase) : (n.move f).Arranged ↔ n.Arranged := by
  simp only [Phrase.Arranged, Phrase.seats_move, Phrase.isWhole_move, List.forall_mem_map, moveSeat,
    Seat.admits_move]

end GoFun
