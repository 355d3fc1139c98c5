import GoFun.Proofs.Tree.Phrase
import GoFun.Proofs.Tree.Token

/-!
# Divisions among tokens

The slashes among the tokens of a tree are the operators of its divisions.
-/
namespace GoFun

open Token List

attribute [local simp] Expr.children Stmt.children Expr.tokens Stmt.tokens tokensOfExpr?_eq
  tokensOfExprs_eq tokensOfStmt?_eq flatMap_map

def Token.IsSlash (x : Token) : Prop := x.kind = .fixed ∧ x.text = "/"

def Phrase.tokens : Phrase → List Token
  | expr e => e.tokens
  | stmt s => s.tokens

@[simp] theorem Phrase.tokens_expr (e : Expr) : (Phrase.expr e).tokens = e.tokens := rfl

@[simp] theorem Phrase.tokens_stmt (s : Stmt) : (Phrase.stmt s).tokens = s.tokens := rfl

section Members

variable {x : Token} (hx : x.IsSlash)

include hx

theorem Token.IsSlash.ne_placed (p : Pos) {w : String} (hw : w ≠ "/") : x ≠ placed p w := by
  rintro rfl
  exact hw hx.2

theorem Token.IsSlash.ne_loose {w : String} (hw : w ≠ "/") : x ≠ loose w := by
  rintro rfl
  exact hw hx.2

theorem Token.IsSlash.notMem_known (p : Pos) {w : String} (hw : w ≠ "/") : x ∉ known p w := by
  cases p with
  | none => simp [known]
  | some p => simpa [known] using hx.ne_placed (some p) hw

theorem Token.IsSlash.ne_ident (id : Ident) : id.token ≠ x := by
  rintro rfl
  cases hx.1

theorem Token.IsSlash.ne_literal (l : Literal) : l.token ≠ x := by
  rintro rfl
  cases hx.1

theorem FieldList.mem_tokens {before after : String} (hb : before ≠ "/") (ha : after ≠ "/")
    (fields : FieldList) :
    x ∈ fields.tokens before after ↔ x ∈ fields.children.flatMap Phrase.tokens := by
  obtain ⟨opening, list, closing⟩ := fields
  simp [FieldList.tokens, tokensOfFields_eq, Field.tokens, FieldList.children, hx.ne_placed, hb, ha,
    hx.ne_ident, hx.ne_literal]

theorem mem_drop_silentTokens (names : List Ident) (e : Expr) :
    x ∈ e.tokens.drop (silentTokens names e) ↔ x ∈ e.tokens := by
  unfold silentTokens
  split
  case h_1 => split <;> simp [hx.ne_placed]
  case h_2 => simp

theorem FieldList.mem_methodTokens (fields : FieldList) :
    x ∈ fields.methodTokens ↔ x ∈ fields.children.flatMap Phrase.tokens := by
  obtain ⟨opening, list, closing⟩ := fields
  simp [FieldList.methodTokens, tokensOfMethods_eq, Field.methodTokens, FieldList.children,
    hx.ne_placed, mem_drop_silentTokens hx, hx.ne_ident, hx.ne_literal]

theorem mem_tokensOfResults (results : Option FieldList) :
    x ∈ tokensOfResults results ↔ x ∈ (results.toList.flatMap FieldList.children).flatMap Phrase.tokens := by
  have htokens : ∀ fields : FieldList, x ∈ fields.tokens "(" ")" ↔ x ∈ fields.children.flatMap Phrase.tokens :=
    FieldList.mem_tokens hx (by decide) (by decide)
  rcases results with - | ⟨opening, - | ⟨⟨- | ⟨name, names⟩, t, tag⟩, fields⟩, closing⟩
  · simp
  · simp [tokensOfResults, tokensOfFields, FieldList.children, hx.ne_placed]
  · cases fields with
    | nil => cases closing <;> simp [tokensOfResults, FieldList.children, known, hx.ne_placed]
    | cons field fields => simpa [tokensOfResults, FieldList.tokens] using htokens ⟨opening, _, closing⟩
  · simpa [tokensOfResults, FieldList.tokens] using htokens ⟨opening, _, closing⟩

theorem FuncType.mem_tokens (t : FuncType) : x ∈ t.tokens ↔ x ∈ t.children.flatMap Phrase.tokens := by
  obtain ⟨funcPos, params, results⟩ := t
  rw [FuncType.tokens, FuncType.children, flatMap_append, mem_append, mem_append,
    FieldList.mem_tokens hx (by decide) (by decide), mem_tokensOfResults hx]

theorem Block.mem_tokens (b : Block) : x ∈ b.tokens ↔ x ∈ b.children.flatMap Phrase.tokens := by
  obtain ⟨lbrace, list, rbrace⟩ := b
  simp [Block.tokens, tokensOfStmts_eq, Block.children, hx.ne_placed]

theorem Spec.mem_tokens (spec : Spec) :
    x ∈ spec.tokens ↔ x ∈ spec.children.flatMap Phrase.tokens := by
  cases spec with
  | value names t values =>
    cases values <;>
      simp [Spec.tokens, Spec.children, hx.ne_ident, hx.ne_loose]
  | type name equals t => simp [Spec.tokens, Spec.children, (hx.ne_ident name).symm,
    hx.notMem_known]

theorem GenDecl.mem_tokens (d : GenDecl) : x ∈ d.tokens ↔ x ∈ d.children.flatMap Phrase.tokens := by
  obtain ⟨wordPos, word, lparen, specs, rparen⟩ := d
  have hword : word.word ≠ "/" := by cases word <;> decide
  simp only [GenDecl.tokens, GenDecl.children, tokensOfSpecs_eq, flatMap_assoc, mem_cons,
    mem_append, hx.ne_placed _ hword, hx.notMem_known _ (show "(" ≠ "/" by decide),
    hx.notMem_known _ (show ")" ≠ "/" by decide),
    mem_flatMap (l := specs), Spec.mem_tokens hx, false_or, or_false]

theorem Expr.mem_tokens {e : Expr} (he : ∀ a p b, e ≠ .binary a p .quo b) :
    x ∈ e.tokens ↔ x ∈ e.children.flatMap Phrase.tokens := by
  cases e with
  | ident id => simp [(hx.ne_ident id).symm]
  | lit l => simp [(hx.ne_literal l).symm]
  | selector y sel => simp [hx.ne_loose, (hx.ne_ident sel).symm]
  | binary a p op b =>
    have hw : op.symbol ≠ "/" := by cases op <;> first | decide | exact absurd rfl (he a p b)
    simp [hx.ne_placed, hw]
  | unary p op y =>
    have hw : op.symbol ≠ "/" := by cases op <;> decide
    simp [hx.ne_placed, hw]
  | paren | index | star | keyValue | map => simp [hx.ne_placed, hx.ne_loose]
  | call f lparen args dots rparen =>
    simp [hx.ne_placed, hx.notMem_known]
  | array lbrack len elem => simp [hx.ne_placed, hx.ne_loose]
  | chan p dir value => cases dir <;> simp [ChanDir.tokens, hx.ne_placed, hx.ne_loose]
  | struct p fields =>
    rw [Expr.tokens, mem_cons, FieldList.mem_tokens hx (by decide) (by decide)]
    simp [hx.ne_placed]
  | interface p methods =>
    rw [Expr.tokens, mem_cons, FieldList.mem_methodTokens hx]
    simp [hx.ne_placed]
  | composite t lbrace elems rbrace =>
    simp [hx.ne_placed]
  | funcLit t body =>
    rw [Expr.tokens, mem_cons, mem_append, FuncType.mem_tokens hx, Block.mem_tokens hx]
    simp [hx.ne_placed]
  | func t =>
    rw [Expr.tokens, mem_cons, FuncType.mem_tokens hx]
    simp [hx.ne_placed]
  | slice y lbrack low high max rbrack =>
    simp [hx.ne_placed, hx.ne_loose]
  | assertion y lparen t rparen =>
    cases t <;> simp [tokensOfExpr?, hx.ne_placed, hx.ne_loose]
  | ellipsis dots elem => simp [hx.ne_placed]

theorem Stmt.mem_tokens (s : Stmt) : x ∈ s.tokens ↔ x ∈ s.children.flatMap Phrase.tokens := by
  cases s with
  | decl d => exact GenDecl.mem_tokens hx d
  | assign lhs p op rhs =>
    have hw : op.symbol ≠ "/" := by cases op <;> decide
    simp [hx.ne_placed, hw]
  | incDec y p step =>
    have hw : step.symbol ≠ "/" := by cases step <;> decide
    simp [hx.ne_placed, hw]
  | jump p word label =>
    have hw : word.word ≠ "/" := by cases word <;> decide
    simp [hx.ne_placed, hw, hx.ne_ident]
  | block b => exact Block.mem_tokens hx b
  | expr | go | defer | send => simp [hx.ne_placed]
  | labeled label p s => simp [hx.ne_placed, (hx.ne_ident label).symm]
  | ret p results => simp [hx.ne_placed]
  | ifElse p init cond body other =>
    simp only [Stmt.tokens, mem_cons, mem_append, Block.mem_tokens hx]
    simp [hx.ne_placed, hx.ne_loose, or_assoc]
  | forLoop p init cond post body =>
    simp only [Stmt.tokens, mem_cons, mem_append, Block.mem_tokens hx]
    simp [hx.ne_placed, or_assoc]
  | range p key value opPos op y body =>
    have hw : ∀ o : AssignOp, placed opPos o.symbol ≠ x := fun o =>
      (hx.ne_placed opPos (by cases o <;> decide)).symm
    simp only [Stmt.tokens, mem_cons, mem_append, Block.mem_tokens hx]
    simp [hx.ne_placed, hx.ne_loose, hw, or_assoc]
  | switch p init tag body =>
    simp only [Stmt.tokens, mem_cons, mem_append, Block.mem_tokens hx]
    simp [hx.ne_placed, or_assoc]
  | typeSwitch p init guard body =>
    simp only [Stmt.tokens, mem_cons, mem_append, Block.mem_tokens hx]
    simp [hx.ne_placed, or_assoc]
  | select p body =>
    simp only [Stmt.tokens, mem_cons, Block.mem_tokens hx]
    simp [hx.ne_placed]
  | caseClause p list colon body =>
    cases list <;> simp [tokensOfStmts_eq, hx.ne_placed]
  | commClause p comm colon body =>
    cases comm <;> simp [tokensOfStmts_eq, hx.ne_placed]

/-- The slash of a phrase stands below it, unless the phrase is the division itself. -/
theorem Phrase.mem_tokens (n : Phrase) :
    x ∈ n.tokens ↔ (∃ c ∈ n.children, x ∈ c.tokens) ∨ ∃ a p b, n = .expr (.binary a p .quo b) ∧
    x = placed p "/" := by
  rw [← mem_flatMap]
  cases n with
  | stmt s => simpa [Phrase.children] using Stmt.mem_tokens hx s
  | expr e =>
    by_cases he : ∃ a p b, e = .binary a p .quo b
    · obtain ⟨a, p, b, rfl⟩ := he
      simp [Phrase.children, BinaryOp.symbol]
      grind
    · have hne : ∀ a p b, e ≠ .binary a p .quo b := fun a p b h => he ⟨a, p, b, h⟩
      simpa [hne, Phrase.children] using Expr.mem_tokens hx hne

/-- The slashes of a tree are those of the divisions in it. -/
theorem Phrase.mem_tokens_iff {P : Phrase → Prop} {n : Phrase} (h : Throughout P n) :
    x ∈ n.tokens ↔ ∃ a p b, Occurs (.expr (.binary a p .quo b)) n ∧ x = placed p "/" := by
  constructor
  · induction h with
    | intro _ _ ih =>
      intro hmem
      rcases (Phrase.mem_tokens hx _).1 hmem with ⟨c, hc, hxc⟩ | ⟨a, p, b, rfl, he⟩
      · obtain ⟨a, p, b, ho, he⟩ := ih c hc hxc
        exact ⟨a, p, b, .deeper hc ho, he⟩
      · exact ⟨a, p, b, .self, he⟩
  · rintro ⟨a, p, b, ho, rfl⟩
    clear h
    induction ho with
    | self => exact (Phrase.mem_tokens hx _).2 (.inr ⟨a, p, b, rfl, rfl⟩)
    | deeper member _ ih => exact (Phrase.mem_tokens hx _).2 (.inl ⟨_, member, ih⟩)

theorem Decl.mem_tokens (d : Decl) : x ∈ d.tokens ↔ ∃ c ∈ d.children, x ∈ c.tokens := by
  rw [← mem_flatMap]
  cases d with
  | gen g => exact GenDecl.mem_tokens hx g
  | func f =>
    obtain ⟨funcPos, recv, name, params, results, body⟩ := f
    have hrecv : x ∈ recv.toList.flatMap (FieldList.tokens "(" ")") ↔
        x ∈ (recv.toList.flatMap FieldList.children).flatMap Phrase.tokens := by
      cases recv with
      | none => simp
      | some fields => simpa using FieldList.mem_tokens hx (by decide) (by decide) fields
    have hbody : x ∈ body.toList.flatMap Block.tokens ↔
        x ∈ (body.toList.flatMap Block.children).flatMap Phrase.tokens := by
      cases body with
      | none => simp
      | some b => simpa using Block.mem_tokens hx b
    simp only [Decl.tokens, FuncDecl.tokens, Decl.children, FuncDecl.children, flatMap_append,
      mem_cons, mem_append, hrecv, hbody, FuncType.mem_tokens hx, FuncType.children,
      hx.ne_placed _ (show "func" ≠ "/" by decide), (hx.ne_ident name).symm, false_or, or_assoc]

end Members

/-- The slashes among the tokens of the declarations of a file are those of its divisions. -/
theorem File.mem_tokens {P : Phrase → Prop} {f : File} (h : f.Throughout P)
    (himports : ∀ spec ∈ f.imports, spec.path.children = []) {x : Token} (hx : x.IsSlash) :
    x ∈ f.decls.flatMap Decl.tokens ↔ ∃ a p b, f.Has (.expr (.binary a p .quo b)) ∧
    x = placed p "/" := by
  simp only [mem_flatMap, Decl.mem_tokens hx]
  constructor
  · rintro ⟨d, hd, c, hc, hxc⟩
    have hroot : c ∈ f.children := mem_append_right _ (mem_flatMap.2 ⟨d, hd, hc⟩)
    obtain ⟨a, p, b, ho, he⟩ := (Phrase.mem_tokens_iff hx (h c hroot)).1 hxc
    exact ⟨a, p, b, ⟨c, hroot, ho⟩, he⟩
  · rintro ⟨a, p, b, ⟨root, hroot, ho⟩, he⟩
    rcases mem_append.1 hroot with hr | hr
    · obtain ⟨spec, hspec, rfl⟩ := mem_map.1 hr
      have hnone := himports spec hspec
      generalize spec.path = e at ho hnone
      cases ho with
      | self => simp at hnone
      | deeper member => exact absurd member (by rw [Phrase.children, hnone]; exact not_mem_nil)
    · obtain ⟨d, hd, hc⟩ := mem_flatMap.1 hr
      exact ⟨d, hd, root, hc, (Phrase.mem_tokens_iff hx (h root hroot)).2 ⟨a, p, b, ho, he⟩⟩

end GoFun
