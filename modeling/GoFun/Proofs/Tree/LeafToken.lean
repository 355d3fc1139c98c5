import GoFun.Proofs.Tree.Heard

/-!
# Leaves among tokens

The names and literals among the tokens of an arranged tree are its leaves. Of other trees this need
not hold: a single result has no tag in a text, and so its tag is no token.
-/
namespace GoFun

open Token List

attribute [local simp] Expr.tokens Stmt.tokens Stmt.leaves Expr.leaves

section Tokens

variable (ts : List Token)

@[simp] theorem leavesOf_nil : leavesOf [] = [] := rfl

@[simp] theorem leavesOf_placed (p : Pos) (w : String) :
    leavesOf (placed p w :: ts) = leavesOf ts := rfl

@[simp] theorem leavesOf_loose (w : String) : leavesOf (loose w :: ts) = leavesOf ts := rfl

@[simp] theorem leavesOf_ident (id : Ident) : leavesOf (id.token :: ts) = id.leaf :: leavesOf ts :=
  rfl

@[simp] theorem leavesOf_literal (l : Literal) : leavesOf (l.token :: ts) = l.leaf :: leavesOf ts :=
  rfl

end Tokens

@[simp] theorem leavesOf_known (p : Pos) (w : String) : leavesOf (known p w) = [] := by
  cases p <;> rfl

theorem leavesOf_flatMap {α : Type} {f : α → List Token} {g : α → List Leaf} {as : List α}
    (h : ∀ a ∈ as, leavesOf (f a) = g a) : leavesOf (as.flatMap f) = as.flatMap g := by
  induction as with
  | nil => rfl
  | cons a as ih => simp [h a (by simp), ih fun b hb => h b (by simp [hb])]

@[simp] theorem leavesOf_idents (ids : List Ident) :
    leavesOf (ids.map Ident.token) = ids.map Ident.leaf := by
  induction ids <;> simp_all

@[simp] theorem leavesOf_tag (tag : Option Literal) :
    leavesOf (tag.toList.map Literal.token) = tag.toList.map Literal.leaf := by
  cases tag <;> rfl

def Phrase.leaves : Phrase → List Leaf
  | expr e => e.leaves
  | stmt s => s.leaves

/-- The leaves are those among the tokens. -/
def Phrase.Shows (n : Phrase) : Prop := leavesOf n.tokens = n.leaves

section Lists

theorem leavesOf_exprs {es : List Expr} (h : ∀ c ∈ es.map Phrase.expr, c.Shows) :
    leavesOf (tokensOfExprs es) = leavesOfExprs es := by
  rw [tokensOfExprs_eq, leavesOfExprs_eq]
  exact leavesOf_flatMap fun e he => h _ (mem_map_of_mem he)

theorem leavesOf_expr? (before : List Token) (hb : leavesOf before = []) {e : Option Expr}
    (h : ∀ c ∈ e.toList.map Phrase.expr, c.Shows) :
    leavesOf (tokensOfExpr? before e) = leavesOfExpr? e := by
  rw [tokensOfExpr?_eq, leavesOfExpr?_eq]
  exact leavesOf_flatMap fun e he => by rw [leavesOf_append, hb, nil_append]; exact h _ (mem_map_of_mem he)

theorem leavesOf_stmts {ss : List Stmt} (h : ∀ c ∈ ss.map Phrase.stmt, c.Shows) :
    leavesOf (tokensOfStmts ss) = leavesOfStmts ss := by
  rw [tokensOfStmts_eq, leavesOfStmts_eq]
  exact leavesOf_flatMap fun s hs => h _ (mem_map_of_mem hs)

theorem leavesOf_stmt? (before : List Token) (hb : leavesOf before = []) {s : Option Stmt}
    (h : ∀ c ∈ s.toList.map Phrase.stmt, c.Shows) :
    leavesOf (tokensOfStmt? before s) = leavesOfStmt? s := by
  rw [tokensOfStmt?_eq, leavesOfStmt?_eq]
  exact leavesOf_flatMap fun s hs => by rw [leavesOf_append, hb, nil_append]; exact h _ (mem_map_of_mem hs)

theorem FieldList.leavesOf_tokens {fields : FieldList} (h : ∀ c ∈ fields.children, c.Shows) (before after : String) :
    leavesOf (fields.tokens before after) = fields.leaves := by
  obtain ⟨opening, list, closing⟩ := fields
  simp only [FieldList.tokens, FieldList.leaves, tokensOfFields_eq, leavesOfFields_eq,
    leavesOf_placed, leavesOf_append, leavesOf_nil, append_nil]
  refine leavesOf_flatMap fun f hf => ?_
  have ht : leavesOf f.type.tokens = f.type.leaves := h (.expr f.type) (mem_map_of_mem hf)
  simp [Field.tokens, Field.leaves, ht]

theorem FieldList.leavesOf_methodTokens {fields : FieldList} (h : ∀ c ∈ fields.children, c.Shows) :
    leavesOf fields.methodTokens = fields.leaves := by
  obtain ⟨opening, list, closing⟩ := fields
  simp only [FieldList.methodTokens, FieldList.leaves, tokensOfMethods_eq, leavesOfFields_eq,
    leavesOf_placed, leavesOf_append, leavesOf_nil, append_nil]
  refine leavesOf_flatMap fun f hf => ?_
  have ht : leavesOf f.type.tokens = f.type.leaves := h (.expr f.type) (mem_map_of_mem hf)
  have hdrop :
      leavesOf (f.type.tokens.drop (silentTokens f.names f.type)) = leavesOf f.type.tokens := by
    unfold silentTokens
    split
    case h_1 he => split <;> simp [he]
    case h_2 => simp
  simp [Field.methodTokens, Field.leaves, hdrop, ht]

theorem leavesOf_results {results : Option FieldList}
    (h : ∀ c ∈ results.toList.flatMap FieldList.children, c.Shows)
    (hw : ∀ fields ∈ results, fields.IsResult) :
    leavesOf (tokensOfResults results) = leavesOfFieldList? results := by
  match results with
  | none => simp [leavesOfFieldList?]
  | some ⟨opening, [⟨[], t, tag⟩], closing⟩ =>
    obtain rfl : tag = none := (hw _ rfl).1 ⟨[], t, tag⟩ (by simp)
    have ht : leavesOf t.tokens = t.leaves := h (.expr t) (by simp [FieldList.children])
    cases closing <;> simp [tokensOfResults, leavesOfFieldList?, FieldList.leaves, leavesOfFields,
      ht]
  | some ⟨opening, [], closing⟩ | some ⟨opening, ⟨name :: names, t, tag⟩ :: fields, closing⟩
  | some ⟨opening, ⟨[], t, tag⟩ :: ⟨names, t', tag'⟩ :: fields, closing⟩ =>
    have hf : ∀ fields : FieldList, (∀ c ∈ fields.children, c.Shows) →
        leavesOf (fields.tokens "(" ")") = fields.leaves :=
      fun _ h => FieldList.leavesOf_tokens h "(" ")"
    simpa [tokensOfResults, FieldList.tokens, leavesOfFieldList?] using hf ⟨opening, _, closing⟩
      (by simpa using h)

theorem FuncType.leavesOf_tokens {t : FuncType} (h : ∀ c ∈ t.children, c.Shows) (hw : t.IsWhole) :
    leavesOf t.tokens = t.leaves := by
  obtain ⟨funcPos, params, results⟩ := t
  obtain ⟨hparams, hresults⟩ := forall_mem_append.1 h
  rw [FuncType.tokens, FuncType.leaves, leavesOf_append, FieldList.leavesOf_tokens hparams,
    leavesOf_results hresults hw.2]

theorem Block.leavesOf_tokens {b : Block} (h : ∀ c ∈ b.children, c.Shows) :
    leavesOf b.tokens = b.leaves := by
  obtain ⟨lbrace, list, rbrace⟩ := b
  simp [Block.tokens, Block.leaves, leavesOf_stmts h]

theorem GenDecl.leavesOf_tokens {d : GenDecl} (h : ∀ c ∈ d.children, c.Shows) :
    leavesOf d.tokens = d.leaves := by
  obtain ⟨wordPos, word, lparen, specs, rparen⟩ := d
  simp only [GenDecl.tokens, GenDecl.leaves, tokensOfSpecs_eq, leavesOfSpecs_eq, leavesOf_placed,
    leavesOf_append, leavesOf_known, nil_append, append_nil]
  refine leavesOf_flatMap fun spec hspec => ?_
  have hc : ∀ c ∈ spec.children, c.Shows := fun c hc => h c (mem_flatMap.2 ⟨spec, hspec, hc⟩)
  cases spec with
  | value names t values =>
    obtain ⟨ht, hvalues⟩ := forall_mem_append.1 hc
    cases values <;> simp [Spec.tokens, Spec.leaves, leavesOf_expr? [] rfl ht,
      leavesOf_exprs hvalues]
  | type name equals t =>
    have ht : leavesOf t.tokens = t.leaves := hc (.expr t) (by simp [Spec.children])
    simp [Spec.tokens, Spec.leaves, ht]

end Lists

theorem Expr.shows {e : Expr} (h : ∀ c ∈ e.children, c.Shows) (hw : e.IsWhole) :
    (Phrase.expr e).Shows := by
  show leavesOf e.tokens = e.leaves
  cases e with
  | ident | lit => rfl
  | struct p fields => simp [FieldList.leavesOf_tokens h]
  | interface p methods => simp [FieldList.leavesOf_methodTokens h]
  | func t => simp [FuncType.leavesOf_tokens h hw]
  | funcLit t body =>
    obtain ⟨ht, hbody⟩ := forall_mem_append.1 h
    simp [FuncType.leavesOf_tokens ht hw, Block.leavesOf_tokens hbody]
  | call f lparen args dots rparen =>
    obtain ⟨hf, hargs⟩ := forall_mem_cons.1 h
    simp [show leavesOf f.tokens = f.leaves from hf, leavesOf_exprs hargs]
  | composite t lbrace elems rbrace =>
    obtain ⟨ht, helems⟩ := forall_mem_append.1 h
    simp [leavesOf_expr? [] rfl ht, leavesOf_exprs helems]
  | chan p dir value =>
    have hv : leavesOf value.tokens = value.leaves := h (.expr value) (by simp [Expr.children])
    cases dir <;> simp [ChanDir.tokens, hv]
  | assertion x lparen t rparen =>
    obtain ⟨hx, ht⟩ := forall_mem_cons.1 h
    cases t <;> simp [show leavesOf x.tokens = x.leaves from hx, leavesOf_expr? [] rfl ht]
  | array lbrack len elem =>
    obtain ⟨hlen, helem⟩ := forall_mem_append.1 h
    have hl : leavesOf elem.tokens = elem.leaves := helem (.expr elem) (by simp)
    simp [leavesOf_expr? [] rfl hlen, hl]
  | ellipsis dots elem => simp [leavesOf_expr? [] rfl h]
  | slice x lbrack low high max rbrack =>
    obtain ⟨hx, hrest⟩ := forall_mem_cons.1 h
    simp only [forall_mem_append] at hrest
    simp [show leavesOf x.tokens = x.leaves from hx, leavesOf_expr? [] rfl hrest.1.1,
      leavesOf_expr? [] rfl hrest.1.2, leavesOf_expr? [loose ":"] rfl hrest.2]
  | _ => simp_all [Expr.children, Phrase.Shows, Phrase.leaves]

theorem Stmt.shows {s : Stmt} (h : ∀ c ∈ s.children, c.Shows) : (Phrase.stmt s).Shows := by
  show leavesOf s.tokens = s.leaves
  have hexpr : ∀ {e : Expr}, (Phrase.expr e).Shows → leavesOf e.tokens = e.leaves := id
  cases s with
  | decl d => exact GenDecl.leavesOf_tokens h
  | block b => exact Block.leavesOf_tokens h
  | select p b => simp [Block.leavesOf_tokens h]
  | jump p word label => cases label <;> simp
  | ret p results => simp [leavesOf_exprs h]
  | assign lhs p op rhs =>
    simp only [Stmt.children, forall_mem_append] at h
    simp [leavesOf_exprs h.1, leavesOf_exprs h.2]
  | ifElse p init cond body other =>
    simp only [Stmt.children, forall_mem_append, forall_mem_cons] at h
    simp [leavesOf_stmt? [] rfl h.1, hexpr h.2.1, Block.leavesOf_tokens h.2.2.1,
      leavesOf_stmt? [loose "else"] rfl h.2.2.2]
  | forLoop p init cond post body =>
    simp only [Stmt.children, forall_mem_append] at h
    simp [leavesOf_stmt? [] rfl h.1.1.1, leavesOf_expr? [] rfl h.1.1.2,
      leavesOf_stmt? [] rfl h.1.2, Block.leavesOf_tokens h.2]
  | range p key value opPos op x body =>
    simp only [Stmt.children, forall_mem_append, forall_mem_cons] at h
    cases op <;> simp [leavesOf_expr? [] rfl h.1.1, leavesOf_expr? [] rfl h.1.2, hexpr h.2.1,
      Block.leavesOf_tokens h.2.2]
  | switch p init tag body =>
    simp only [Stmt.children, forall_mem_append] at h
    simp [leavesOf_stmt? [] rfl h.1.1, leavesOf_expr? [] rfl h.1.2, Block.leavesOf_tokens h.2]
  | typeSwitch p init guard body =>
    simp only [Stmt.children, forall_mem_append, forall_mem_cons] at h
    simp [leavesOf_stmt? [] rfl h.1, show leavesOf guard.tokens = guard.leaves from h.2.1,
      Block.leavesOf_tokens h.2.2]
  | caseClause p list colon body =>
    simp only [Stmt.children, forall_mem_append] at h
    simp [leavesOf_exprs h.1, leavesOf_stmts h.2]
  | commClause p comm colon body =>
    simp only [Stmt.children, forall_mem_append] at h
    simp [leavesOf_stmt? [] rfl h.1, leavesOf_stmts h.2]
  | _ => simp_all [Stmt.children, Phrase.Shows, Phrase.leaves]

theorem Phrase.shows {n : Phrase} (h : Throughout Phrase.Arranged n) : n.Shows := by
  induction h with
  | @intro n here _ ih =>
    cases n with
    | expr e => exact Expr.shows ih here.2
    | stmt s => exact Stmt.shows ih

theorem Decl.leavesOf_tokens {d : Decl} (h : d.Arranged) : leavesOf d.tokens = d.leaves := by
  have hc : ∀ c ∈ d.children, c.Shows := by
    rw [← d.seats_snd]
    exact forall_mem_map.2 fun x hx => Phrase.shows (h.1 x hx).2
  cases d with
  | gen d => exact GenDecl.leavesOf_tokens hc
  | func f =>
    simp only [Decl.children, FuncDecl.children, forall_mem_append] at hc
    obtain ⟨⟨⟨hrecv, hparams⟩, hresults⟩, hbody⟩ := hc
    have ht : leavesOf (FuncType.tokens ⟨f.funcPos, f.params, f.results⟩) =
        FuncType.leaves ⟨f.funcPos, f.params, f.results⟩ :=
      FuncType.leavesOf_tokens (forall_mem_append.2 ⟨hparams, hresults⟩) h.2.2
    have hr : leavesOf (f.recv.toList.flatMap (FieldList.tokens "(" ")")) =
        f.recv.toList.flatMap FieldList.leaves :=
      leavesOf_flatMap fun fields hf =>
        FieldList.leavesOf_tokens (fun c hc => hrecv c (mem_flatMap.2 ⟨fields, hf, hc⟩)) _ _
    have hb : leavesOf (f.body.toList.flatMap Block.tokens) = f.body.toList.flatMap Block.leaves :=
      leavesOf_flatMap fun b hb => Block.leavesOf_tokens fun c hc =>
        hbody c (mem_flatMap.2 ⟨b, hb, hc⟩)
    simp [Decl.tokens, Decl.leaves, FuncDecl.tokens, FuncDecl.leaves, hr, ht, hb, FuncType.leaves,
      leavesOfFieldList?_eq]

end GoFun
