import GoFun.Proofs.Grammar.Passage
import GoFun.Proofs.Tree.Division
import GoFun.Proofs.Tree.Seat

/-!
# Tokens that are met in a text

The word `func` is not in front of the methods of an interface, though it is a token of their types.
All other tokens of an accepted text are met in it. So they have positions, and their texts are what
the lexer takes.
-/
namespace GoFun

open Parser Token List

def Token.Sound (x : Token) : Prop := x.place ≠ some none ∧ ∃ r, x.Stands r

/-- The tokens without the word that is not in front of a method. -/
def Phrase.heard : Phrase → List Token
  | .expr (.func ⟨none, params, results⟩) => FuncType.tokens ⟨none, params, results⟩
  | n => n.tokens

theorem Phrase.heard_subset (n : Phrase) : n.heard ⊆ n.tokens := by
  unfold Phrase.heard
  split
  · simp [Expr.tokens]
  · simp

section Children

variable {c : Phrase}

theorem FieldList.tokens_child {fields : FieldList} (before after : String)
    (hc : c ∈ fields.children) :
    c.tokens ⊆ fields.tokens before after := by
  obtain ⟨opening, list, closing⟩ := fields
  obtain ⟨f, hf, rfl⟩ := mem_map.1 hc
  intro x hx
  refine mem_cons_of_mem _ (mem_append_left _ ?_)
  rw [tokensOfFields_eq]
  exact mem_flatMap.2 ⟨f, hf, by simp_all [Field.tokens]⟩

theorem heard_drop (names : List Ident) (e : Expr) :
    (Phrase.expr e).heard ⊆ e.tokens.drop (silentTokens names e) := by
  unfold silentTokens
  split
  · split <;> simp [Phrase.heard, Expr.tokens]
  · simpa using Phrase.heard_subset (.expr e)

theorem FieldList.heard_child {fields : FieldList} (hc : c ∈ fields.children) :
    c.heard ⊆ fields.methodTokens := by
  obtain ⟨opening, list, closing⟩ := fields
  obtain ⟨f, hf, rfl⟩ := mem_map.1 hc
  intro x hx
  refine mem_cons_of_mem _ (mem_append_left _ ?_)
  rw [tokensOfMethods_eq]
  refine mem_flatMap.2 ⟨f, hf, ?_⟩
  rw [Field.methodTokens]
  exact mem_append_left _ (mem_append_right _ (heard_drop f.names f.type hx))

theorem tokensOfResults_child {fields : FieldList} (hc : c ∈ fields.children) :
    c.tokens ⊆ tokensOfResults (some fields) := by
  match fields with
  | ⟨opening, [], closing⟩ => simp [FieldList.children] at hc
  | ⟨opening, [⟨[], t, tag⟩], closing⟩ =>
    obtain rfl : c = .expr t := by simpa [FieldList.children] using hc
    intro x hx
    simp_all [tokensOfResults]
  | ⟨opening, ⟨name :: names, t, tag⟩ :: fields, closing⟩
  | ⟨opening, ⟨[], t, tag⟩ :: ⟨names, t', tag'⟩ :: fields, closing⟩ =>
    have h := FieldList.tokens_child "(" ")" hc
    simpa [tokensOfResults, FieldList.tokens] using h

theorem FuncType.tokens_child {t : FuncType} (hc : c ∈ t.children) : c.tokens ⊆ t.tokens := by
  obtain ⟨funcPos, params, results⟩ := t
  intro x hx
  rw [FuncType.tokens]
  rcases mem_append.1 hc with hc | hc
  · exact mem_append_left _ (FieldList.tokens_child _ _ hc hx)
  · obtain ⟨fields, hf, hfields⟩ := mem_flatMap.1 hc
    obtain rfl : results = some fields := Option.mem_toList.1 hf
    exact mem_append_right _ (tokensOfResults_child hfields hx)

theorem Block.tokens_child {b : Block} (hc : c ∈ b.children) : c.tokens ⊆ b.tokens := by
  obtain ⟨lbrace, list, rbrace⟩ := b
  obtain ⟨s, hs, rfl⟩ := mem_map.1 hc
  intro x hx
  refine mem_cons_of_mem _ (mem_append_left _ ?_)
  rw [tokensOfStmts_eq]
  exact mem_flatMap.2 ⟨s, hs, hx⟩

theorem GenDecl.tokens_child {d : GenDecl} (hc : c ∈ d.children) : c.tokens ⊆ d.tokens := by
  obtain ⟨wordPos, word, lparen, specs, rparen⟩ := d
  obtain ⟨spec, hspec, hc⟩ := mem_flatMap.1 hc
  intro x hx
  refine mem_cons_of_mem _ (mem_append_left _ (mem_append_right _ ?_))
  rw [tokensOfSpecs_eq]
  refine mem_flatMap.2 ⟨spec, hspec, ?_⟩
  cases spec with
  | value names t values =>
    simp only [Spec.children, mem_append, mem_map] at hc
    simp only [Spec.tokens, tokensOfExprs_eq, tokensOfExpr?_eq, mem_append, mem_flatMap]
    grind [Phrase.tokens]
  | type name equals t =>
    obtain rfl : c = .expr t := by simpa [Spec.children] using hc
    simp_all [Spec.tokens]

theorem Expr.heard_child {e : Expr} (hc : c ∈ e.children) : c.heard ⊆ (Phrase.expr e).heard := by
  have hsub := c.heard_subset
  cases e with
  | func t =>
    obtain ⟨funcPos, params, results⟩ := t
    have h := List.Subset.trans hsub (FuncType.tokens_child hc)
    cases funcPos with
    | none => exact h
    | some p => exact List.Subset.trans h (by simp [Phrase.heard, Expr.tokens, FuncType.tokens])
  | interface p methods => exact List.Subset.trans (FieldList.heard_child hc) (by simp [Phrase.heard, Expr.tokens])
  | struct p fields =>
    refine List.Subset.trans hsub ?_
    exact List.Subset.trans (FieldList.tokens_child "\x7b" "\x7d" hc) (by simp [Phrase.heard, Expr.tokens])
  | funcLit t body =>
    refine List.Subset.trans hsub ?_
    rcases mem_append.1 hc with hc | hc
    · exact List.Subset.trans (FuncType.tokens_child hc) (by simp [Phrase.heard, Expr.tokens])
    · exact List.Subset.trans (Block.tokens_child hc) (by simp [Phrase.heard, Expr.tokens])
  | ident | lit => cases hc
  | _ =>
    refine List.Subset.trans hsub fun x hx => ?_
    simp only [Expr.children, mem_cons, mem_append, mem_map, not_mem_nil, or_false] at hc
    simp only [Phrase.heard, Phrase.tokens, Expr.tokens, tokensOfExprs_eq, tokensOfExpr?_eq,
      mem_cons, mem_append, mem_flatMap]
    grind [Phrase.tokens]

theorem Stmt.heard_child {s : Stmt} (hc : c ∈ s.children) : c.heard ⊆ s.tokens := by
  refine List.Subset.trans c.heard_subset ?_
  cases s with
  | decl d => exact GenDecl.tokens_child hc
  | block b => exact Block.tokens_child hc
  | select p b => exact List.Subset.trans (Block.tokens_child hc) (by simp [Stmt.tokens])
  | ifElse p init cond body other | forLoop p init cond post body | range p key value opPos op cond body
  | switch p init tag body | typeSwitch p init guard body =>
    intro x hx
    have hbody := fun hc : c ∈ body.children => Block.tokens_child hc hx
    simp only [Stmt.children, mem_append, mem_cons, mem_map] at hc
    simp only [Stmt.tokens, tokensOfStmt?_eq, tokensOfExpr?_eq, mem_cons, mem_append, mem_flatMap]
    grind [Phrase.tokens]
  | jump => cases hc
  | _ =>
    intro x hx
    simp only [Stmt.children, mem_cons, mem_append, mem_map, not_mem_nil, or_false] at hc
    simp only [Stmt.tokens, tokensOfExprs_eq, tokensOfStmts_eq, tokensOfStmt?_eq, mem_cons,
      mem_append, mem_flatMap]
    grind [Phrase.tokens]

theorem Phrase.heard_child {n : Phrase} (hc : c ∈ n.children) : c.heard ⊆ n.heard := by
  cases n with
  | expr e => exact Expr.heard_child hc
  | stmt s => exact Stmt.heard_child hc

theorem Decl.tokens_child {d : Decl} (hc : c ∈ d.children) : c.tokens ⊆ d.tokens := by
  cases d with
  | gen g => exact GenDecl.tokens_child hc
  | func f =>
    obtain ⟨funcPos, recv, name, params, results, body⟩ := f
    intro x hx
    simp only [Decl.children, FuncDecl.children, append_assoc, mem_append, mem_flatMap,
      Option.mem_toList] at hc
    simp only [Decl.tokens, FuncDecl.tokens, mem_cons, mem_append, mem_flatMap, Option.mem_toList]
    rcases hc with ⟨fields, hf, hc⟩ | hc | ⟨fields, hf, hc⟩ | ⟨b, hb, hc⟩
    · exact .inr (.inl ⟨fields, hf, FieldList.tokens_child _ _ hc hx⟩)
    · exact .inr (.inr (.inr (.inl (FuncType.tokens_child (mem_append_left _ hc) hx))))
    · exact .inr (.inr (.inr (.inl (FuncType.tokens_child
        (mem_append_right _ (mem_flatMap.2 ⟨fields, by simpa using hf, hc⟩)) hx))))
    · exact .inr (.inr (.inr (.inr ⟨b, hb, Block.tokens_child hc hx⟩)))

end Children

theorem Occurs.heard_subset {n m : Phrase} (h : Occurs n m) : n.heard ⊆ m.heard := by
  induction h with
  | self => exact fun _ hx => hx
  | deeper member _ ih => exact List.Subset.trans ih (Phrase.heard_child member)

theorem Throughout.of_heard {n : Phrase} {P : Phrase → Prop} (h : Throughout P n)
    (hn : ∀ x ∈ n.heard, x.Sound) :
    Throughout (fun c => ∀ x ∈ c.heard, x.Sound) n := by
  induction h with
  | intro _ _ ih => exact .intro hn fun c hc => ih c hc fun x hx => hn x (Phrase.heard_child hc hx)

end GoFun
