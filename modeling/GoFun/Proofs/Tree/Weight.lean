import GoFun.Proofs.Tree.Tidy

/-!
# Weights of trees

A tree weighs what its tokens weigh together. To make a tree tidy takes tokens away or does nothing,
so a tree that weighs no more than the tidy one is tidy but for positions and objects.
-/
namespace GoFun

open Token

attribute [local instance (high)] Zero.ofOfNat0

/-- A weight for texts by which a bracket is not for free. -/
structure Weight where
  of : String → Nat
  bracket : 0 < of "("

def weigh (w : Weight) (ts : List Token) : Nat := (ts.map fun x => w.of x.text).sum

section Weigh

variable (w : Weight)

@[simp] theorem weigh_nil : weigh w [] = 0 := rfl

@[simp] theorem weigh_cons (x : Token) (ts : List Token) :
    weigh w (x :: ts) = w.of x.text + weigh w ts := by simp [weigh]

@[simp] theorem weigh_append (ts us : List Token) :
    weigh w (ts ++ us) = weigh w ts + weigh w us := by simp [weigh]

@[simp] theorem weigh_known (p : Pos) (s : String) :
    weigh w (known p.mark s) = weigh w (known p s) := by
  cases p <;> simp [known, Pos.mark]

@[simp] theorem weigh_names (names : List Ident) :
    weigh w (names.map (Ident.token ∘ Ident.shape)) = weigh w (names.map Ident.token) := by
  simp [weigh, Function.comp_def, Ident.shape]

@[simp] theorem weigh_literals (l : Option Literal) :
    weigh w ((l.map Literal.shape).toList.map Literal.token) =
      weigh w (l.toList.map Literal.token) := by
  cases l <;> simp [Literal.shape]

@[simp] theorem weigh_labels (l : Option Ident) :
    weigh w ((l.map Ident.shape).toList.map Ident.token) = weigh w (l.toList.map Ident.token) := by
  cases l <;> simp [Ident.shape]

@[simp] theorem weigh_dir (p q : Pos) (dir : ChanDir) :
    weigh w (dir.tokens p) = weigh w (dir.tokens q) := by
  cases dir <;> simp [ChanDir.tokens]

theorem weigh_drop_silentTokens (names : List Ident) (e : Expr) :
    weigh w (e.tokens.drop (silentTokens names e)) + silentTokens names e * w.of "func" =
      weigh w e.tokens := by
  unfold silentTokens
  split
  · split <;> simp [Expr.tokens, Nat.add_comm]
  · simp

end Weigh

/-- The weight is at least `b`, and if it is no more then `P` holds. -/
def Slim (a b : Nat) (P : Prop) : Prop := b ≤ a ∧ (a = b → P)

namespace Slim

variable {a a' b b' : Nat} {P Q : Prop}

theorem refl (h : P) : Slim a a P := ⟨Nat.le_refl a, fun _ => h⟩

theorem and (h : Slim a b P) (h' : Slim a' b' Q) : Slim (a + a') (b + b') (P ∧ Q) := by
  obtain ⟨hle, h⟩ := h
  obtain ⟨hle', h'⟩ := h'
  exact ⟨by omega, fun he => ⟨h (by omega), h' (by omega)⟩⟩

-- At the parts of a tree both facts come from the definitions of the tokens and of the tidy forms.
theorem of (h : Slim a b P) (he : a' + b = b' + a := by simp; omega)
    (hPQ : P → Q := by intro h; simp [h]) :
    Slim a' b' Q := by
  obtain ⟨hle, h⟩ := h
  exact ⟨by omega, fun he' => hPQ (h (by omega))⟩

theorem of_lt (h : Slim a b P) (hlt : b' + a < a' + b) : Slim a' b' Q := by
  obtain ⟨hle, -⟩ := h
  exact ⟨by omega, fun he => by omega⟩

end Slim

section Slims

variable {w : Weight}

theorem Slim.unparen {a : Nat} {P : Prop} {e : Expr} (h : Slim a (weigh w e.tokens) P) :
    Slim a (weigh w e.unparen.tokens) (P ∧ e.unparen = e) := by
  cases e with
  | paren l x r =>
    have hw := w.bracket
    exact h.of_lt (by simp [Expr.unparen, Expr.tokens]; omega)
  | _ => exact ⟨h.1, fun he => ⟨h.2 he, rfl⟩⟩

theorem Slim.around {x : Expr}
    (h : Slim (weigh w x.tokens) (weigh w (x.tidy .merged).tokens) (x.tidy .kept = x.tidy .merged))
    (l r : Pos) :
    Slim (weigh w (Expr.paren l x r).tokens) (weigh w ((Expr.paren l x r).tidy .merged).tokens)
      ((Expr.paren l x r).tidy .kept = (Expr.paren l x r).tidy .merged) := by
  have hw := w.bracket
  simp only [Expr.tidy, Parens.around]
  by_cases hx : (x.tidy .merged).isParen = true
  · rw [if_pos hx]
    exact h.of_lt (by simp [Expr.tokens]; omega)
  · rw [if_neg hx]
    exact h.of (by simp [Expr.tokens]; omega) fun he => by rw [he]

attribute [local simp] Expr.tokens Expr.tidy Stmt.tokens Stmt.tidy tokensOfExprs tidyExprs
  tokensOfExpr? tidyExpr?
  tidyHeader? tokensOfFields tidyFields FieldList.tokens FieldList.tidy FuncType.tokens
  FuncType.tidy tokensOfResults
  tidyResults Block.tokens Block.tidy tokensOfSpecs tidySpecs GenDecl.tokens GenDecl.tidy
  tokensOfStmts tidyStmts tokensOfStmt? tidyStmt? FieldList.methodTokens Ident.shape Literal.shape

mutual

theorem Expr.slim : ∀ e : Expr,
    Slim (weigh w e.tokens) (weigh w (e.tidy .merged).tokens) (e.tidy .kept = e.tidy .merged)
  | .ident _ => .of (.refl (a := 0) trivial) (by simp)
  | .lit _ => .of (.refl (a := 0) trivial) (by simp)
  | .paren l x r => x.slim.around l r
  | .selector x _ => x.slim.of
  | .star _ x | .unary _ _ x => x.slim.of
  | .chan p dir x => x.slim.of (by simp [weigh_dir w p none]; omega)
  | .index x _ y _ | .binary x _ _ y | .map _ x y | .keyValue x _ y =>
    (x.slim.and y.slim).of
  | .call f _ args _ _ => (f.slim.and (slim_exprs args)).of
  | .array _ len elem => ((slim_expr? [] len).and elem.slim).of
  | .struct _ fields => (fields.slim "\x7b" "\x7d").of
  | .interface _ methods => methods.slim_methods.of
  | .composite t _ elems _ => ((slim_expr? [] t).and (slim_exprs elems)).of
  | .funcLit t body => (t.slim.and body.slim).of
  | .slice x _ low high max _ =>
    (x.slim.and ((slim_expr? [] low).and ((slim_expr? [] high).and
      (slim_expr? [loose ":"] max)))).of
  | .assertion x _ none _ => x.slim.of
  | .assertion x _ (some t) _ => (x.slim.and t.slim).of
  | .ellipsis _ elem => (slim_expr? [] elem).of
  | .func t => t.slim.of

theorem slim_exprs : ∀ es : List Expr,
    Slim (weigh w (tokensOfExprs es)) (weigh w (tokensOfExprs (tidyExprs .merged es)))
    (tidyExprs .kept es = tidyExprs .merged es)
  | [] => .refl rfl
  | e :: es => (e.slim.and (slim_exprs es)).of

theorem slim_expr? (before : List Token) : ∀ e : Option Expr,
    Slim (weigh w (tokensOfExpr? before e)) (weigh w (tokensOfExpr? before (tidyExpr? .merged e)))
      (tidyExpr? .kept e = tidyExpr? .merged e)
  | none => .refl rfl
  | some e => e.slim.of

theorem slim_header? : ∀ e : Option Expr,
    Slim (weigh w (tokensOfExpr? [] e)) (weigh w (tokensOfExpr? [] (tidyHeader? .merged e)))
      (tidyHeader? .kept e = tidyHeader? .merged e)
  | none => .refl rfl
  | some e => (e.slim.unparen).of

theorem slim_fields : ∀ fields : List Field,
    Slim (weigh w (tokensOfFields fields)) (weigh w (tokensOfFields (tidyFields .merged fields)))
      (tidyFields .kept fields = tidyFields .merged fields)
  | [] => .refl rfl
  | ⟨names, t, tag⟩ :: fields => (t.slim.and (slim_fields fields)).of

theorem FieldList.slim (before after : String) : ∀ fields : FieldList,
    Slim (weigh w (fields.tokens before after))
      (weigh w ((fields.tidy .merged).tokens before after))
      (fields.tidy .kept = fields.tidy .merged)
  | ⟨_, list, _⟩ => (slim_fields list).of

theorem slim_methods : ∀ fields : List Field,
    Slim (weigh w (tokensOfMethods fields)) (weigh w (tokensOfMethods (tidyFields .merged fields)))
      (tidyFields .kept fields = tidyFields .merged fields)
  | [] => .refl rfl
  | ⟨names, t, tag⟩ :: fields => by
    have hsilent := weigh_drop_silentTokens w names t
    have hsilent' := weigh_drop_silentTokens w (names.map Ident.shape) (t.tidy .merged)
    rw [silentTokens_tidy (p := .merged) (by simp)] at hsilent'
    refine (t.slim.and (slim_methods fields)).of ?_
    simp only [tokensOfMethods, tidyFields, silentTokens_tidy (p := .merged) (by simp),
      weigh_append, List.map_map, weigh_names, weigh_literals]
    omega

theorem FieldList.slim_methods : ∀ fields : FieldList,
    Slim (weigh w fields.methodTokens) (weigh w (fields.tidy .merged).methodTokens)
      (fields.tidy .kept = fields.tidy .merged)
  | ⟨_, list, _⟩ => (GoFun.slim_methods list).of

theorem FuncType.slim : ∀ t : FuncType,
    Slim (weigh w t.tokens) (weigh w (t.tidy .merged).tokens) (t.tidy .kept = t.tidy .merged)
  | ⟨_, params, results⟩ => ((params.slim "(" ")").and (slim_results results)).of

theorem slim_results : ∀ fields : Option FieldList,
    Slim (weigh w (tokensOfResults fields)) (weigh w (tokensOfResults (tidyResults .merged fields)))
      (tidyResults .kept fields = tidyResults .merged fields)
  | none => .refl rfl
  | some ⟨_, [], _⟩ => .of_lt (.refl (a := 0) trivial) (by
    have hw := w.bracket
    simp; omega)
  | some ⟨_, [⟨[], t, _⟩], none⟩ => (t.slim.unparen).of (by simp [known]; omega)
  | some ⟨_, [⟨[], t, _⟩], some _⟩ => t.slim.unparen.of_lt (by
    have hw := w.bracket
    simp [known]; omega)
  | some ⟨_, ⟨name :: names, t, tag⟩ :: fields, _⟩ =>
    (t.slim.and (slim_fields fields)).of
  | some ⟨_, ⟨[], t, tag⟩ :: ⟨names, t', tag'⟩ :: fields, _⟩ =>
    (t.slim.and (t'.slim.and (slim_fields fields))).of

theorem Block.slim : ∀ b : Block,
    Slim (weigh w b.tokens) (weigh w (b.tidy .merged).tokens) (b.tidy .kept = b.tidy .merged)
  | ⟨_, list, _⟩ => (slim_stmts list).of

theorem slim_specs : ∀ specs : List Spec,
    Slim (weigh w (tokensOfSpecs specs)) (weigh w (tokensOfSpecs (tidySpecs .merged specs)))
      (tidySpecs .kept specs = tidySpecs .merged specs)
  | [] => .refl rfl
  | .value names t [] :: specs => ((slim_expr? [] t).and (slim_specs specs)).of
  | .value names t (e :: es) ::
      specs => ((slim_expr? [] t).and ((e.slim.and (slim_exprs es)).and (slim_specs specs))).of
  | .type name equals t :: specs =>
    (t.slim.and (slim_specs specs)).of

theorem GenDecl.slim : ∀ d : GenDecl,
    Slim (weigh w d.tokens) (weigh w (d.tidy .merged).tokens) (d.tidy .kept = d.tidy .merged)
  | ⟨_, _, _, specs, _⟩ => (slim_specs specs).of

theorem Stmt.slim : ∀ s : Stmt,
    Slim (weigh w s.tokens) (weigh w (s.tidy .merged).tokens) (s.tidy .kept = s.tidy .merged)
  | .decl d => d.slim.of
  | .expr x | .incDec x _ _ | .go _ x | .defer _ x => x.slim.of
  | .assign lhs _ _ rhs => ((slim_exprs lhs).and (slim_exprs rhs)).of
  | .ret _ results => (slim_exprs results).of
  | .jump _ _ _ => .of (.refl (a := 0) trivial) (by simp)
  | .block b | .select _ b => b.slim.of
  | .ifElse _ init cond body other =>
    ((slim_stmt? [] init).and ((cond.slim.unparen).and
      (body.slim.and (slim_stmt? [loose "else"] other)))).of
  | .forLoop _ init cond post body =>
    ((slim_stmt? [] init).and ((slim_header? cond).and ((slim_stmt? [] post).and body.slim))).of
  | .range _ key value p op x body =>
    ((slim_expr? [] key).and ((slim_expr? [] value).and ((x.slim.unparen).and body.slim))).of
      (by cases op <;> simp <;> omega)
  | .labeled _ _ s => s.slim.of
  | .send chan _ value => (chan.slim.and value.slim).of
  | .switch _ init tag body => ((slim_stmt? [] init).and ((slim_header? tag).and body.slim)).of
  | .typeSwitch _ init guard body => ((slim_stmt? [] init).and (guard.slim.and body.slim)).of
  | .caseClause _ [] _ body => (slim_stmts body).of
  | .caseClause _ (e :: es) _ body => ((e.slim.and (slim_exprs es)).and (slim_stmts body)).of
  | .commClause _ none _ body => (slim_stmts body).of
  | .commClause _ (some s) _ body => (s.slim.and (slim_stmts body)).of

theorem slim_stmts : ∀ ss : List Stmt,
    Slim (weigh w (tokensOfStmts ss)) (weigh w (tokensOfStmts (tidyStmts .merged ss)))
      (tidyStmts .kept ss = tidyStmts .merged ss)
  | [] => .refl rfl
  | s :: ss => (s.slim.and (slim_stmts ss)).of

theorem slim_stmt? (before : List Token) : ∀ s : Option Stmt,
    Slim (weigh w (tokensOfStmt? before s)) (weigh w (tokensOfStmt? before (tidyStmt? .merged s)))
      (tidyStmt? .kept s = tidyStmt? .merged s)
  | none => .refl rfl
  | some s => s.slim.of

end

end Slims

end GoFun
