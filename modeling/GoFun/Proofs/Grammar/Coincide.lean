import GoFun.Proofs.Grammar.Span

/-!
# Rules that do the same on short texts

`Coincide n take p p'` says that `p` and `p'` do the same on all texts of less than `n` characters,
and take at least `take` of them. When the open rules coincide on shorter texts, the rules made of
them coincide on texts that are longer by one character, because a rule opens another one only
behind a character. Only a statement may begin with an expression or a conditional. The two runs may
make different things of idle rounds: no list of the grammar has one.
-/
namespace GoFun

open Parser

structure Coincide {α : Type} (n take : Nat) (p p' : Parser α) : Prop where
  same : ∀ s, s.rest.length < n → p s = p' s
  takes : ∀ {s a t}, s.rest.length < n → p s = some (a, t) → t.rest.length + take ≤ s.rest.length

namespace Coincide

variable {α β : Type} {n m take j : Nat} {p p' q q' : Parser α} {f f' : α → Parser β}
variable {r r' : Parser β} {i i' : IdleRound}

theorem of_takes (h : ∀ s a t, p s = some (a, t) → t.rest.length + take ≤ s.rest.length) :
    Coincide n take p p :=
  ⟨fun _ _ => rfl, fun _ ha => h _ _ _ ha⟩

theorem le (h : Coincide n take p p') (hm : m ≤ n) (hj : j ≤ take) : Coincide m j p p' where
  same s hs := h.same s (Nat.lt_of_lt_of_le hs hm)
  takes hs ha := by
    have := h.takes (Nat.lt_of_lt_of_le hs hm) ha
    omega

theorem zero (h : Coincide n take p p') : Coincide n 0 p p' :=
  h.le (Nat.le_refl n) (Nat.zero_le take)

theorem less (h : Coincide (n + 1) take p p') : Coincide n take p p' :=
  h.le (Nat.le_succ n) (Nat.le_refl take)

theorem vacuous (p p' : Parser α) : Coincide 0 take p p' :=
  ⟨fun _ hs => absurd hs (Nat.not_lt_zero _), fun hs _ => absurd hs (Nat.not_lt_zero _)⟩

/-! ### Sequences -/

theorem pure (a : α) : Coincide n 0 (Pure.pure a) (Pure.pure a) :=
  of_takes fun s b t h => by
    obtain ⟨-, rfl⟩ := result_inj h
    exact Nat.le_refl _

theorem bind_of (hp : Coincide n take p p') (hf : ∀ a, Coincide m j (f a) (f' a))
    (hm : ∀ l l', l < n → l' + take ≤ l → l' < m) :
    Coincide n (take + j) (p >>= f) (p' >>= f') where
  same s hs := by
    cases hps : p s with
    | none => rw [bind_apply_none _ hps, bind_apply_none _ ((hp.same s hs).symm.trans hps)]
    | some x =>
      obtain ⟨a, t⟩ := x
      rw [bind_apply _ hps, bind_apply _ ((hp.same s hs).symm.trans hps)]
      exact (hf a).same t (hm _ _ hs (hp.takes hs hps))
  takes {s b t} hs h := by
    obtain ⟨a, u, ha, hb⟩ := bind_eq_some h
    have hu := hp.takes hs ha
    have ht := (hf a).takes (hm _ _ hs hu) hb
    omega

theorem bind (hp : Coincide n take p p') (hf : ∀ a, Coincide n j (f a) (f' a)) :
    Coincide n take (p >>= f) (p' >>= f') :=
  (bind_of hp hf fun _ _ _ _ => by omega).le (Nat.le_refl n) (Nat.le_add_right take j)

/-- Behind a character the texts are shorter. -/
theorem bind₁ (hp : Coincide (n + 1) 1 p p') (hf : ∀ a, Coincide n j (f a) (f' a)) :
    Coincide (n + 1) 1 (p >>= f) (p' >>= f') :=
  (bind_of hp hf fun _ _ _ _ => by omega).le (Nat.le_refl _) (Nat.le_add_right 1 j)

theorem andThen (hp : Coincide n 0 p p') (hf : ∀ a, Coincide n take (f a) (f' a)) :
    Coincide n take (p >>= f) (p' >>= f') :=
  (bind_of hp hf fun _ _ _ _ => by omega).le (Nat.le_refl n) (Nat.le_add_left take 0)

theorem give (h : Coincide n take p p') (f : α → β) :
    Coincide n take (p >>= fun a => Pure.pure (f a)) (p' >>= fun a => Pure.pure (f a)) :=
  h.bind fun a => pure (f a)

theorem seqRight (hp : Coincide n take p p') (hr : Coincide n j r r') :
    Coincide n take (p *> r) (p' *> r') :=
  show Coincide n take (p >>= fun _ => r) (p' >>= fun _ => r') from hp.bind fun _ => hr

theorem seqLeft (hp : Coincide n take p p') (hr : Coincide n j r r') :
    Coincide n take (p <* r) (p' <* r') :=
  show Coincide n take (p >>= fun a => r >>= fun _ => Pure.pure a)
    (p' >>= fun a => r' >>= fun _ => Pure.pure a) from
    hp.bind fun a => hr.give fun _ => a

theorem orElse (hp : Coincide n take p p') (hq : Coincide n take q q') :
    Coincide n take (p <|> q) (p' <|> q') where
  same s hs := by rw [orElse_apply, orElse_apply, hp.same s hs, hq.same s hs]
  takes hs h := by
    rcases orElse_eq_some h with h | ⟨-, h⟩
    · exact hp.takes hs h
    · exact hq.takes hs h

theorem opt (h : Coincide n take p p') : Coincide n 0 (optional p) (optional p') :=
  orElse (h.give some).zero (pure none)

theorem guarded (c : Prop) [Decidable c] : Coincide n 0 (guard c) (guard c) := by
  by_cases hc : c
  · rw [guard_eq_pure hc]
    exact pure ()
  · rw [guard_eq_failure hc]
    exact ⟨fun _ _ => rfl, fun _ h => by cases h⟩

theorem firstM {γ : Type} {f f' : γ → Parser α} (cs : List γ)
    (h : ∀ c ∈ cs, Coincide n take (f c) (f' c)) :
    Coincide n take (cs.firstM f) (cs.firstM f') := by
  induction cs with
  | nil => exact ⟨fun _ _ => rfl, fun _ h => nomatch h⟩
  | cons c cs ih => exact orElse (h c (by simp)) (ih fun d hd => h d (by simp [hd]))

/-! ### Loops -/

theorem manyFrom_eq (h : Coincide n take p p') (s : Cursor) (hs : s.rest.length < n) :
    manyFrom p s = manyFrom p' s ∧ (manyFrom p s).2.rest.length ≤ s.rest.length := by
  fun_induction manyFrom p s with
  | case1 s hp =>
    rw [h.same s hs] at hp
    rw [manyFrom, hp]
    exact ⟨rfl, Nat.le_refl _⟩
  | case2 s a next hp hlt as last hrest ih =>
    obtain ⟨heq, hle⟩ := ih (Nat.lt_trans hlt hs)
    rw [hrest] at heq hle
    rw [h.same s hs] at hp
    rw [manyFrom, hp]
    dsimp only at hle ⊢
    rw [if_pos hlt, ← heq]
    exact ⟨rfl, by omega⟩
  | case3 s a next hp hlt =>
    rw [h.same s hs] at hp
    rw [manyFrom, hp]
    dsimp only
    rw [if_neg hlt]
    exact ⟨rfl, Nat.le_refl _⟩

/-- Where every round takes a character, no round is idle. -/
theorem manyFrom?_eq (h : Coincide n 1 p p') (s : Cursor) (hs : s.rest.length < n) :
    manyFrom? p s = some (manyFrom p s) := by
  fun_induction manyFrom p s with
  | case1 s hp => rw [manyFrom?, hp]
  | case2 s a next hp hlt as last hrest ih =>
    rw [manyFrom?, hp]
    dsimp only
    rw [if_pos hlt, ih (Nat.lt_trans hlt hs), hrest]
    rfl
  | case3 s a next hp hlt => exact absurd (h.takes hs hp) hlt

theorem many_eq (h : Coincide n 1 p p') (s : Cursor) (hs : s.rest.length < n) :
    @many α i p s = some (manyFrom p s) := by
  cases i with
  | ends => rfl
  | fails => exact h.manyFrom?_eq s hs

theorem symm (h : Coincide n take p p') : Coincide n take p' p where
  same s hs := (h.same s hs).symm
  takes hs ha := h.takes hs ((h.same _ hs).trans ha)

theorem many (h : Coincide n 1 p p') : Coincide n 0 (@many α i p) (@many α i' p') where
  same s hs := by rw [h.many_eq s hs, h.symm.many_eq s hs, (h.manyFrom_eq s hs).1]
  takes {s as t} hs ha := by
    have hle := (h.manyFrom_eq s hs).2
    rwa [Option.some.inj ((h.many_eq s hs).symm.trans ha)] at hle

section Lists

variable {sep sep' : Parser β} (hp : Coincide n take p p') (hsep : Coincide n 1 sep sep')

include hp hsep

theorem sepBy1 : Coincide n take (@sepBy1 α β i p sep) (@sepBy1 α β i' p' sep') :=
  hp.bind fun a => (hsep.seqRight hp).many.give fun as => a :: as

theorem sepBy : Coincide n 0 (@sepBy α β i p sep) (@sepBy α β i' p' sep') :=
  (sepBy1 hp hsep).zero.orElse (pure [])

theorem sepEndBy : Coincide n 0 (@sepEndBy α β i p sep) (@sepEndBy α β i' p' sep') :=
  ((sepBy1 hp hsep).zero.seqLeft hsep.opt).orElse (pure [])

end Lists

theorem chain {op op' : Parser β} {join : α → β → α → α} (hp : Coincide n take p p')
    (hop : Coincide n 1 op op') :
    Coincide n take (@chain α β i p op join) (@chain α β i' p' op' join) :=
  hp.bind fun _ => (hop.bind fun o => hp.give fun y => (o, y)).many.give _

end Coincide

namespace Grammar

variable {p p' : Parser Expr} {i i' : IdleRound}

/-! ### Tokens -/

section Tokens

variable {n : Nat}
variable {sym : String}

theorem coincide_token (h : sym.toList ≠ []) : Coincide n 1 (token sym) (token sym) :=
  .of_takes fun _ _ _ ha => (token_eq_some ha).2.length_lt h

theorem coincide_tokenNl (h : sym.toList ≠ []) : Coincide n 1 (tokenNl sym) (tokenNl sym) :=
  .of_takes fun _ _ _ ha => (tokenNl_eq_some ha).2.length_lt h

theorem coincide_labelColon : Coincide n 1 labelColon labelColon :=
  .of_takes fun _ _ _ ha => (labelColon_eq_some ha).2.length_lt (by decide)

theorem coincide_operatorOf (level : List (BinaryOp × String)) :
    Coincide n 1 (operatorOf level) (operatorOf level) :=
  .of_takes fun _ x _ ha => (operatorOf_eq_some ha).2.length_lt (by cases x.2 <;> decide)

theorem coincide_keyword (w : String) : Coincide n 1 (keyword w) (keyword w) :=
  .of_takes fun _ _ _ ha => by
    obtain ⟨-, r, hr, hu⟩ := keyword_eq_some ha
    exact Nat.lt_of_le_of_lt hu.length_le (Lex.Kind.length_lt (k := .word) hr)

theorem coincide_ident : Coincide n 1 ident ident :=
  .of_takes fun _ _ _ ha => by
    obtain ⟨-, -, r, hr, hu⟩ := ident_eq_some ha
    exact Nat.lt_of_le_of_lt hu.length_le (Lex.Kind.length_lt (k := .word) hr)

theorem coincide_literal : Coincide n 1 literal literal := by
  have h : ∀ (k : Lex.Kind) (kind : List Char → LitKind),
      Coincide n 1 (literalOf kind k.lexer) (literalOf kind k.lexer) :=
    fun k kind => .of_takes fun _ _ _ ha => by
      obtain ⟨-, r, hr, hu⟩ := literalOf_eq_some ha
      exact Nat.lt_of_le_of_lt hu.length_le (Lex.Kind.length_lt hr)
  exact .orElse (h .number _) (.orElse (h .string _) (h .char _))

theorem coincide_blanks : Coincide n 0 blanks blanks :=
  .of_takes fun _ _ _ ha => Skips.length_le ⟨_, .inl rfl, ha⟩

theorem coincide_blanksNl : Coincide n 0 blanksNl blanksNl :=
  .of_takes fun _ _ _ ha => Skips.length_le ⟨_, .inr rfl, ha⟩

theorem coincide_lexeme_one (p : Char → Bool) :
    Coincide n 1 (lexeme (Lexer.one p)) (lexeme (Lexer.one p)) :=
  .of_takes fun s _ _ ha => by
    obtain ⟨r, hr, -, rfl⟩ := lexeme_eq_some ha
    obtain ⟨c, -, hs, -⟩ := Lex.one_eq_some.1 hr
    exact Nat.le_of_eq (congrArg List.length hs).symm

theorem coincide_separator : Coincide n 1 separator separator :=
  coincide_blanks.andThen fun _ => (coincide_lexeme_one _).bind fun _ => coincide_blanksNl

theorem coincide_tokenOf {α : Type} {spelling : α → String} (h : ∀ a, (spelling a).toList ≠ [])
    (choices : List α) :
    Coincide n 1 (tokenOf spelling choices) (tokenOf spelling choices) :=
  .of_takes fun s x u ha => by
    obtain ⟨-, -, hr, -⟩ := tokenOf_eq_some ha
    have := List.length_pos_iff.2 (h x.2)
    rw [hr, List.length_append]
    omega

theorem coincide_lead :
    Coincide n 1 (tokenOf Lead.symbol leads <* blanks) (tokenOf Lead.symbol leads <* blanks) :=
  (coincide_tokenOf (fun
    | .deref => by decide
    | .op o => by cases o <;> decide) leads).seqLeft coincide_blanks

theorem coincide_assignOp (ops : List AssignOp) :
    Coincide n 1 (tokenOf AssignOp.symbol ops) (tokenOf AssignOp.symbol ops) :=
  coincide_tokenOf (fun op => by cases op <;> decide) ops

theorem coincide_step (steps : List Step) :
    Coincide n 1 (tokenOf Step.symbol steps) (tokenOf Step.symbol steps) :=
  coincide_tokenOf (fun step => by cases step <;> decide) steps

end Tokens

structure Rules.Coincide (n : Nat) (g g' : Rules) : Prop where
  expr : GoFun.Coincide n 1 g.expr g'.expr
  type : GoFun.Coincide n 1 g.type g'.type
  stmt : GoFun.Coincide n 1 g.stmt g'.stmt
  elements : GoFun.Coincide n 1 g.elements g'.elements
  conditional : GoFun.Coincide n 1 g.conditional g'.conditional

theorem coincide_typeName {n : Nat} : Coincide n 1 typeName typeName := by
  have hsel : Coincide n 1 (token "." *> ident) (token "." *> ident) :=
    (coincide_token (by decide)).seqRight coincide_ident
  refine coincide_ident.bind fun x => hsel.opt.bind (j := 0) fun sel => ?_
  cases sel <;> exact .pure _

section Types

variable {n : Nat} {g g' : Rules} (hg : g.Coincide n g')

include hg

theorem coincide_block : Coincide (n + 1) 1 (@block i g) (@block i' g') :=
  (coincide_tokenNl (by decide)).bind₁ fun lbrace =>
    (hg.stmt.sepEndBy coincide_separator).bind fun list =>
    (coincide_token (by decide)).give _

theorem coincide_exprList : Coincide n 1 (@exprList i g) (@exprList i' g') :=
  hg.expr.sepBy1 (coincide_tokenNl (by decide))

theorem coincide_paramType : Coincide n 1 (paramType g) (paramType g') :=
  .orElse ((coincide_token (by decide)).bind fun dots => hg.type.give _) hg.type

theorem coincide_param : Coincide n 1 (param g) (param g') :=
  .orElse (coincide_ident.bind fun _ => (coincide_paramType hg).give _)
    ((coincide_paramType hg).give _)

theorem coincide_params : Coincide (n + 1) 1 (@params i g) (@params i' g') :=
  (coincide_tokenNl (by decide)).bind₁ fun opening =>
    ((coincide_param hg).sepEndBy (coincide_tokenNl (by decide))).bind fun entries =>
      coincide_blanksNl.bind fun _ =>
      (coincide_token (by decide)).give _

theorem coincide_signature (funcPos : Pos) :
    Coincide (n + 1) 1 (@signature i g funcPos) (@signature i' g' funcPos) := by
  have hresults : Coincide n 1 (@results i g) (@results i' g') :=
    .orElse (coincide_params hg).less (hg.type.give _)
  exact (coincide_params hg).bind₁ fun params => hresults.opt.give _

theorem coincide_arrayType : Coincide (n + 1) 1 (arrayType g) (arrayType g') := by
  have hlen : Coincide n 1 ((do return .ellipsis (← tokenNl "...") none) <|> g.expr)
      ((do return .ellipsis (← tokenNl "...") none) <|> g'.expr) :=
    .orElse ((coincide_tokenNl (by decide)).give _) hg.expr
  exact (coincide_tokenNl (by decide)).bind₁ fun lbrack => hlen.opt.bind fun len =>
    (coincide_token (by decide)).bind fun _ =>
    hg.type.give _

theorem coincide_mapType : Coincide (n + 1) 1 (mapType g) (mapType g') :=
  (coincide_keyword _).bind₁ fun mapPos => (coincide_token (by decide)).bind fun _ =>
    hg.type.bind fun key =>
    (coincide_token (by decide)).bind fun _ => hg.type.give _

theorem coincide_chanType : Coincide (n + 1) 1 (chanType g) (chanType g') := by
  have hdir : Coincide (n + 1) 1 chanDir chanDir := by
    have hchan : Coincide (n + 1) 1 (keyword "chan") (keyword "chan") := coincide_keyword _
    have harrow : Coincide (n + 1) 1 (token "<-") (token "<-") := coincide_token (by decide)
    exact .orElse ((hchan.seqLeft harrow).give _)
      (.orElse (hchan.give _) ((harrow.seqLeft hchan).give _))
  exact hdir.bind₁ fun (chanPos, dir) => hg.type.give _

theorem coincide_structField : Coincide n 1 (@structField i g) (@structField i' g') := by
  have hnamed : Coincide n 1 (do return (← @sepBy1 _ _ i ident (token ","), ← g.type))
      (do return (← @sepBy1 _ _ i' ident (token ","), ← g'.type)) :=
    (coincide_ident.sepBy1 (coincide_token (by decide))).bind fun names => hg.type.give _
  exact (hnamed.orElse (hg.type.give _)).bind fun (names, type) => coincide_literal.opt.give _

theorem coincide_structType : Coincide (n + 1) 1 (@structType i g) (@structType i' g') :=
  (coincide_keyword _).bind₁ fun structPos => (coincide_tokenNl (by decide)).bind fun opening =>
    ((coincide_structField hg).sepEndBy coincide_separator).bind fun list =>
      (coincide_token (by decide)).give _

theorem coincide_methodSpec : Coincide (n + 1) 1 (@methodSpec i g) (@methodSpec i' g') :=
  .orElse (coincide_ident.bind fun _ => (coincide_signature hg none).give _)
    (coincide_typeName.give _)

theorem coincide_interfaceType : Coincide (n + 1) 1 (@interfaceType i g) (@interfaceType i' g') :=
  (coincide_keyword _).bind₁ fun interfacePos => (coincide_tokenNl (by decide)).bind fun opening =>
    ((coincide_methodSpec hg).less.sepEndBy coincide_separator).bind fun list =>
      (coincide_token (by decide)).give _

theorem coincide_funcType : Coincide (n + 1) 1 (@funcType i g) (@funcType i' g') :=
  (coincide_keyword _).bind fun funcPos => coincide_signature hg funcPos

theorem coincide_type : Coincide (n + 1) 1 (@type i g) (@type i' g') :=
  .orElse coincide_typeName <|
    .orElse ((coincide_token (by decide)).bind₁ fun star => hg.type.give _) <|
    .orElse (coincide_arrayType hg) <| .orElse (coincide_mapType hg) <|
      .orElse (coincide_chanType hg) <|
    .orElse (coincide_structType hg) <| .orElse (coincide_interfaceType hg) <|
    .orElse ((coincide_funcType hg).give _) <|
    (coincide_token (by decide)).bind₁ fun lparen => hg.type.bind fun x =>
      (coincide_token (by decide)).give _

end Types

/-! ### Expressions -/

section Expressions

variable {n : Nat}

theorem coincide_unaryExpr (h : Coincide n 1 p p') :
    Coincide n 1 (@unaryExpr i p) (@unaryExpr i' p') :=
  coincide_lead.many.andThen fun _ => h.give _

theorem coincide_levels (ls : List (List (BinaryOp × String))) (h : Coincide n 1 p p') :
    Coincide n 1 (ls.foldl (fun p level => @chain _ _ i p (operatorOf level) joinBinary) p)
      (ls.foldl (fun p level => @chain _ _ i' p (operatorOf level) joinBinary) p') := by
  induction ls generalizing p p' with
  | nil => exact h
  | cons level ls ih => exact ih (h.chain (coincide_operatorOf level))

theorem coincide_binaryExpr (h : Coincide n 1 p p') :
    Coincide n 1 (@binaryExpr i p) (@binaryExpr i' p') :=
  coincide_levels levels h

variable {g g' : Rules} (hg : g.Coincide n g')

include hg

theorem coincide_keyedElement : Coincide n 1 (keyedElement g) (keyedElement g') := by
  have helement : Coincide n 1 (element g) (element g') := .orElse (hg.elements.give _) hg.expr
  have hvalue : Coincide n 1 (do return (← tokenNl ":", ← element g))
      (do return (← tokenNl ":", ← element g')) :=
    (coincide_tokenNl (by decide)).bind fun colon => helement.give _
  refine helement.bind fun key => hvalue.opt.bind (j := 0) fun value => ?_
  cases value <;> exact .pure _

theorem coincide_elements : Coincide (n + 1) 1 (@elements i g) (@elements i' g') :=
  (coincide_tokenNl (by decide)).bind₁ fun lbrace =>
    ((coincide_keyedElement hg).sepEndBy (coincide_tokenNl (by decide))).bind fun list =>
      coincide_blanksNl.bind fun _ =>
      (coincide_token (by decide)).give _

theorem coincide_funcLit : Coincide (n + 1) 1 (@funcLit i g) (@funcLit i' g') := by
  refine (coincide_funcType hg).bind₁ fun type =>
    (coincide_block hg).less.opt.bind (j := 0) fun body => ?_
  cases body <;> exact .pure _

theorem coincide_literalType : Coincide (n + 1) 1 (@literalType i g) (@literalType i' g') := by
  have hstruct : Coincide (n + 1) 1 (@structType i g) (@structType i' g') := coincide_structType hg
  have htype := (coincide_arrayType hg).orElse ((coincide_mapType hg).orElse hstruct)
  refine htype.bind₁ fun type => hg.elements.opt.bind (j := 0) fun e => ?_
  cases e <;> exact .pure _

theorem coincide_parenExpr : Coincide (n + 1) 1 (parenExpr g) (parenExpr g') :=
  (coincide_tokenNl (by decide)).bind₁ fun lparen => hg.expr.bind fun x =>
    coincide_blanksNl.bind fun _ =>
    (coincide_token (by decide)).give _

theorem coincide_operand : Coincide (n + 1) 1 (@operand i g) (@operand i' g') :=
  .orElse (coincide_literal.give _) <| .orElse (coincide_funcLit hg) <|
    .orElse (coincide_literalType hg) <|
    .orElse (coincide_chanType hg) <| .orElse (coincide_interfaceType hg) <|
      .orElse (coincide_ident.give _) <|
    coincide_parenExpr hg

theorem coincide_assertionSuffix : Coincide (n + 1) 1 (assertionSuffix g) (assertionSuffix g') := by
  have htype :
      Coincide n 1 ((do let _ ← keyword "type"; return none) <|> (do return some (← g.type)))
      ((do let _ ← keyword "type"; return none) <|> (do return some (← g'.type))) :=
    .orElse ((coincide_keyword _).give _) (hg.type.give _)
  exact (coincide_tokenNl (by decide)).bind₁ fun _ =>
    (coincide_token (by decide)).bind fun lparen =>
    htype.bind fun type => (coincide_token (by decide)).give _

theorem coincide_sliceSuffix : Coincide (n + 1) 1 (sliceSuffix g) (sliceSuffix g') :=
  (coincide_tokenNl (by decide)).bind₁ fun lbrack => hg.expr.opt.bind fun low =>
    (coincide_tokenNl (by decide)).bind fun _ =>
    hg.expr.opt.bind fun high =>
      ((coincide_tokenNl (by decide)).seqRight hg.expr).opt.bind fun max =>
      (coincide_token (by decide)).give _

theorem coincide_callSuffix : Coincide (n + 1) 1 (@callSuffix i g) (@callSuffix i' g') :=
  (coincide_tokenNl (by decide)).bind₁ fun lparen =>
    (hg.expr.sepBy (coincide_tokenNl (by decide))).bind fun args =>
    (coincide_tokenNl (by decide)).opt.bind fun dots =>
      (coincide_tokenNl (by decide)).opt.bind fun _ =>
      coincide_blanksNl.bind fun _ => (coincide_token (by decide)).give _

theorem coincide_suffix : Coincide (n + 1) 1 (@suffix i g) (@suffix i' g') :=
  .orElse (coincide_assertionSuffix hg) <|
    .orElse ((coincide_tokenNl (by decide)).bind fun _ => coincide_ident.give _) <|
    .orElse (coincide_sliceSuffix hg) <|
    .orElse ((coincide_tokenNl (by decide)).bind₁ fun lbrack => hg.expr.bind fun i =>
      (coincide_token (by decide)).give _) <|
    coincide_callSuffix hg

theorem coincide_tail (inHeader : Bool) :
    Coincide n 1 (@tail i g inHeader) (@tail i' g' inHeader) := by
  cases inHeader with
  | true => exact (coincide_suffix hg).less
  | false => exact (coincide_suffix hg).less.orElse (hg.elements.give _)

theorem coincide_primaryOf (inHeader : Bool) :
    Coincide (n + 1) 1 (@primaryOf i g inHeader) (@primaryOf i' g' inHeader) :=
  (coincide_operand hg).bind₁ fun _ => (coincide_tail hg inHeader).many.give _

theorem coincide_expr : Coincide (n + 1) 1 (@expr i g) (@expr i' g') :=
  coincide_binaryExpr (coincide_unaryExpr (coincide_primaryOf hg false))

theorem coincide_headerExpr : Coincide (n + 1) 1 (@headerExpr i g) (@headerExpr i' g') :=
  coincide_binaryExpr (coincide_unaryExpr (coincide_primaryOf hg true))

end Expressions

/-! ### Declarations and statements -/

section Statements

variable {n : Nat}

theorem coincide_declOf (word : DeclWord) {p p' : Parser Spec} (h : Coincide n 1 p p') :
    Coincide (n + 1) 1 (@declOf i word p) (@declOf i' word p') := by
  have hgroup : ∀ wordPos, Coincide n 1 (@specGroup i wordPos word p)
      (@specGroup i' wordPos word p') := fun wordPos =>
    .orElse ((coincide_tokenNl (by decide)).bind fun lparen =>
      (h.sepEndBy coincide_separator).bind fun specs =>
      (coincide_token (by decide)).give _) (h.give _)
  exact (coincide_keyword _).bind₁ hgroup

theorem coincide_simpleStmt (h : Coincide n 1 p p') :
    Coincide n 1 (@simpleStmt i p) (@simpleStmt i' p') := by
  have hlist : Coincide n 1 (@sepBy1 _ _ i p (tokenNl ","))
      (@sepBy1 _ _ i' p' (tokenNl ",")) := h.sepBy1 (coincide_tokenNl (by decide))
  exact .orElse (hlist.bind fun lhs => ((coincide_assignOp _).seqLeft coincide_blanksNl).bind
    fun _ => hlist.give _) <|
    .orElse (h.bind fun chan => (coincide_tokenNl (by decide)).bind fun arrow => h.give _) <|
    .orElse (h.bind fun x => ((coincide_step _).seqLeft coincide_blanks).give _) (h.give _)

variable {g g' : Rules} (hg : g.Coincide n g')

include hg

theorem coincide_valueSpec : Coincide n 1 (@valueSpec i g) (@valueSpec i' g') :=
  (coincide_ident.sepBy1 (coincide_tokenNl (by decide))).bind fun _ => hg.type.opt.bind fun _ =>
    ((coincide_tokenNl (by decide)).seqRight (coincide_exprList hg)).opt.give _

theorem coincide_typeSpec : Coincide n 1 (typeSpec g) (typeSpec g') :=
  coincide_ident.bind fun _ => (coincide_token (by decide)).opt.bind fun _ => hg.type.give _

theorem coincide_genDecl : Coincide (n + 1) 1 (@genDecl i g) (@genDecl i' g') :=
  .orElse (coincide_declOf _ (coincide_valueSpec hg)) <|
    .orElse (coincide_declOf _ (coincide_valueSpec hg)) <|
    coincide_declOf _ (coincide_typeSpec hg)

theorem coincide_returnStmt : Coincide (n + 1) 1 (@returnStmt i g) (@returnStmt i' g') :=
  (coincide_keyword _).bind₁ fun _ => (coincide_exprList hg).opt.give _

omit hg in
theorem coincide_jumpStmt : Coincide n 1 jumpStmt jumpStmt :=
  (Coincide.firstM _ fun _ _ => (coincide_keyword _).give _).bind fun _ => coincide_ident.opt.give _

theorem coincide_labeledStmt : Coincide (n + 1) 1 (labeledStmt g) (labeledStmt g') :=
  coincide_ident.bind₁ fun _ => coincide_labelColon.bind fun _ => hg.stmt.give _

theorem coincide_headerSimple : Coincide (n + 1) 1 (@headerSimple i g) (@headerSimple i' g') :=
  coincide_simpleStmt (coincide_headerExpr hg)

theorem coincide_headerInit : Coincide (n + 1) 1 (@headerInit i g) (@headerInit i' g') :=
  (coincide_headerSimple hg).seqLeft (coincide_token (by decide))

theorem coincide_conditional : Coincide (n + 1) 1 (@conditional i g) (@conditional i' g') := by
  have hother :
      Coincide n 1 (keyword "else" *> (g.conditional <|> (do return .block (← @block i g))))
      (keyword "else" *> (g'.conditional <|> (do return .block (← @block i' g')))) :=
    (coincide_keyword _).seqRight (hg.conditional.orElse ((coincide_block hg).less.give _))
  exact (coincide_keyword _).bind₁ fun _ => (coincide_headerInit hg).less.opt.bind fun _ =>
    (coincide_headerExpr hg).less.bind fun _ => (coincide_block hg).less.bind fun _ =>
      hother.opt.give _

theorem coincide_clauseBody : Coincide n 0 (@clauseBody i g) (@clauseBody i' g') :=
  hg.stmt.sepEndBy coincide_separator

theorem coincide_caseClause : Coincide (n + 1) 1 (@caseClause i g) (@caseClause i' g') :=
  .bind₁ (.orElse ((coincide_keyword _).bind₁ fun _ => (coincide_exprList hg).give _)
    ((coincide_keyword _).give _)) fun (_, _) =>
    ((coincide_token (by decide)).seqLeft coincide_blanksNl).bind fun _ =>
      (coincide_clauseBody hg).give _

theorem coincide_switchStmt : Coincide (n + 1) 1 (@switchStmt i g) (@switchStmt i' g') :=
  (coincide_keyword _).bind₁ fun _ => (coincide_headerInit hg).less.opt.bind fun _ =>
    (((coincide_headerSimple hg).less.bind fun _ => (Coincide.guarded _).give _).opt).bind fun _ =>
      (coincide_tokenNl (by decide)).bind fun _ => (coincide_caseClause hg).less.many.bind fun _ =>
        (coincide_token (by decide)).give _

theorem coincide_commClause : Coincide (n + 1) 1 (@commClause i g) (@commClause i' g') :=
  .bind₁ (.orElse ((coincide_keyword _).bind₁ fun _ => (coincide_simpleStmt hg.expr).give _)
    ((coincide_keyword _).give _)) fun (_, _) =>
    ((coincide_token (by decide)).seqLeft coincide_blanksNl).bind fun _ =>
      (coincide_clauseBody hg).give _

theorem coincide_selectStmt : Coincide (n + 1) 1 (@selectStmt i g) (@selectStmt i' g') :=
  (coincide_keyword _).bind₁ fun _ => (coincide_tokenNl (by decide)).bind fun _ =>
    (coincide_commClause hg).less.many.bind fun _ => (coincide_token (by decide)).give _

theorem coincide_rangeClause (forPos : Pos) :
    Coincide n 0 (@rangeClause i g forPos) (@rangeClause i' g' forPos) := by
  have hheader : Coincide n 1 (@headerExpr i g) (@headerExpr i' g') := (coincide_headerExpr hg).less
  have hvars : Coincide n 1 (@rangeVars i g) (@rangeVars i' g') :=
    hheader.bind fun _ => ((coincide_token (by decide)).seqRight hheader).opt.bind fun _ =>
      ((coincide_assignOp _).seqLeft coincide_blanks).give _
  refine hvars.opt.bind fun vars => (coincide_keyword _).bind fun _ =>
    hheader.bind (j := 0) fun x => ?_
  cases vars <;> exact .pure _

theorem coincide_forStmt : Coincide (n + 1) 1 (@forStmt i g) (@forStmt i' g') := by
  have hheader : Coincide n 1 (@headerExpr i g) (@headerExpr i' g') := (coincide_headerExpr hg).less
  have hsimple : Coincide n 1 (@headerSimple i g) (@headerSimple i' g') :=
    (coincide_headerSimple hg).less
  have hfor : ∀ forPos, Coincide n 0 (@forClause i g forPos) (@forClause i' g' forPos) :=
    fun forPos =>
    hsimple.opt.bind fun _ => (coincide_token (by decide)).bind fun _ => hheader.opt.bind fun _ =>
      (coincide_token (by decide)).bind fun _ => hsimple.opt.give _
  have hwhile : ∀ forPos, Coincide n 0 (@whileClause i g forPos) (@whileClause i' g' forPos) :=
    fun forPos =>
    (hheader.give _).zero
  refine (coincide_keyword _).bind₁ fun forPos =>
    ((coincide_rangeClause hg forPos).orElse ((hfor forPos).orElse (hwhile forPos))).opt.bind
      fun clause =>
      (coincide_block hg).less.bind (j := 0) fun body => ?_
  cases clause <;> exact .pure _

/-- A statement may begin with an expression or with a conditional. These two have to coincide on
texts as long as the statement's own. -/
theorem coincide_stmt (hexpr : Coincide (n + 1) 1 g.expr g'.expr)
    (hcond : Coincide (n + 1) 1 g.conditional g'.conditional) :
    Coincide (n + 1) 1 (@stmt i g) (@stmt i' g') :=
  .orElse ((coincide_genDecl hg).give _) <| .orElse (coincide_returnStmt hg) <|
    .orElse coincide_jumpStmt <|
    .orElse hcond <| .orElse (coincide_switchStmt hg) <| .orElse (coincide_selectStmt hg) <|
    .orElse (coincide_forStmt hg) <| .orElse ((coincide_keyword _).bind₁ fun _ => hg.expr.give _) <|
    .orElse ((coincide_keyword _).bind₁ fun _ => hg.expr.give _) <|
      .orElse ((coincide_block hg).give _) <|
    .orElse (coincide_labeledStmt hg) <| coincide_simpleStmt hexpr

theorem coincide_decl : Coincide (n + 1) 1 (@decl i g) (@decl i' g') := by
  have hfunc : Coincide (n + 1) 1 (@funcDecl i g) (@funcDecl i' g') :=
    (coincide_keyword _).bind₁ fun funcPos => (coincide_params hg).less.opt.bind fun _ =>
      coincide_ident.bind fun _ =>
      (coincide_signature hg funcPos).less.bind fun _ => (coincide_block hg).less.opt.give _
  exact (hfunc.give _).orElse ((coincide_genDecl hg).give _)

omit hg in
theorem coincide_importSpec : Coincide n 1 importSpec importSpec := by
  have hname : Coincide n 1 ((do return { pos := ← token ".", name := "." }) <|> ident)
      ((do return { pos := ← token ".", name := "." }) <|> ident) :=
    .orElse ((coincide_token (by decide)).give _) coincide_ident
  exact hname.opt.andThen fun _ => coincide_literal.give _

omit hg in
theorem coincide_importDecl : Coincide n 1 (@importDecl i) (@importDecl i') :=
  (coincide_keyword _).bind fun _ => .orElse (((coincide_tokenNl (by decide)).seqRight
      (coincide_importSpec.sepEndBy coincide_separator)).seqLeft
      (coincide_token (by decide))) (coincide_importSpec.give _)

omit hg in
theorem coincide_atEnd : Coincide n 0 atEnd atEnd :=
  .of_takes fun _ _ _ h => by
    obtain ⟨-, rfl⟩ := atEnd_eq_some h
    exact Nat.le_refl _

theorem coincide_file : Coincide (n + 1) 1 (@file i g) (@file i' g') :=
  coincide_blanksNl.andThen fun _ => (coincide_keyword _).bind fun _ => coincide_ident.bind fun _ =>
    (coincide_separator.seqRight coincide_importDecl).many.bind fun _ =>
      (coincide_separator.seqRight (coincide_decl hg)).many.bind fun _ =>
        coincide_separator.opt.bind fun _ =>
        coincide_blanksNl.bind fun _ => coincide_atEnd.give _

end Statements

end Grammar

end GoFun
