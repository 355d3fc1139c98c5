import GoFun.Proofs.Grammar.Passage
import GoFun.Proofs.Grammar.Sound

/-!
# Every rule takes the tokens of its tree

Each rule of the grammar goes along the tokens of the tree that it gives, when the five open rules
do. Closing the rules, depth by depth, keeps this.
-/
namespace GoFun.Grammar

open Parser Token

def Elements.tokens (x : Elements) : List Token :=
  placed x.lbrace "\x7b" :: (x.list.flatMap Expr.tokens ++ [placed x.rbrace "\x7d"])

/-- Where a name waits and a type that is not a name is next, the type overtakes the name. -/
def IsOvertaking (e : Expr) : Prop :=
  (∃ x, e = .ident x) ∨ ∀ (z : Token) (ts : List Token), z.kind = .name →
    Overtakes (z :: ts) e.tokens

structure Rules.Spelled (b : Bool) (g : Rules) : Prop where
  expr : Meets b g.expr Expr.tokens
  type : Meets b g.type Expr.tokens
  stmt : Meets b g.stmt Stmt.tokens
  elements : Meets b g.elements Elements.tokens
  conditional : Meets b g.conditional Stmt.tokens
  overtaking : Yields g.type IsOvertaking

/-! ### Parameters -/

/-- The tokens of one entry of a parameter list. -/
def entryTokens (x : Option Ident × Expr) : List Token := x.1.toList.map Ident.token ++ x.2.tokens

/-- An entry of a parameter list with the tokens that it is read from. -/
def EntryRead (x : Option Ident × Expr) (ts : List Token) (ls : List Leaf) : Prop :=
  ls = leavesOf ts ∧ Arranges ts (entryTokens x) ∧ IsOvertaking x.2

theorem Field.tokens_untagged (names : List Ident) (t : Expr) :
    Field.tokens ⟨names, t, none⟩ = names.map Ident.token ++ t.tokens := by
  simp [Field.tokens]

theorem groupFrom_orders (waiting : List Ident) (entries : List (Option Ident × Expr))
    (h : Each EntryRead entries ts ls) :
    Orders (waiting.map Ident.token ++ ts) ((groupFrom waiting entries).flatMap Field.tokens) := by
  fun_induction groupFrom waiting entries generalizing ts ls with
  | case1 waiting =>
    cases h
    have hname : ∀ x : Ident, Field.tokens ⟨[], .ident x, none⟩ = [x.token] :=
      fun x => by simp [Field.tokens, Expr.tokens]
    simpa [List.flatMap_map, hname, ← List.map_eq_flatMap] using Orders.refl _
  | case2 waiting name t entries ih =>
    obtain - | ⟨⟨-, hts, -⟩, hus⟩ := h
    have hw := (Orders.refl (waiting.map Ident.token)).append (hts.toOrders.append (ih hus))
    simpa [entryTokens, Field.tokens_untagged] using hw
  | case3 waiting name entries ih =>
    obtain - | ⟨⟨-, hts, -⟩, hus⟩ := h
    obtain rfl := List.perm_singleton.1 (by simpa [entryTokens, Expr.tokens] using hts.perm)
    simpa using ih hus
  | case4 waiting t entries hne ih =>
    obtain - | @⟨_, _, ts, us, _, _, ⟨-, hts, ht⟩, hus⟩ := h
    replace ht := ht.resolve_left (not_exists.2 hne)
    have hrest := ih hus
    simp only [entryTokens, Option.toList_none, List.map_nil, List.nil_append] at hts
    have hflat : (⟨[], t, none⟩ :: groupFrom waiting entries : List Field).flatMap Field.tokens =
        t.tokens ++ (groupFrom waiting entries).flatMap Field.tokens := by
      simp [Field.tokens_untagged]
    rw [hflat]
    cases waiting with
    | nil => simpa using hts.toOrders.append hrest
    | cons name waiting =>
      -- the text has the name first, the tree has the type first
      have hover : Overtakes (waiting.map Ident.token ++ ts) t.tokens := by
        refine (ht name.token [] rfl).of_head fun x hx hname => ?_
        cases waiting with
        | nil =>
          obtain ⟨ts', rfl⟩ := List.head?_eq_some_iff.1 (hts.head.trans hx)
          exact ⟨x, ts', rfl, hname⟩
        | cons next waiting => exact ⟨next.token, _, rfl, rfl⟩
      refine ⟨?_, .inr ⟨[], name.token, waiting.map Ident.token ++ (ts ++ us), _, by simp, rfl, rfl,
        ?_⟩⟩
      · have hswap : ((name :: waiting).map Ident.token ++ (ts ++ us)).Perm
            (ts ++ ((name :: waiting).map Ident.token ++ us)) := by
          simpa only [List.append_assoc] using List.perm_append_comm.append_right us
        exact hswap.trans (hts.perm.append hrest.perm)
      · simpa using hover.append us ((groupFrom (name :: waiting) entries).flatMap Field.tokens)

theorem groupParams_orders (entries : List (Option Ident × Expr))
    (h : Each EntryRead entries ts ls) :
    Orders ts ((groupParams entries).flatMap Field.tokens) := by
  unfold groupParams
  split
  case isTrue hnone =>
    rw [List.flatMap_map]
    have harr : Arranges ts (entries.flatMap entryTokens) := by
      clear hnone
      induction h with
      | nil => exact .refl []
      | cons hx _ ih => exact hx.2.1.append ih
    have hx : ∀ x ∈ entries, entryTokens x = Field.tokens ⟨[], x.2, none⟩ := fun x hx => by
      have hn : x.1 = none := by simpa using List.all_eq_true.1 hnone x hx
      simp [entryTokens, Field.tokens_untagged, hn]
    rw [List.flatMap_def, ← List.map_congr_left hx, ← List.flatMap_def]
    exact harr.toOrders
  case isFalse => simpa using groupFrom_orders [] entries h

theorem entryRead_leaves {entries : List (Option Ident × Expr)} (h : Each EntryRead entries ts ls) :
    ls = leavesOf ts := by
  induction h with
  | nil => rfl
  | cons hx _ ih => rw [leavesOf_append, ← hx.1, ← ih]

/-! ### Types and signatures -/

attribute [local simp] Expr.tokens Stmt.tokens Spec.tokens GenDecl.tokens Decl.tokens Block.tokens
  Field.tokens FieldList.tokens
  Field.methodTokens FieldList.methodTokens ChanDir.tokens Elements.tokens composite entryTokens
  known tokensOfExprs_eq
  tokensOfExpr?_eq tokensOfFields_eq tokensOfMethods_eq tokensOfSpecs_eq tokensOfStmts_eq
  tokensOfStmt?_eq

variable {b : Bool}
variable {ts : List Token} {ls : List Leaf} {p : Parser Expr} {w : String} {g : Rules}

theorem consumes_typeName : Meets b typeName Expr.tokens := by
  have hsel : Meets b (token "." *> ident) fun x => [loose ".", x.token] :=
    .dot (f := fun _ => ident) (fun _ _ _ h => (token_eq_some h).2) (fun _ _ _ _ h => ident_stops h)
      fun _ => consumes_ident.behind _
  refine .bind consumes_ident fun x => .bind (.opt hsel) fun sel => ?_
  split
  · exact .pure (by simp)
  · exact .pure (by simp)

section Types

variable {g : Rules} (hg : g.Spelled b)

include hg

theorem consumes_paramType : Meets b (paramType g) Expr.tokens :=
  .orElse (.bind (consumes_dots token_eq_some) fun _ => .give hg.type (by simp)) hg.type

theorem overtaking_paramType : Yields (paramType g) IsOvertaking :=
  .orElse (.after fun _ => .after fun _ => .pure (.inr fun _ _ _ =>
    .sign (w := "...") rfl (by decide))) hg.overtaking

theorem spends_param : Spends b 0 0 (param g) EntryRead := by
  have hentry : Meets b (param g) entryTokens :=
    .orElse (.bind consumes_ident fun _ => .give (consumes_paramType hg) (by simp))
      (.give (consumes_paramType hg) (by simp))
  have hover : Yields (param g) fun x => IsOvertaking x.2 :=
    .orElse (.after fun _ => .bind (overtaking_paramType hg) fun _ h => .pure h)
      (.bind (overtaking_paramType hg) fun _ h => .pure h)
  intro s x t hs hx
  obtain ⟨ts, ls, hcross, hleaves, us, hus, hbefore⟩ := hentry s x t hs hx
  obtain rfl : us = entryTokens x := hbefore
  exact ⟨ts, ls, hcross, hleaves, hus, hover s x t hx⟩

theorem consumes_params : Meets b (params g) (FieldList.tokens "(" ")") := by
  refine Spends.bind_of (n := 0) (opens_tokenNl (w := "(") (by simp)).single (.any _) fun opening ts
    ls _ hts =>
    .bind (Spends.sepEndBy (spends_param hg) spends_comma) fun entries us ks hus =>
      .skip spends_blanksNl fun _ =>
      .bind_of (n := 0) (closes_token (w := ")") (by simp)).single (.any _) fun closing vs js _
        hvs => .pure ?_
  obtain ⟨rfl, rfl⟩ := hts
  obtain ⟨rfl, rfl⟩ := hvs
  obtain rfl := entryRead_leaves hus
  refine ⟨by simp [← leavesOf_append], _, ?_, rfl⟩
  simp only [tokensOfFields_eq, List.append_nil]
  exact .cons _ ((groupParams_orders entries hus).append (.refl _))

omit hg in
theorem groupFrom_untagged (waiting : List Ident) (entries : List (Option Ident × Expr)) :
    ∀ f ∈ groupFrom waiting entries, f.tag = none := by
  fun_induction groupFrom waiting entries with
  | case1 => simp
  | case2 _ _ _ _ ih | case4 _ _ _ _ ih => exact List.forall_mem_cons.2 ⟨rfl, ih⟩
  | case3 _ _ _ ih => exact ih

omit hg in
theorem bracketed_params :
    Yields (params g) fun l => l.closing.isSome = true ∧ ∀ f ∈ l.list, f.tag = none := by
  refine .after fun _ => .after fun entries => .after fun _ =>
    .bind (P := fun p => p.isSome = true) (fun s p t h => by rw [(token_eq_some h).1]; rfl)
      fun closing hc => .pure ⟨hc, ?_⟩
  unfold groupParams
  split
  · exact List.forall_mem_map.2 fun _ _ => rfl
  · exact groupFrom_untagged [] entries

omit hg in
theorem tokensOfResults_bracketed {fields : FieldList} (h : fields.closing.isSome = true)
    (ht : ∀ f ∈ fields.list, f.tag = none) :
    tokensOfResults (some fields) = fields.tokens "(" ")" := by
  obtain ⟨opening, list, closing⟩ := fields
  match list with
  | [] | ⟨_ :: _, _, _⟩ :: _ | ⟨[], _, _⟩ :: _ :: _ => simp [tokensOfResults, FieldList.tokens]
  | [⟨[], t, tag⟩] => simp_all [tokensOfResults, FieldList.tokens, tokensOfFields, known]

theorem consumes_results : Meets b (results g) fun fields => tokensOfResults (some fields) :=
  .orElse ((consumes_params hg).congr_of bracketed_params fun _ h =>
    (tokensOfResults_bracketed h.1 h.2).symm) (.give hg.type (by simp [tokensOfResults]))

theorem consumes_signature (funcPos : Pos) : Meets b (signature g funcPos) FuncType.tokens := by
  refine .bind (consumes_params hg) fun params => .bind (.opt (consumes_results hg)) fun results =>
    .pure ?_
  cases results <;> simp [FuncType.tokens]

theorem consumes_pointerType : Meets b (pointerType g) Expr.tokens :=
  .bind (consumes_token (by decide)) fun _ => .give hg.type (by simp)

theorem consumes_length :
    Meets b ((do return .ellipsis (← tokenNl "...") none) <|> g.expr) Expr.tokens :=
  .orElse (.give (consumes_dots tokenNl_eq_some) (by simp)) hg.expr

theorem consumes_arrayType : Meets b (arrayType g) Expr.tokens :=
  .opening (opens_tokenNl (by simp)) fun _ => .bind (.opt (consumes_length hg)) fun _ =>
    .closing (closes_looseToken (by simp)) fun _ => .give hg.type (by simp)

theorem consumes_mapType : Meets b (mapType g) Expr.tokens :=
  .bind (consumes_keyword (by decide)) fun _ => .opening (opens_looseToken (by simp)) fun _ =>
    .bind hg.type fun _ =>
    .closing (closes_looseToken (by simp)) fun _ => .give hg.type (by simp)

omit hg in
theorem consumes_chanDir : Meets b ((do return (← keyword "chan" <* token "<-", ChanDir.send))
    <|> (do return (← keyword "chan", .both)) <|>
      (do return (← token "<-" <* keyword "chan", .receive)))
    fun x => x.2.tokens x.1 := by
  have hsend : Meets b (keyword "chan" <* token "<-") fun p => [placed p "chan", loose "<-"] :=
    .bind (consumes_keyword (by decide)) fun _ => .give (consumes_looseToken (by decide)) (by simp)
  have hreceive : Meets b (token "<-" <* keyword "chan") fun p => [placed p "<-", loose "chan"] :=
    .bind (consumes_token (by decide)) fun _ => .give (consumes_looseKeyword (by decide)) (by simp)
  exact .orElse (.give hsend (by simp)) (.orElse (.give (consumes_keyword (by decide)) (by simp))
      (.give hreceive (by simp)))

theorem consumes_chanType : Meets b (chanType g) Expr.tokens :=
  .bind consumes_chanDir fun _ => .give hg.type (by simp)

theorem consumes_structField : Meets b (structField g) Field.tokens := by
  have htype :
      Meets b ((do return (← sepBy1 ident (token ","), ← g.type)) <|> (do return ([], ← g.type)))
      fun x => x.1.map Ident.token ++ x.2.tokens :=
    .orElse (.bind (.sepBy1 consumes_ident spends_inlineComma) fun _ =>
      .give hg.type (by simp [List.map_eq_flatMap])) (.give hg.type (by simp))
  exact .bind htype fun _ => .give (.opt consumes_literal) (by simp [List.map_eq_flatMap])

theorem consumes_structType : Meets b (structType g) Expr.tokens :=
  .bind (consumes_keyword (by decide)) fun _ => .opening (opens_tokenNl (by simp)) fun _ =>
    .bind (.sepEndBy (consumes_structField hg) spends_separator) fun _ =>
      consumes_close (by simp) (by simp)

theorem consumes_methodSpec : Meets b (methodSpec g) Field.methodTokens := by
  have hword : Yields (signature g none) fun t => t.funcPos = none :=
    .after fun _ => .after fun _ => .pure rfl
  refine .orElse (.bind consumes_ident fun name =>
    .bind_of (n := 0) (consumes_signature hg none) hword fun t ht => .pure ?_)
    (.give consumes_typeName (by simp))
  obtain ⟨funcPos, params, results⟩ := t
  obtain rfl : funcPos = none := ht
  simp [Field.methodTokens, silentTokens, Expr.tokens]

theorem consumes_interfaceType : Meets b (interfaceType g) Expr.tokens :=
  .bind (consumes_keyword (by decide)) fun _ => .opening (opens_tokenNl (by simp)) fun _ =>
    .bind (.sepEndBy (consumes_methodSpec hg) spends_separator) fun _ =>
      consumes_close (by simp) (by simp)

theorem consumes_funcType : Meets b (funcType g) fun t => placed t.funcPos "func" :: t.tokens := by
  refine .bind (consumes_keyword (by decide)) fun funcPos => ?_
  have hword : Yields (signature g funcPos) fun t => t.funcPos = funcPos :=
    .after fun _ => .after fun _ => .pure rfl
  exact ((consumes_signature hg funcPos).behind _).congr_of hword fun t ht => by simp [ht]

theorem consumes_parenType : Meets b (parenType g) Expr.tokens :=
  .opening (opens_token (by simp)) fun _ => .bind hg.type fun _ =>
    consumes_close (by simp) (by simp)

theorem consumes_type : Meets b (type g) Expr.tokens :=
  .orElse consumes_typeName (.orElse (consumes_pointerType hg)
    (.orElse (consumes_arrayType hg) (.orElse (consumes_mapType hg)
    (.orElse (consumes_chanType hg) (.orElse (consumes_structType hg)
      (.orElse (consumes_interfaceType hg)
      (.orElse (.give (consumes_funcType hg) (by simp)) (consumes_parenType hg))))))))

end Types

/-- Types begin with a sign or a keyword, or they are names. -/
theorem overtaking_type (g : Rules) : Yields (type g) IsOvertaking := by
  refine .orElse ?name (.orElse ?pointer (.orElse ?array
    (.orElse ?map (.orElse ?chan (.orElse ?struct (.orElse ?interface (.orElse ?func ?paren)))))))
  case name =>
    refine .after fun x => .after fun sel => ?_
    split
    · exact .pure (.inr fun z ts hz => .name rfl (w := ".") rfl (by decide) hz rfl)
    · exact .pure (.inl ⟨x, rfl⟩)
  case pointer =>
    exact .after fun _ => .after fun _ => .pure (.inr fun _ _ _ => .sign (w := "*") rfl (by decide))
  case array =>
    exact .after fun _ => .after fun _ => .after fun _ => .after fun _ =>
      .pure (.inr fun _ _ _ => .sign (w := "[") rfl (by decide))
  case map =>
    exact .after fun _ => .after fun _ => .after fun _ => .after fun _ =>
      .after fun _ =>
        .pure (.inr fun _ _ _ => .keyword (v := "map") rfl (by decide) (w := "[") rfl (by decide))
  case chan =>
    refine .after fun x => .after fun _ => .pure (.inr fun _ _ _ => ?_)
    rw [Expr.tokens]
    cases x.2 with
    | both | send => exact .chan rfl
    | receive => exact .sign (w := "<-") rfl (by decide)
  case struct =>
    exact .after fun _ => .after fun _ => .after fun _ => .after fun _ =>
      .pure (.inr fun _ _ _ => .keyword (v := "struct") rfl (by decide) (w := "\x7b") rfl
        (by decide))
  case interface =>
    exact .after fun _ => .after fun _ => .after fun _ => .after fun _ =>
      .pure (.inr fun _ _ _ => .keyword (v := "interface") rfl (by decide) (w := "\x7b") rfl
        (by decide))
  case func =>
    refine .after fun t => .pure (.inr fun _ _ _ => ?_)
    obtain ⟨funcPos, ⟨opening, params, closing⟩, results⟩ := t
    exact .keyword (v := "func") rfl (by decide) (w := "(") rfl (by decide)
  case paren =>
    exact .after fun _ => .after fun _ => .after fun _ =>
      .pure (.inr fun _ _ _ => .sign (w := "(") rfl (by decide))

/-! ### Expressions -/

theorem consumes_level (level : List (BinaryOp × String)) (hp : Meets b p Expr.tokens) :
    Meets b (chain p (operatorOf level) joinBinary) Expr.tokens :=
  .chain hp (consumes_operatorOf level) fun x o y => by simp [joinBinary]

theorem consumes_binaryExpr (hp : Meets b p Expr.tokens) : Meets b (binaryExpr p) Expr.tokens :=
  consumes_level _ (consumes_level _ (consumes_level _ (consumes_level _ (consumes_level _ hp))))

/-- The tokens of an operand behind an arrow: where the arrow makes a channel to receive from, the
position of the word is not kept. -/
def tokensBehindArrow : Expr → List Token
  | .chan _ .both value => loose "chan" :: value.tokens
  | e => e.tokens

theorem tokensBehindArrow_of_ne {e : Expr} (h : ∀ pos value, e ≠ .chan pos .both value) :
    tokensBehindArrow e = e.tokens := by
  unfold tokensBehindArrow
  split
  · exact absurd rfl (h _ _)
  · rfl

theorem consumes_behindArrow (hp : Meets b p Expr.tokens) : Meets b p tokensBehindArrow := by
  intro s x t hs hx
  obtain ⟨ts, ls, hcross, hleaves, us, hus, hbefore⟩ := hp s x t hs hx
  obtain rfl : us = x.tokens := hbefore
  by_cases hc : ∃ pos value, x = .chan pos .both value
  · obtain ⟨pos, value, rfl⟩ := hc
    rw [Expr.tokens, ChanDir.tokens, List.singleton_append] at hus
    obtain ⟨ts, rfl⟩ := List.head?_eq_some_iff.1 hus.head
    refine ⟨_, ls, ⟨hcross.trimmed, hcross.passes.loosen, hcross.trail⟩, ?_, _,
      .cons _ (hus.toOrders.of_cons (by simp [placed])), rfl⟩
    simpa [leavesOf, placed, loose] using hleaves
  · have hne : tokensBehindArrow x = x.tokens :=
      tokensBehindArrow_of_ne fun pos value h => hc ⟨pos, value, h⟩
    exact ⟨ts, ls, hcross, hleaves, _, hus, hne.symm⟩

def isArrow : Lead → Bool
  | .op .receive => true
  | _ => false

theorem tokens_applyLead (l : Pos × Lead) (x : Expr) :
    (applyLead l x).tokens = placed l.1 l.2.symbol ::
      if isArrow l.2 then tokensBehindArrow x else x.tokens := by
  unfold applyLead
  split
  case h_1 => rfl
  case h_2 => rfl
  case h_3 pos o hne =>
    cases o with
    | receive => simp [Expr.tokens, isArrow, Lead.symbol, tokensBehindArrow_of_ne fun pos value h =>
      hne pos value h rfl]
    | _ => rfl

theorem tokensBehindArrow_applyLead (l : Pos × Lead) (x : Expr) :
    tokensBehindArrow (applyLead l x) = (applyLead l x).tokens := by
  unfold applyLead
  split <;> rfl

theorem tokens_foldr_applyLead (before : List (Pos × Lead)) (x : Expr) :
    (before.foldr applyLead x).tokens = before.map (fun l => placed l.1 l.2.symbol) ++
      if before.getLast?.any (isArrow ·.2) then tokensBehindArrow x else x.tokens := by
  induction before with
  | nil => simp
  | cons l before ih =>
    rw [List.foldr_cons, tokens_applyLead]
    cases before with
    | nil => rfl
    | cons l' before =>
      -- what a lead has made is no channel that goes both ways
      have hmade : tokensBehindArrow ((l' :: before).foldr applyLead x) =
          ((l' :: before).foldr applyLead x).tokens :=
        tokensBehindArrow_applyLead _ _
      rw [hmade, ite_self, ih]
      simp

theorem consumes_leads : Meets b (many (tokenOf Lead.symbol leads <* blanks))
    fun ls => ls.flatMap fun l => [placed l.1 l.2.symbol] :=
  .many (consumes_tokenOf (.inl rfl) (by decide))

theorem consumes_unaryExpr (hp : Meets b p Expr.tokens) : Meets b (unaryExpr p) Expr.tokens := by
  refine .bind consumes_leads fun before => ?_
  have hx : Meets b p fun x =>
      if before.getLast?.any (isArrow ·.2) then tokensBehindArrow x else x.tokens := by
    split
    · exact consumes_behindArrow hp
    · exact hp
  exact .give hx (by simp [tokens_foldr_applyLead, List.map_eq_flatMap])

def Suffix.tokens : Suffix → List Token
  | .selector sel => [loose ".", sel.token]
  | .index lbrack i rbrack => placed lbrack "[" :: (i.tokens ++ [placed rbrack "]"])
  | .slice lbrack low high max rbrack =>
    placed lbrack "[" :: (tokensOfExpr? [] low ++ loose ":" :: (tokensOfExpr? [] high ++
      tokensOfExpr? [loose ":"] max ++ [placed rbrack "]"]))
  | .assertion lparen type rparen =>
    loose "." :: placed lparen "(" ::
      ((if type.isSome then [] else [loose "type"]) ++ tokensOfExpr? [] type ++ [placed rparen ")"])
  | .call lparen args dots rparen => placed lparen "(" ::
      (tokensOfExprs args ++ known dots "..." ++ [placed rparen ")"])
  | .elements e => e.tokens

attribute [local simp] Suffix.tokens

theorem Suffix.tokens_apply (x : Expr) (suf : Suffix) :
    (suf.apply x).tokens = x.tokens ++ suf.tokens := by
  cases suf <;>
    simp [Suffix.apply, Suffix.tokens, Expr.tokens, composite, Elements.tokens, tokensOfExpr?,
      tokensOfExprs_eq]

@[simp]
theorem Suffix.tokens_foldl (after : List Suffix) (x : Expr) :
    (after.foldl Suffix.apply x).tokens = x.tokens ++ after.flatMap Suffix.tokens := by
  induction after generalizing x with
  | nil => simp
  | cons suf after ih => simp [ih, Suffix.tokens_apply]

theorem consumes_known {p : Parser Pos} {n m : Nat} (h : Consumes b n m p [] fun a => [placed a w])
    (hp : ∀ {s t : Cursor} {a : Pos}, p s = some (a, t) → a = some s.offset ∧ Spells w s t) :
    Consumes b n m p [] fun a => known a w :=
  h.congr_of (P := fun a => a.isSome = true) (fun s a t ha => by simp [(hp ha).1])
    fun a ha => by simp [ha]

theorem consumes_known? {p : Parser Pos} (h : Meets b p fun a => known a w) :
    Meets b (optional p) fun o => known o.join w :=
  h.opt.congr_of (.any _) fun o _ => by cases o <;> simp [Token.known]

section Expressions

variable {g : Rules} (hg : g.Spelled b)

include hg

theorem consumes_block : Meets b (block g) Block.tokens :=
  .opening (opens_tokenNl (by simp)) fun _ => .bind (.sepEndBy hg.stmt spends_separator) fun _ =>
    consumes_close (by simp) (by simp)

theorem consumes_element : Meets b (element g) Expr.tokens :=
  .orElse (.give hg.elements (by simp)) hg.expr

theorem consumes_keyedElement : Meets b (keyedElement g) Expr.tokens := by
  have hvalue : Meets b (do return (← tokenNl ":", ← element g)) fun (x : Pos × Expr) =>
      placed x.1 ":" :: x.2.tokens :=
    .bind (consumes_tokenNl (by decide)) fun _ => .give (consumes_element hg) (by simp)
  refine .bind (consumes_element hg) fun key => .bind (.opt hvalue) fun value => ?_
  split
  · exact .pure (by simp)
  · exact .pure (by simp)

theorem consumes_elements : Meets b (elements g) Elements.tokens :=
  .opening (opens_tokenNl (by simp)) fun _ =>
    .bind (.sepEndBy (consumes_keyedElement hg) spends_comma) fun _ =>
    .skip spends_blanksNl fun _ => consumes_close (by simp) (by simp)

theorem consumes_funcLit : Meets b (funcLit g) Expr.tokens := by
  refine .bind (consumes_funcType hg) fun t => .bind (.opt (consumes_block hg)) fun body => ?_
  split
  · exact .pure (by simp)
  · exact .pure (by simp)

theorem consumes_literalType : Meets b (literalType g) Expr.tokens := by
  refine .bind (.orElse (consumes_arrayType hg)
    (.orElse (consumes_mapType hg) (consumes_structType hg))) fun t =>
    .bind (.opt hg.elements) fun x => ?_
  split
  · exact .pure (by simp)
  · exact .pure (by simp)

theorem consumes_parenExpr : Meets b (parenExpr g) Expr.tokens :=
  .opening (opens_tokenNl (by simp)) fun _ => .bind hg.expr fun _ => .skip spends_blanksNl fun _ =>
    consumes_close (by simp) (by simp)

theorem consumes_operand : Meets b (operand g) Expr.tokens :=
  .orElse (.give consumes_literal (by simp)) (.orElse (consumes_funcLit hg)
    (.orElse (consumes_literalType hg) (.orElse (consumes_chanType hg)
      (.orElse (consumes_interfaceType hg)
      (.orElse (.give consumes_ident (by simp)) (consumes_parenExpr hg))))))

theorem consumes_asked :
    Meets b ((do let _ ← keyword "type"; return none) <|> (do return some (← g.type)))
    fun t => (if t.isSome then [] else [loose "type"]) ++ tokensOfExpr? [] t :=
  .orElse (.give (consumes_looseKeyword (by decide)) (by simp)) (.give hg.type (by simp))

theorem consumes_suffix : Meets b (suffix g) Suffix.tokens := by
  refine .orElse ?assertion (.orElse ?selector (.orElse ?slice (.orElse ?index ?call)))
  case assertion =>
    refine .dot (fun _ _ _ h => (tokenNl_eq_some h).2) (fun _ s _ _ h => ?_) fun _ =>
      .opening (opens_token (by simp)) fun _ =>
      .bind (consumes_asked hg) fun _ => consumes_close (by simp) (by simp)
    obtain ⟨_, _, hp, -⟩ := bind_eq_some h
    obtain ⟨u, hr, -⟩ := (token_eq_some hp).2
    rw [hr]
    exact (Lex.stops_cons _ _ _).2 (by decide)
  case selector =>
    refine .dot (fun _ _ _ h => (tokenNl_eq_some h).2) (fun _ s _ _ h => ?_) fun _ =>
      .give consumes_ident (by simp)
    obtain ⟨_, _, hi, -⟩ := bind_eq_some h
    exact ident_stops hi
  case slice =>
    exact .opening (opens_tokenNl (by simp)) fun _ => .bind (.opt hg.expr) fun _ =>
      .bind (consumes_looseTokenNl (by decide)) fun _ => .bind (.opt hg.expr) fun _ =>
        .bind (.opt (.seqRight (consumes_looseTokenNl (by decide)) hg.expr)) fun _ =>
          consumes_close (by simp) (by simp)
  case index =>
    exact .opening (opens_tokenNl (by simp)) fun _ => .bind hg.expr fun _ =>
      consumes_close (by simp) (by simp)
  case call =>
    exact .opening (opens_tokenNl (by simp)) fun _ => .bind (.sepBy hg.expr spends_comma) fun _ =>
      .bind (consumes_known? (consumes_known (consumes_dots tokenNl_eq_some) tokenNl_eq_some))
        fun _ => .skip spends_comma.opt fun _ =>
        .skip spends_blanksNl fun _ => consumes_close (by simp) (by simp)

theorem consumes_primary : Meets b (primary g) Expr.tokens :=
  .bind (consumes_operand hg) fun _ =>
    .bind (.many (.orElse (consumes_suffix hg) (.give hg.elements (by simp)))) fun _ =>
      .pure (by simp)

theorem consumes_headerPrimary : Meets b (headerPrimary g) Expr.tokens :=
  .bind (consumes_operand hg) fun _ => .give (.many (consumes_suffix hg)) (by simp)

theorem consumes_expr : Meets b (expr g) Expr.tokens :=
  consumes_binaryExpr (consumes_unaryExpr (consumes_primary hg))

theorem consumes_headerExpr : Meets b (headerExpr g) Expr.tokens :=
  consumes_binaryExpr (consumes_unaryExpr (consumes_headerPrimary hg))

end Expressions

/-! ### Declarations and statements -/

theorem consumes_assignOp {blank : Char → Bool}
    (hb : blank = Lex.isBlank ∨ blank = Lex.isBlankOrNewline) (ops : List AssignOp) :
    Meets b (tokenOf AssignOp.symbol ops <* skip blank) fun x => [placed x.1 x.2.symbol] :=
  consumes_tokenOf hb fun op _ => by cases op <;> decide

theorem consumes_simpleStmt (hp : Meets b p Expr.tokens) : Meets b (simpleStmt p) Stmt.tokens := by
  have hlist : Meets b (sepBy1 p (tokenNl ",")) fun es => es.flatMap Expr.tokens :=
    .sepBy1 hp spends_comma
  refine .orElse ?assign (.orElse ?send (.orElse ?incDec ?expr))
  case assign =>
    exact .bind hlist fun _ => .bind (consumes_assignOp (.inr rfl) _) fun _ => .give hlist (by simp)
  case send =>
    exact .bind hp fun _ => .bind (consumes_tokenNl (by decide)) fun _ => .give hp (by simp)
  case incDec =>
    exact .bind hp fun _ => .give (consumes_tokenOf (.inl rfl) (by decide)) (by simp)
  case expr => exact .give hp (by simp)

section Statements

variable {g : Rules} (hg : g.Spelled b)

include hg

theorem consumes_exprList : Meets b (exprList g) fun es => es.flatMap Expr.tokens :=
  .sepBy1 hg.expr spends_comma

theorem consumes_valueSpec : Meets b (valueSpec g) Spec.tokens := by
  have hvalues : Meets b (tokenNl "=" *> exprList g) fun es =>
      loose "=" :: es.flatMap Expr.tokens :=
    .seqRight (consumes_looseTokenNl (by decide)) (consumes_exprList hg)
  have hsome : Yields (tokenNl "=" *> exprList g) fun es => es ≠ [] :=
    .bind (f := fun _ => exprList g) (.any _) fun _ _ => .after fun _ => .after fun _ =>
      .pure (by simp)
  refine .bind (.sepBy1 consumes_ident spends_comma) fun _ => .bind (.opt hg.type) fun _ =>
    .bind_of (n := 0) (.opt hvalues) (.opt hsome) fun values hne => .pure ?_
  cases values with
  | none => simp [Spec.tokens, tokensOfExpr?_eq, tokensOfExprs_eq, List.map_eq_flatMap]
  | some es => simp [Spec.tokens, tokensOfExpr?_eq, tokensOfExprs_eq, List.map_eq_flatMap,
    hne es rfl]

theorem consumes_typeSpec : Meets b (typeSpec g) Spec.tokens :=
  .bind consumes_ident fun _ =>
    .bind (consumes_known? (consumes_known (consumes_token (by decide)) token_eq_some)) fun _ =>
    .give hg.type (by simp)

omit hg in
theorem consumes_declOf {word : DeclWord} {spec : Parser Spec} (h : Meets b spec Spec.tokens) :
    Meets b (declOf word spec) GenDecl.tokens := by
  have hopen : Consumes b 0 1 (tokenNl "(") [] fun p => known p "(" :=
    consumes_known (opens_tokenNl (by simp)) tokenNl_eq_some
  have hclose : Consumes b 1 0 (token ")") [] fun p => known p ")" :=
    consumes_known (closes_token (by simp)) token_eq_some
  exact .bind (consumes_keyword (by cases word <;> decide)) fun _ =>
    .orElse (.opening hopen fun _ => .bind (.sepEndBy h spends_separator) fun _ =>
      .closing hclose fun _ => .pure (by simp))
      (.give h (by simp))

theorem consumes_genDecl : Meets b (genDecl g) GenDecl.tokens :=
  .orElse (consumes_declOf (consumes_valueSpec hg))
    (.orElse (consumes_declOf (consumes_valueSpec hg)) (consumes_declOf (consumes_typeSpec hg)))

theorem consumes_headerSimple : Meets b (headerSimple g) Stmt.tokens :=
  consumes_simpleStmt (consumes_headerExpr hg)

theorem consumes_headerInit : Meets b (optional (headerInit g)) (tokensOfStmt? []) :=
  (Consumes.opt (.seqLeft (consumes_headerSimple hg) spends_semicolon)).congr_of (.any _)
    fun s _ => by simp [tokensOfStmt?_eq]

theorem consumes_returnStmt : Meets b (returnStmt g) Stmt.tokens :=
  .bind (consumes_keyword (by decide)) fun _ => .bind (.opt (consumes_exprList hg)) fun results =>
    .pure (by cases results <;> simp [Stmt.tokens, tokensOfExprs_eq])

omit hg in
theorem consumes_jumpStmt : Meets b jumpStmt Stmt.tokens := by
  have hword : Meets b ([Jump.brk, .cont, .goto, .fallthrough].firstM fun jump => do
      return (← keyword jump.word, jump)) fun x => [placed x.1 x.2.word] :=
    Spends.firstM _ fun jump _ =>
      Consumes.give (consumes_keyword (by cases jump <;> decide)) (by simp)
  exact .bind hword fun _ => .give (.opt consumes_ident) (by simp [List.map_eq_flatMap])

theorem consumes_labeledStmt : Meets b (labeledStmt g) Stmt.tokens :=
  .bind consumes_ident fun _ => .bind consumes_labelColon fun _ => .give hg.stmt (by simp)

theorem consumes_blockStmt : Meets b (do return Stmt.block (← block g)) Stmt.tokens :=
  .give (consumes_block hg) (by simp)

theorem consumes_conditional : Meets b (conditional g) Stmt.tokens :=
  .bind (consumes_keyword (by decide)) fun _ => .bind (consumes_headerInit hg) fun _ =>
    .bind (consumes_headerExpr hg) fun _ => .bind (consumes_block hg) fun _ =>
      .bind (.opt (.seqRight (consumes_looseKeyword (by decide))
        (.orElse hg.conditional (consumes_blockStmt hg)))) fun _ => .pure (by simp)

omit hg in
theorem consumes_clauseColon : Meets b (token ":" <* blanksNl) fun p => [placed p ":"] :=
  .seqLeft (consumes_token (by decide)) spends_blanksNl

theorem consumes_clauseBody : Meets b (clauseBody g) tokensOfStmts :=
  (Consumes.sepEndBy hg.stmt spends_separator).congr_of (.any _)
    fun ss _ => by rw [tokensOfStmts_eq]

theorem consumes_caseClause : Meets b (caseClause g) Stmt.tokens := by
  have hsome : Yields (exprList g) fun es => es ≠ [] :=
    .after fun _ => .after fun _ => .pure (by simp)
  have hcase :
      Meets b ((do return (← keyword "case", ← exprList g)) <|>
        (do return (← keyword "default", []))) fun x =>
      placed x.1 (if x.2.isEmpty then "default" else "case") :: tokensOfExprs x.2 :=
    .orElse (.bind (consumes_keyword (by decide)) fun _ =>
      .bind_of (n := 0) (consumes_exprList hg) hsome fun es hne => .pure (by simp [hne]))
      (.give (consumes_keyword (by decide)) (by simp))
  exact .bind hcase fun _ => .bind consumes_clauseColon fun _ =>
    .give (consumes_clauseBody hg) (by simp)

theorem consumes_commClause : Meets b (commClause g) Stmt.tokens := by
  have hcase :
      Meets b ((do return (← keyword "case", some (← simple g))) <|>
        (do return (← keyword "default", none))) fun x =>
      placed x.1 (if x.2.isSome then "case" else "default") :: tokensOfStmt? [] x.2 :=
    .orElse (.bind (consumes_keyword (by decide)) fun _ =>
      .give (consumes_simpleStmt hg.expr) (by simp))
      (.give (consumes_keyword (by decide)) (by simp))
  exact .bind hcase fun _ => .bind consumes_clauseColon fun _ =>
    .give (consumes_clauseBody hg) (by simp)

omit hg in
theorem tokens_buildSwitch (switchPos : Pos) (init tag : Option Stmt) (body : Block)
    (ht : ∀ s ∈ tag, isTag s = true) :
    (buildSwitch switchPos init tag body).tokens =
      placed switchPos "switch" ::
      (tokensOfStmt? [] init ++ tokensOfStmt? [] tag ++ body.tokens) := by
  cases tag with
  | none => simp [buildSwitch, Stmt.tokens, tokensOfStmt?, tokensOfExpr?]
  | some s =>
    have hs := ht s rfl
    by_cases hg : isTypeGuard s = true
    · simp [buildSwitch, hg, Stmt.tokens, tokensOfStmt?]
    · cases s with
      | expr x => simp [buildSwitch, hg, Stmt.tokens, tokensOfStmt?, tokensOfExpr?]
      | _ => simp [isTag, hg] at hs

theorem consumes_switchStmt : Meets b (switchStmt g) Stmt.tokens := by
  have htag : Meets b (optional (do let tag ← headerSimple g; guard (isTag tag); return tag))
      (tokensOfStmt? []) := by
    refine (Consumes.opt (L := Stmt.tokens) ?_).congr_of (.any _) fun s _ => by simp
    exact .bind (consumes_headerSimple hg) fun _ => .skip (spends_guard _) fun _ => .pure (by simp)
  have hyields : Yields (optional (do let tag ← headerSimple g; guard (isTag tag); return tag))
      fun tag => ∀ s ∈ tag, isTag s = true :=
    .opt (.after fun _ => .bind .guarded fun _ h => .pure h)
  exact .bind (consumes_keyword (by decide)) fun _ => .bind (consumes_headerInit hg) fun _ =>
    .bind_of (n := 0) htag hyields fun tag ht => .opening (opens_tokenNl (by simp)) fun _ =>
      .bind (.many (consumes_caseClause hg)) fun _ => .closing (closes_token (by simp)) fun _ =>
        .pure (by simp [tokens_buildSwitch _ _ _ _ ht])

theorem consumes_selectStmt : Meets b (selectStmt g) Stmt.tokens :=
  .bind (consumes_keyword (by decide)) fun _ => .opening (opens_tokenNl (by simp)) fun _ =>
    .bind (.many (consumes_commClause hg)) fun _ => consumes_close (by simp) (by simp)

/-- The tokens of a loop before its body, but for the first one. -/
def headerTokens : Stmt → List Token
  | .forLoop _ init cond post _ => tokensOfStmt? [] init ++ tokensOfExpr? [] cond ++
      tokensOfStmt? [] post
  | .range _ key value opPos op x _ =>
    tokensOfExpr? [] key ++ tokensOfExpr? [] value ++
      op.toList.map (fun o => placed opPos o.symbol) ++ loose "range" :: x.tokens
  | _ => []

def loopTokens (close : Block → Stmt) : List Token := headerTokens (close ⟨none, [], none⟩)

attribute [local simp] headerTokens loopTokens

omit hg in
theorem loop_tokens (forPos : Pos) :
    Yields (rangeClause g forPos <|> forClause g forPos <|> whileClause g forPos)
    fun close => ∀ body, (close body).tokens = placed forPos "for" ::
      (loopTokens close ++ body.tokens) := by
  refine .orElse ?range (.orElse ?counted ?single)
  case range =>
    refine .after fun vars => .after fun _ => .after fun x => ?_
    split <;> exact .pure fun body => by simp
  case counted =>
    exact .after fun _ => .after fun _ => .after fun _ => .after fun _ =>
      .after fun _ => .pure fun body => by simp
  case single =>
    exact .after fun _ => .pure fun body => by simp

theorem consumes_rangeClause (forPos : Pos) : Meets b (rangeClause g forPos) loopTokens := by
  have hvars : Meets b (rangeVars g) fun x =>
      x.1.tokens ++ tokensOfExpr? [] x.2.1 ++ [placed x.2.2.1 x.2.2.2.symbol] :=
    .bind (consumes_headerExpr hg) fun _ =>
      .bind (.opt (.skip (f := fun _ => headerExpr g) spends_inlineComma fun _ =>
        consumes_headerExpr hg)) fun _ =>
        .give (consumes_assignOp (.inl rfl) _) (by simp)
  refine .bind (.opt hvars) fun vars => .bind (consumes_looseKeyword (by decide)) fun _ =>
    .bind (consumes_headerExpr hg) fun x => ?_
  split <;> exact .pure (by simp)

theorem consumes_forStmt : Meets b (forStmt g) Stmt.tokens := by
  refine .bind (consumes_keyword (by decide)) fun forPos => ?_
  have hfor : Meets b (forClause g forPos) loopTokens :=
    .bind (.opt (consumes_headerSimple hg)) fun _ => .skip spends_semicolon fun _ =>
      .bind (.opt (consumes_headerExpr hg)) fun _ => .skip spends_semicolon fun _ =>
        .bind (.opt (consumes_headerSimple hg)) fun _ => .pure (by
          simp [loopTokens, headerTokens, tokensOfStmt?_eq, tokensOfExpr?_eq])
  have hwhile : Meets b (whileClause g forPos) loopTokens :=
    .give (consumes_headerExpr hg) (by simp)
  have hclause :=
    Consumes.opt (Consumes.orElse (consumes_rangeClause hg forPos) (.orElse hfor hwhile))
  refine .bind_of (n := 0) hclause (.opt (loop_tokens forPos)) fun clause hc =>
    .bind (consumes_block hg) fun body => ?_
  split
  case h_1 close => exact .pure (by simp [hc close rfl body])
  case h_2 => exact .pure (by simp)

theorem consumes_stmt : Meets b (stmt g) Stmt.tokens := by
  have hgo : Meets b (goStmt g) Stmt.tokens :=
    .bind (consumes_keyword (by decide)) fun _ => .give hg.expr (by simp)
  have hdefer : Meets b (deferStmt g) Stmt.tokens :=
    .bind (consumes_keyword (by decide)) fun _ => .give hg.expr (by simp)
  exact .orElse (.give (consumes_genDecl hg) (by simp))
    (.orElse (consumes_returnStmt hg) (.orElse consumes_jumpStmt
      (.orElse hg.conditional (.orElse (consumes_switchStmt hg)
      (.orElse (consumes_selectStmt hg) (.orElse (consumes_forStmt hg) (.orElse hgo (.orElse hdefer
        (.orElse (consumes_blockStmt hg) (.orElse (consumes_labeledStmt hg)
          (consumes_simpleStmt hg.expr)))))))))))

theorem Rules.Spelled.next : g.next.Spelled b where
  expr := consumes_expr hg
  type := consumes_type hg
  stmt := consumes_stmt hg
  elements := consumes_elements hg
  conditional := consumes_conditional hg
  overtaking := overtaking_type g

end Statements

theorem rules_spelled (b : Bool) (depth : Nat) : (rules depth).Spelled b := by
  induction depth with
  | zero => exact ⟨.failure, .failure, .failure, .failure, .failure, fun _ _ _ h => nomatch h⟩
  | succ depth ih => exact ih.next

/-! ### Files -/

theorem consumes_funcDecl (hg : g.Spelled b) : Meets b (funcDecl g) FuncDecl.tokens := by
  refine .bind (consumes_keyword (by decide)) fun _ => .bind (.opt (consumes_params hg)) fun recv =>
    .bind consumes_ident fun name => .bind (consumes_signature hg _) fun t =>
      .bind (.opt (consumes_block hg)) fun body =>
      .pure ?_
  obtain ⟨funcPos, params, results⟩ := t
  simp [FuncDecl.tokens, FuncType.tokens]

theorem consumes_decl (hg : g.Spelled b) : Meets b (decl g) Decl.tokens :=
  .orElse (.give (consumes_funcDecl hg) (by simp)) (.give (consumes_genDecl hg) (by simp))

theorem ne_slash_of_lexer {k : Lex.Kind} (hk : k ∈ [Lex.Kind.word, .number, .string, .char])
    {cs r : List Char} (h : k.lexer cs = some (w.toList, r)) : w ≠ "/" := by
  rintro rfl
  obtain ⟨c, t, hc, ho, -⟩ := k.opens _ _ _ h
  obtain rfl : '/' = c := (List.cons.inj hc).1
  simp only [List.mem_cons, List.not_mem_nil, or_false] at hk
  rcases hk with rfl | rfl | rfl | rfl <;> revert ho <;> decide

/-- What stands in front of the declarations of a file has no slash among its tokens. Behind the
leaves `before` come those that complete the leaves of the value. -/
def Preludes {α : Type} (n m : Nat) (p : Parser α) (before : List Leaf) (after : α → List Leaf) :
    Prop :=
  Spends true n m p fun a ts ls => (∀ x ∈ ts, x.text ≠ "/") ∧ before ++ ls = after a

namespace Preludes

variable {α β : Type} {n m : Nat} {p : Parser α} {q : Parser β} {before : List Leaf}
  {L : α → List Leaf} {M : β → List Leaf}

theorem of_single {x : α → Token} (h : Consumes true n m p [] fun a => [x a])
    (hx : Yields p fun a => (x a).text ≠ "/") :
    Preludes n m p [] fun a => leavesOf [x a] := by
  intro s a t hs ha
  obtain ⟨ts, ls, hcross, rfl, rfl⟩ := h.single s a t hs ha
  exact ⟨_, _, hcross, by simpa using hx s a t ha, rfl⟩

theorem pure {a : α} (h : before = L a) : Preludes n n (Pure.pure a) before L :=
  Spends.pure ⟨by simp, by simpa using h⟩

theorem bind {i j : Nat} {f : α → Parser β} (h : Preludes i j p [] L)
    (hf : ∀ a, Preludes (n + j) m (f a) (before ++ L a) M) :
    Preludes (n + i) m (p >>= f) before M :=
  Spends.bind_of h (.any p) fun a _ _ _ hts => (hf a).mono fun _ _ _ hus =>
    ⟨List.forall_mem_append.2 ⟨hts.1, hus.1⟩, by simpa [← hts.2] using hus.2⟩

theorem skip {f : α → Parser β} (h : Spends true 0 0 p Spends.None)
    (hf : ∀ a, Preludes n m (f a) before M) :
    Preludes n m (p >>= f) before M :=
  Spends.skip h hf

theorem orElse {p' : Parser α} (h : Preludes n m p before L) (h' : Preludes n m p' before L) :
    Preludes n m (p <|> p') before L :=
  Spends.orElse h h'

theorem opt (h : Preludes 0 0 p [] L) : Preludes 0 0 (optional p) [] fun o => o.toList.flatMap L :=
  orElse (bind (n := 0) (f := fun a => Pure.pure (some a)) h fun a => pure (by simp))
    (pure (by simp))

theorem of_each {p : Parser (List α)}
    (h : Spends true 0 0 p (Each fun a ts ls => (∀ x ∈ ts, x.text ≠ "/") ∧ [] ++ ls = L a)) :
    Preludes 0 0 p [] fun as => as.flatMap L :=
  h.mono fun as ts ls hts => by
    induction hts with
    | nil => simp
    | cons hx _ ih => exact ⟨List.forall_mem_append.2 ⟨hx.1, ih.1⟩, by simpa [← hx.2] using ih.2⟩

theorem many (h : Preludes 0 0 p [] L) : Preludes 0 0 (many p) [] fun as => as.flatMap L :=
  of_each (Spends.many h)

theorem sepEndBy (h : Preludes 0 0 p [] L) (hq : Spends true 0 0 q Spends.None) :
    Preludes 0 0 (sepEndBy p q) [] fun as => as.flatMap L :=
  of_each (Spends.sepEndBy h hq)

end Preludes

theorem preludes_keyword (hw : w ∈ Lex.keywords ∧ w ≠ "/") :
    Preludes 0 0 (keyword w) [] fun _ => [] :=
  .of_single (consumes_keyword hw.1) fun _ _ _ _ => hw.2

theorem preludes_ident : Preludes 0 0 ident [] fun id => [id.leaf] :=
  .of_single consumes_ident fun s x t hx => by
    obtain ⟨-, -, r, hr, -⟩ := ident_eq_some hx
    exact ne_slash_of_lexer (k := .word) (by simp) hr

theorem preludes_literal : Preludes 0 0 literal [] fun l => [l.leaf] := by
  have hkind : ∀ {kind : List Char → LitKind} {k : Lex.Kind},
      k ∈ [Lex.Kind.number, .string, .char] →
      Preludes 0 0 (literalOf kind k.lexer) [] fun l => [l.leaf] := fun hk =>
    .of_single (consumes_literalOf hk) fun s l t hl => by
      obtain ⟨-, r, hr, -⟩ := literalOf_eq_some hl
      exact ne_slash_of_lexer (.tail _ hk) hr
  exact .orElse (hkind (k := .number) (by simp))
    (.orElse (hkind (k := .string) (by simp)) (hkind (k := .char) (by simp)))

/-- The dot of an import is a name, also where a digit follows it. -/
theorem preludes_importDot :
    Preludes 0 0 (do return { pos := ← token ".", name := "." } : Parser Ident) []
    fun id => [id.leaf] := by
  intro s id t hs ha
  obtain ⟨pos, hp, rfl⟩ := give_eq_some ha
  obtain ⟨rfl, v, hr, ho, hv⟩ := token_eq_some hp
  refine ⟨[.loose "."], _, hv.crosses (.sign (by decide) hs hr ho (by simp)) fun stop k ls hls =>
    ?_, by decide, rfl⟩
  obtain ⟨o, cs⟩ := s
  obtain ⟨o', r⟩ := v
  obtain rfl : cs = '.' :: r := hr
  obtain rfl : o' = o + 1 := ho
  exact .dot rfl hls

theorem preludes_importDecl :
    Preludes 0 0 importDecl [] fun specs => specs.flatMap ImportSpec.leaves := by
  have hspec : Preludes 0 0 importSpec [] ImportSpec.leaves :=
    .bind (n := 0) (.opt (.orElse preludes_importDot preludes_ident)) fun _ =>
      .bind (n := 0) preludes_literal fun _ =>
      .pure (by simp [ImportSpec.leaves, Expr.leaves, List.map_eq_flatMap])
  have hopen : Preludes 0 1 (tokenNl "(") [] fun _ => [] :=
    .of_single (opens_tokenNl (by simp)) fun _ _ _ _ => by simp
  have hclose : Preludes 1 0 (token ")") [] fun _ => [] :=
    .of_single (closes_token (by simp)) fun _ _ _ _ => by simp
  have hspecs : Preludes 0 1 (tokenNl "(" *> sepEndBy importSpec separator) [] fun specs =>
      specs.flatMap ImportSpec.leaves :=
    .bind (n := 0) (f := fun _ => sepEndBy importSpec separator) hopen fun _ =>
      (Preludes.sepEndBy hspec spends_separator).lift 1
  have hgroup : Preludes 0 0 (tokenNl "(" *> sepEndBy importSpec separator <* token ")") []
      fun specs => specs.flatMap ImportSpec.leaves :=
    .bind (n := 0) (f := fun specs => token ")" >>= fun _ => pure specs) hspecs fun _ =>
      .bind (n := 0) hclose fun _ => .pure (by simp)
  exact .bind (n := 0) (preludes_keyword (by decide)) fun _ =>
    .orElse hgroup (.bind (n := 0) hspec fun _ => .pure (by simp))

theorem spends_atEnd : Spends b 0 0 atEnd Spends.None := fun s a t hs ha => by
  obtain ⟨-, rfl⟩ := atEnd_eq_some ha
  exact ⟨[], [], .refl hs, rfl, rfl⟩

theorem file_rest {s t : Cursor} {f : File} (h : file g s = some (f, t)) : t.rest = [] := by
  obtain ⟨_, _, -, h⟩ := bind_eq_some h
  obtain ⟨_, _, -, h⟩ := bind_eq_some h
  obtain ⟨_, _, -, h⟩ := bind_eq_some h
  obtain ⟨_, _, -, h⟩ := bind_eq_some h
  obtain ⟨_, _, -, h⟩ := bind_eq_some h
  obtain ⟨_, _, -, h⟩ := bind_eq_some h
  obtain ⟨_, _, -, h⟩ := bind_eq_some h
  obtain ⟨_, hend, -⟩ := give_eq_some h
  obtain ⟨hr, rfl⟩ := atEnd_eq_some hend
  exact hr

/-- A file is read along the tokens of its declarations, behind others that hold no slash, to the
end of the text. -/
theorem file_crosses (hg : g.Spelled true) {s t : Cursor} {f : File} (h : file g s = some (f, t)) :
    ∃ front ts, Crosses true 0 0 s (front ++ ts)
      (f.name.leaf :: (f.imports.flatMap ImportSpec.leaves ++ leavesOf ts)) t ∧
      (∀ x ∈ front, x.text ≠ "/") ∧ Arranges ts (f.decls.flatMap Decl.tokens) := by
  have hbody : Spends true 0 0 (fileBody g) fun f ts ls => ∃ front us, ts = front ++ us ∧
        ls = f.name.leaf :: (f.imports.flatMap ImportSpec.leaves ++ leavesOf us) ∧
        (∀ x ∈ front, x.text ≠ "/") ∧ Arranges us (f.decls.flatMap Decl.tokens) := by
    have himports : Preludes 0 0 (separator *> importDecl) [] fun specs =>
        specs.flatMap ImportSpec.leaves :=
      .skip (f := fun _ => importDecl) spends_separator fun _ => preludes_importDecl
    have hdecls : Meets true (separator *> decl g) Decl.tokens :=
      .skip (f := fun _ => decl g) spends_separator fun _ => consumes_decl hg
    refine Spends.bind (preludes_keyword (by decide)) fun _ ts₁ ls₁ h₁ =>
      .bind preludes_ident fun name ts₂ ls₂ h₂ =>
      .bind (Preludes.many himports) fun imports ts₃ ls₃ h₃ =>
        .bind (Consumes.many hdecls) fun decls ts₄ ls₄ h₄ =>
        .skip spends_separator.opt fun _ => .skip spends_blanksNl fun _ =>
          .skip spends_atEnd fun _ => .pure ?_
    obtain ⟨rfl, us, hus, hdecls⟩ := h₄
    obtain rfl : ls₁ = [] := h₁.2
    obtain rfl : ls₂ = [name.leaf] := h₂.2
    obtain rfl : ls₃ = _ := h₃.2
    refine ⟨ts₁ ++ (ts₂ ++ ts₃), ts₄, by simp, ?_, ?_, by simpa [← hdecls] using hus⟩
    · simp [List.flatMap_def, List.flatten_flatten, Function.comp_def]
    · simp only [List.forall_mem_append]
      exact ⟨h₁.1, h₂.1, h₃.1⟩
  obtain ⟨⟨⟩, u, hu, h⟩ := bind_eq_some h
  have hskips : Skips s u := ⟨_, .inr rfl, hu⟩
  obtain ⟨_, _, hcross, front, us, rfl, rfl, hfront, hus⟩ := hbody u f t hskips.trimmed h
  have hlead : Crosses true 0 0 s [] [] u := hskips.crosses (.done s) fun _ _ _ h => h
  exact ⟨front, us, hlead.trans (n := 0) hcross, hfront, hus⟩

end GoFun.Grammar
