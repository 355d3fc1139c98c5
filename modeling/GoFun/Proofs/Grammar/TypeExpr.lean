import GoFun.Proofs.Grammar.Header
import GoFun.Proofs.Grammar.Shift

/-!
# Types read as expressions

The grammar of expressions reads a type as the same tree, with one exception: in `<-chan <-chan int`
the first arrow is taken as an operator, and then `chan <-` comes next and is a channel to send to.
A tree of this shape is `doubled`, and the grammar of expressions never gives one.
-/
namespace GoFun

open Parser Lex

/-- A channel to receive from. -/
def Expr.isReceive : Expr → Bool
  | .chan _ .receive _ => true
  | _ => false

/-- A channel to receive from whose values are such channels, behind stars and in parentheses,
too. -/
def Expr.doubled : Expr → Bool
  | .chan _ .receive value => value.isReceive
  | .star _ x | .paren _ x _ => x.doubled
  | _ => false

/-! ### Runs from a cursor -/

namespace Parser

variable {α β : Type} {p q : Parser α} {s t : Cursor} {a : α}

theorem orElse_some {x : α × Cursor} (h : p s = some x) : (p <|> q) s = some x := by
  rw [orElse_apply, h]
  rfl

theorem orElse_none (h : p s = none) : (p <|> q) s = q s := by
  rw [orElse_apply, h]
  rfl

theorem optional_none (h : p s = none) : optional p s = some (none, s) := by
  have hn : (some <$> p) s = none := bind_apply_none (fun a => pure (some a)) h
  exact orElse_none hn

theorem many_nil (h : p s = none) : many p s = some ([], s) := by
  rw [many, manyFrom, h]

end Parser

namespace Lex

/-- Where no line break comes next, the same is skipped whether line breaks are blanks or not. -/
theorem layout_isBlankOrNewline {cs : List Char} (h : Stops (· == '\n') (layout isBlank cs).2) :
    layout isBlankOrNewline cs = layout isBlank cs := by
  fun_induction layout isBlank cs with
  | case1 => simp [layout]
  | case2 c tail hc s rest hl ih =>
    rw [hl] at ih
    rw [layout_blank (by simp [isBlankOrNewline, hc]), ih h]
  | case3 c tail hc s rest hcm hlt t last hl ih =>
    rw [hl] at ih
    rw [layout_comment (by decide) hcm, ih h]
  | case4 c tail hc hcm =>
    have hn : c ≠ '\n' := by simpa using h
    exact layout_stop (by simp [isBlankOrNewline, hn, hc]) hcm

end Lex

namespace Grammar

variable {sym : String} {s t : Cursor} {p : Parser Expr} {x e : Expr}

theorem tokenNl_of_token {a : Pos} (h : token sym s = some (a, t)) (ht : Stops (· == '\n') t.rest) :
    tokenNl sym s = some (a, t) := by
  obtain ⟨x, u, hx, h⟩ := bind_eq_some h
  obtain ⟨rfl, hu⟩ := skip_eq_some h
  obtain ⟨-, rfl⟩ := result_inj hu
  rw [tokenNl, bind_apply _ hx]
  change some (some x.1, (⟨_, _⟩ : Cursor)) = _
  rw [layout_isBlankOrNewline ht]

/-- An operator in front is taken first and applied last. -/
theorem unaryExpr_cons {u : Cursor} {l : Pos × Lead}
    (hl : (tokenOf Lead.symbol leads <* blanks) s = some (l, u))
    (hlt : u.rest.length < s.rest.length) (hx : unaryExpr p u = some (x, t)) :
    unaryExpr p s = some (applyLead l x, t) := by
  obtain ⟨before, v, hb, hx⟩ := bind_eq_some hx
  obtain ⟨y, hy, rfl⟩ := give_eq_some hx
  have hfrom : manyFrom (tokenOf Lead.symbol leads <* blanks) u = (before, v) := Option.some.inj hb
  have hmany : many (tokenOf Lead.symbol leads <* blanks) s = some (l :: before, v) := by
    rw [many, manyFrom, hl]
    simp only [hlt, if_true, hfrom]
  rw [unaryExpr, bind_apply _ hmany, bind_apply _ hy]
  rfl

theorem unaryExpr_nil (hl : (tokenOf Lead.symbol leads <* blanks) s = none)
    (hx : p s = some (x, t)) :
    unaryExpr p s = some (x, t) := by
  rw [unaryExpr, bind_apply _ (many_nil hl), bind_apply _ hx]
  rfl

/-- What stands in front of an operand, one operator at a time. -/
theorem unaryExpr_cases (h : unaryExpr p s = some (e, t)) :
    ((tokenOf Lead.symbol leads <* blanks) s = none ∧ p s = some (e, t)) ∨
      ∃ l u x, (tokenOf Lead.symbol leads <* blanks) s = some (l, u) ∧
      u.rest.length < s.rest.length ∧
        unaryExpr p u = some (x, t) ∧ e = applyLead l x := by
  obtain ⟨before, v, hb, h⟩ := bind_eq_some h
  obtain ⟨y, hy, rfl⟩ := give_eq_some h
  have hfrom : manyFrom (tokenOf Lead.symbol leads <* blanks) s = (before, v) := Option.some.inj hb
  rw [manyFrom] at hfrom
  cases hl : (tokenOf Lead.symbol leads <* blanks) s with
  | none =>
    rw [hl] at hfrom
    obtain ⟨rfl, rfl⟩ := Prod.mk.inj hfrom
    exact .inl ⟨rfl, hy⟩
  | some x =>
    obtain ⟨l, u⟩ := x
    have hlt : u.rest.length < s.rest.length := by
      obtain ⟨x, u', hx, hu⟩ := bind_eq_some (f := fun a => blanks >>= fun _ => pure a) hl
      obtain ⟨rfl, hskip⟩ := skip_eq_some hu
      obtain ⟨-, -, hr, ho⟩ := tokenOf_eq_some hx
      exact Spells.length_lt ⟨u', hr, ho, _, .inl rfl, hskip⟩ l.2.symbol_ne_nil
    rw [hl] at hfrom
    simp only [hlt, if_true] at hfrom
    obtain ⟨rfl, rfl⟩ := Prod.mk.inj hfrom
    refine .inr ⟨l, u, _, rfl, hlt, ?_, rfl⟩
    rw [unaryExpr, bind_apply _ (show many _ u = some (_, _) from rfl), bind_apply _ hy]
    rfl

theorem binding_of_le {j : Nat} (h : binding p j s = some (e, t))
    (hops : ∀ level ∈ levels, operatorOf level t = none)
    {k : Nat} (hk : k ≤ j) : binding p k s = some (e, t) := by
  have hfold : ∀ ls : List (List (BinaryOp × String)), (∀ level ∈ ls, operatorOf level t = none) →
      ∀ p : Parser Expr,
      p s = some (e, t) → ls.foldl (fun p level => chain p (operatorOf level) joinBinary) p s =
        some (e, t) := by
    intro ls
    induction ls with
    | nil => exact fun _ _ hp => hp
    | cons level ls ih =>
      intro hls p hp
      refine ih (fun l hl => hls l (by simp [hl])) _ ?_
      have hround : (do return (← operatorOf level, ← p) : Parser _) t = none :=
        bind_apply_none _ (hls level (by simp))
      change chain p (operatorOf level) joinBinary s = _
      rw [chain, bind_apply _ hp, bind_apply _ (many_nil hround)]
      rfl
  rw [binding, show 6 - k = (6 - j) + (6 - k - (6 - j)) by omega, List.take_add, List.foldl_append]
  exact hfold _ (fun level hl => hops level (List.mem_of_mem_drop (List.mem_of_mem_take hl))) _ h

/-! ### Where a type ends -/

/-- The text is at its end or at a closing parenthesis. -/
def Shut (cs : List Char) : Prop := Lex.Stops (· != ')') cs

namespace Shut

variable {cs : List Char}

theorem stops (h : Shut cs) (chars : String) (hc : chars.toList.all (· != ')') = true) :
    Stops (chars.toList.contains ·) cs := h.mono fun c hm => of_contains hc c hm

theorem idle_tail (h : Shut cs) (n : Nat) {inHeader : Bool} :
    Idle (tail (rules n) inHeader) cs := by
  refine Grammar.idle_tail n (idle_suffix _ (h.stops ".[(" (by decide)))
    ((h.stops "\x7b" (by decide)).mono ?_)
  simp +contextual

theorem idle_elements (h : Shut cs) (n : Nat) : Idle (rules n).elements cs :=
  idle_rules_elements n ((h.stops "\x7b" (by decide)).mono (by simp +contextual))

theorem idle_block (h : Shut cs) (g : Rules) : Idle (block g) cs :=
  .bind (idle_tokenNl_of_stops (by decide) (h.stops "\x7b" (by decide)))

theorem idle_operators (h : Shut cs) : ∀ level ∈ levels, Idle (operatorOf level) cs := by
  intro level hlevel
  have hk : ∃ k, level = levelAt k := by
    have hall : ∀ level ∈ levels, ∃ k < 6, level = levelAt k := by decide
    obtain ⟨k, -, hk⟩ := hall level hlevel
    exact ⟨k, hk⟩
  obtain ⟨k, rfl⟩ := hk
  exact Grammar.idle_operators (h.stops "|&=!<>+-*/%^" (by decide)) k

end Shut

/-! ### Types that are operands -/

section Words

variable {g : Rules} {s t : Cursor} {w : String} {r : List Char} {e : Expr}

theorem lead_eq_none (h : Stops startsLead s.rest) :
    (tokenOf Lead.symbol leads <* blanks) s = none := idle_lead h s.offset

variable (h : word s.rest = some (w.toList, r))

include h

theorem lead_word : (tokenOf Lead.symbol leads <* blanks) s = none :=
  lead_eq_none (stops_of_word (fun c hc => contains_eq_false (by decide) c hc) h)

theorem keyword_ne {w' : String} (hne : w ≠ w') : keyword w' s = none :=
  idle_keyword_of_ne h (by rwa [String.ofList_toList]) s.offset

theorem ident_word (hw : w ∈ keywords) : ident s = none :=
  Option.eq_none_iff_forall_ne_some.2 fun x hx => by
  obtain ⟨-, hk, r', hr, -⟩ := ident_eq_some (show ident s = some (x.1, x.2) from hx)
  obtain ⟨hname, -⟩ := Prod.mk.inj (Option.some.inj (h.symm.trans hr))
  rw [String.toList_injective hname] at hw
  exact hk hw

theorem literal_word : literal s = none :=
  idle_literal (stops_of_word (fun _ hc => startsLiteral_of_startsWord hc) h) s.offset

theorem token_word {sym : String} (hsym : sym.toList.head?.any ("[<(*".toList.contains ·) = true) :
    token sym s = none :=
  idle_token (isPrefixOf_of_stops hsym (stops_of_word (fun c hc =>
    contains_eq_false (by decide) c hc) h)) s.offset

theorem tokenNl_word {sym : String}
    (hsym : sym.toList.head?.any ("[<(*".toList.contains ·) = true) : tokenNl sym s = none :=
  idle_tokenNl (isPrefixOf_of_stops hsym (stops_of_word (fun c hc =>
    contains_eq_false (by decide) c hc) h)) s.offset

theorem funcLit_word (hne : w ≠ "func") : funcLit g s = none :=
  bind_apply_none _ (bind_apply_none _ (keyword_ne h hne))

theorem arrayType_word : arrayType g s = none := bind_apply_none _ (tokenNl_word h (by decide))

theorem literalType_word (hmap : w ≠ "map") (hstruct : w ≠ "struct") : literalType g s = none := by
  have hmapType : mapType g s = none := bind_apply_none _ (keyword_ne h hmap)
  refine bind_apply_none _ ?_
  rw [orElse_none (arrayType_word h), orElse_none hmapType]
  exact bind_apply_none _ (keyword_ne h hstruct)

theorem chanType_word (hne : w ≠ "chan") : chanType g s = none := by
  have hchan := keyword_ne h hne
  have hseq : ∀ {p q : Parser Pos}, p s = none → (p <* q) s = none := fun {_ q} hp =>
    bind_apply_none (fun a => q >>= fun _ => pure a) hp
  refine bind_apply_none _ ?_
  rw [orElse_none (bind_apply_none _ (hseq hchan)), orElse_none (bind_apply_none _ hchan)]
  exact bind_apply_none _ (hseq (token_word h (by decide)))

end Words

section Operands

variable {n : Nat} {s t : Cursor} {e : Expr}
variable {g : Rules}

theorem literalType_of_type (ht : Shut t.rest)
    (h : (arrayType (rules n) <|> mapType (rules n) <|> structType (rules n)) s = some (e, t)) :
    literalType (rules n) s = some (e, t) := by
  rw [literalType, bind_apply _ h, bind_apply _ (optional_none (ht.idle_elements n t.offset))]
  rfl

theorem primaryOf_of_operand (ht : Shut t.rest) (h : operand (rules n) s = some (e, t)) :
    primaryOf (rules n) false s = some (e, t) := by
  rw [primaryOf, bind_apply _ h, bind_apply _ (many_nil (ht.idle_tail n t.offset))]
  rfl

theorem word_of_keyword {α : Type} {w : String} {f : Pos → Parser α} {x : α}
    (h : (keyword w >>= f) s = some (x, t)) :
    ∃ r, word s.rest = some (w.toList, r) := by
  obtain ⟨_, _, hkey, -⟩ := bind_eq_some h
  obtain ⟨-, r, hw, -⟩ := keyword_eq_some hkey
  exact ⟨r, hw⟩

theorem operand_word {w : String} {r : List Char} (hw : word s.rest = some (w.toList, r))
    (hne : w ≠ "func") :
    operand g s = (literalType g <|> chanType g <|> interfaceType g <|>
      (do return .ident (← ident)) <|> parenExpr g) s := by
  rw [operand, orElse_none (bind_apply_none _ (literal_word hw)), orElse_none (funcLit_word hw hne)]

theorem operand_ident {id : Ident} (h : ident s = some (id, t)) :
    operand g s = some (.ident id, t) := by
  obtain ⟨-, hk, r, hw, -⟩ := ident_eq_some h
  have hne : ∀ {w}, w ∈ keywords → id.name ≠ w := by
    rintro w hw rfl
    exact hk hw
  have hident : (do return .ident (← ident) : Parser Expr) s = some (.ident id, t) := by
    rw [bind_apply _ h]
    rfl
  have hinterface : interfaceType g s = none := bind_apply_none _ (keyword_ne hw (hne (by decide)))
  rw [operand_word hw (hne (by decide)),
    orElse_none (literalType_word hw (hne (by decide)) (hne (by decide))),
    orElse_none (chanType_word hw (hne (by decide))), orElse_none hinterface]
  exact orElse_some hident

theorem operand_map (ht : Shut t.rest) (h : mapType (rules n) s = some (e, t)) :
    operand (rules n) s = some (e, t) := by
  obtain ⟨r, hw⟩ := word_of_keyword h
  rw [operand_word hw (by decide)]
  exact orElse_some (literalType_of_type ht ((orElse_none (arrayType_word hw)).trans
    (orElse_some h)))

theorem operand_struct (ht : Shut t.rest) (h : structType (rules n) s = some (e, t)) :
    operand (rules n) s = some (e, t) := by
  obtain ⟨r, hw⟩ := word_of_keyword h
  have hmap : mapType (rules n) s = none := bind_apply_none _ (keyword_ne hw (by decide))
  rw [operand_word hw (by decide)]
  exact orElse_some (literalType_of_type ht
    ((orElse_none (arrayType_word hw)).trans ((orElse_none hmap).trans h)))

theorem operand_interface (h : interfaceType g s = some (e, t)) : operand g s = some (e, t) := by
  obtain ⟨r, hw⟩ := word_of_keyword h
  rw [operand_word hw (by decide),
    orElse_none (literalType_word hw (by decide) (by decide)),
      orElse_none (chanType_word hw (by decide))]
  exact orElse_some h

theorem operand_func {type : FuncType} (ht : Shut t.rest) (h : funcType g s = some (type, t)) :
    operand g s = some (.func type, t) := by
  obtain ⟨r, hw⟩ := word_of_keyword h
  have hfunc : funcLit g s = some (.func type, t) := by
    rw [funcLit, bind_apply _ h, bind_apply _ (optional_none (ht.idle_block g t.offset))]
    rfl
  rw [operand, orElse_none (bind_apply_none _ (literal_word hw))]
  exact orElse_some hfunc

theorem operand_array (ht : Shut t.rest) (h : arrayType (rules n) s = some (e, t)) :
    operand (rules n) s = some (e, t) := by
  obtain ⟨_, _, hbrack, -⟩ := bind_eq_some h
  obtain ⟨u, hr, -⟩ := (tokenNl_eq_some hbrack).2
  have hlit : Idle literal s.rest := idle_literal (by rw [hr]; simp; decide)
  have hfunc : Idle (keyword "func") s.rest := idle_keyword _ (by rw [hr]; simp; decide)
  have hfuncLit : funcLit (rules n) s = none :=
    bind_apply_none _ (bind_apply_none _ (hfunc s.offset))
  rw [operand, orElse_none (bind_apply_none _ (hlit s.offset)), orElse_none hfuncLit]
  exact orElse_some (literalType_of_type ht (orElse_some h))

theorem operand_chan {w : Cursor} {pos : Pos} (hkey : keyword "chan" s = some (pos, w))
    (h : chanType g s = some (e, t)) :
    operand g s = some (e, t) := by
  obtain ⟨-, r, hw, -⟩ := keyword_eq_some hkey
  rw [operand_word hw (by decide),
    orElse_none (literalType_word hw (by decide) (by decide))]
  exact orElse_some h

theorem operand_paren (h : parenExpr g s = some (e, t)) : operand g s = some (e, t) := by
  obtain ⟨_, _, hparen, -⟩ := bind_eq_some h
  obtain ⟨u, hr, -⟩ := (tokenNl_eq_some hparen).2
  have htype : OpensNoType s.rest := .of_stops (by rw [hr]; simp; decide)
  have hlit : Idle literal s.rest := idle_literal (by rw [hr]; simp; decide)
  have hident : Idle ident s.rest := idle_ident (by rw [hr]; simp; decide)
  rw [operand, orElse_none (bind_apply_none _ (hlit s.offset)),
    orElse_none (htype.idle_funcLit s.offset), orElse_none (htype.idle_literalType s.offset),
    orElse_none (htype.idle_chanType s.offset), orElse_none (htype.idle_interfaceType s.offset),
      orElse_none (bind_apply_none _ (hident s.offset))]
  exact h

end Operands

/-! ### Arrows -/

section Arrows

variable {g : Rules} {s t : Cursor} {e : Expr}

theorem lead_of_token {l : Lead} {pos : Pos} (h : token l.symbol s = some (pos, t)) :
    (tokenOf Lead.symbol leads <* blanks) s = some ((pos, l), t) := by
  obtain ⟨x, u, hx, h⟩ := bind_eq_some h
  obtain ⟨rfl, hskip⟩ := skip_eq_some h
  obtain ⟨o, cs⟩ := s
  obtain ⟨o', r⟩ := u
  obtain ⟨ho, hr, hu⟩ := text_eq_some hx
  obtain rfl : cs = l.symbol.toList ++ r := hr
  obtain rfl : o' = o + utf8Length l.symbol.toList := hu
  have htoken : tokenOf Lead.symbol leads ⟨o, l.symbol.toList ++ r⟩ =
      some ((some x.1, l), ⟨o + utf8Length l.symbol.toList, r⟩) := by
    rw [ho]
    cases l with
    | deref => rfl
    | op o => cases o <;> rfl
  have hblanks : blanks ⟨o + utf8Length l.symbol.toList, r⟩ = some ((), t) := hskip
  change (tokenOf Lead.symbol leads >>= fun a => blanks >>= fun _ => pure a) _ = _
  rw [bind_apply _ htoken, bind_apply _ hblanks]
  rfl

theorem arrow_of_head {c : Char} (hc : s.rest.head? = some c) (hne : c ≠ '<') :
    token "<-" s = none :=
  idle_token (isPrefixOf_eq_false (by decide) (by rw [hc]; simpa using hne.symm)) s.offset

theorem arrow_of_keyword {w : String} {pos : Pos} (h : keyword w s = some (pos, t)) :
    token "<-" s = none := by
  obtain ⟨-, r, hw, -⟩ := keyword_eq_some h
  exact token_word hw (by decide)

theorem chanDir_isReceive {x : Pos × ChanDir} (h : chanDir s = some (x, t)) :
    (x.2 = .receive ↔ (token "<-" s).isSome = true) := by
  rcases orElse_eq_some h with h | ⟨-, h⟩
  · obtain ⟨_, hx, rfl⟩ := give_eq_some h
    obtain ⟨_, _, hchan, -⟩ := bind_eq_some (f := fun a => token "<-" >>= fun _ => pure a) hx
    simp [arrow_of_keyword hchan]
  rcases orElse_eq_some h with h | ⟨-, h⟩
  · obtain ⟨_, hchan, rfl⟩ := give_eq_some h
    simp [arrow_of_keyword hchan]
  · obtain ⟨_, hx, rfl⟩ := give_eq_some h
    obtain ⟨_, _, harrow, -⟩ := bind_eq_some (f := fun a => keyword "chan" >>= fun _ => pure a) hx
    simp [harrow]

/-- Not doubled, and not doubled by one more arrow in front. -/
def Single (e : Expr) : Prop :=
  e.doubled = false ∧ ∀ pos value, e = .chan pos .both value → value.isReceive = false

/-- Types to which an arrow in front does nothing. -/
def Inert (e : Expr) : Prop := e.isReceive = false ∧ Single e

section Inert

variable {g : Rules}

theorem inert_arrayType : Yields (arrayType g) Inert :=
  .after fun _ => .after fun _ => .after fun _ => .after fun _ => .pure ⟨rfl, rfl, nofun⟩

theorem inert_mapType : Yields (mapType g) Inert :=
  .after fun _ => .after fun _ => .after fun _ => .after fun _ => .after fun _ =>
    .pure ⟨rfl, rfl, nofun⟩

theorem inert_structType : Yields (structType g) Inert :=
  .after fun _ => .after fun _ => .after fun _ => .after fun _ => .pure ⟨rfl, rfl, nofun⟩

theorem inert_interfaceType : Yields (interfaceType g) Inert :=
  .after fun _ => .after fun _ => .after fun _ => .after fun _ => .pure ⟨rfl, rfl, nofun⟩

end Inert

/-- A type that begins with an arrow is a channel to receive from, and no other type is. -/
theorem type_isReceive (h : type g s = some (e, t)) :
    (e.isReceive = true ↔ (token "<-" s).isSome = true) := by
  have hother : e.isReceive = false → token "<-" s = none →
      (e.isReceive = true ↔ (token "<-" s).isSome = true) := by
    intro he ha
    simp [he, ha]
  have hsign : ∀ {sym : String} {c : Char} {u : Cursor}, sym.toList = [c] → c ≠ '<' →
      Spells sym s u → token "<-" s = none := by
    rintro sym c u hc hne ⟨v, hr, -⟩
    exact arrow_of_head (by rw [hr, hc]; rfl) hne
  rcases orElse_eq_some h with h | ⟨-, h⟩
  · have hname : Yields typeName fun e => e.isReceive = false :=
      .after fun _ => .after fun sel => by cases sel <;> exact .pure rfl
    obtain ⟨x, _, hx, -⟩ := bind_eq_some h
    obtain ⟨-, -, r, hw, -⟩ := ident_eq_some hx
    exact hother (hname s e t h) (token_word hw (by decide))
  rcases orElse_eq_some h with h | ⟨-, h⟩
  · have hpointer : Yields (pointerType g) fun e => e.isReceive = false :=
      .after fun _ => .after fun _ => .pure rfl
    obtain ⟨_, _, hstar, -⟩ := bind_eq_some h
    exact hother (hpointer s e t h) (hsign rfl (by decide) (token_eq_some hstar).2)
  rcases orElse_eq_some h with h | ⟨-, h⟩
  · obtain ⟨_, _, hbrack, -⟩ := bind_eq_some h
    exact hother (inert_arrayType s e t h).1 (hsign rfl (by decide) (tokenNl_eq_some hbrack).2)
  rcases orElse_eq_some h with h | ⟨-, h⟩
  · obtain ⟨_, _, hkey, -⟩ := bind_eq_some h
    exact hother (inert_mapType s e t h).1 (arrow_of_keyword hkey)
  rcases orElse_eq_some h with h | ⟨-, h⟩
  · obtain ⟨⟨pos, dir⟩, _, hdir, h⟩ := bind_eq_some h
    obtain ⟨value, -, rfl⟩ := give_eq_some h
    rw [← chanDir_isReceive hdir]
    cases dir <;> simp [Expr.isReceive]
  rcases orElse_eq_some h with h | ⟨-, h⟩
  · obtain ⟨_, _, hkey, -⟩ := bind_eq_some h
    exact hother (inert_structType s e t h).1 (arrow_of_keyword hkey)
  rcases orElse_eq_some h with h | ⟨-, h⟩
  · obtain ⟨_, _, hkey, -⟩ := bind_eq_some h
    exact hother (inert_interfaceType s e t h).1 (arrow_of_keyword hkey)
  rcases orElse_eq_some h with h | ⟨-, h⟩
  · obtain ⟨_, htype, rfl⟩ := give_eq_some h
    obtain ⟨_, _, hkey, -⟩ := bind_eq_some htype
    exact hother rfl (arrow_of_keyword hkey)
  · have hparen : Yields (parenType g) fun e => e.isReceive = false :=
      .after fun _ => .after fun _ =>
      .after fun _ => .pure rfl
    obtain ⟨_, _, hopen, -⟩ := bind_eq_some h
    exact hother (hparen s e t h) (hsign rfl (by decide) (token_eq_some hopen).2)

end Arrows

section Types

variable {n : Nat} {s t : Cursor} {e : Expr}

theorem unaryExpr_typeName (ht : Shut t.rest) (h : typeName s = some (e, t)) :
    unaryExpr (primaryOf (rules n) false) s = some (e, t) := by
  obtain ⟨x, u, hx, h⟩ := bind_eq_some h
  obtain ⟨sel, v', hsel, h⟩ := bind_eq_some h
  obtain ⟨-, -, r, hw, -⟩ := ident_eq_some hx
  refine unaryExpr_nil (lead_word hw) ?_
  rcases optional_cases hsel with ⟨name, hname, rfl⟩ | ⟨rfl, rfl⟩
  · obtain ⟨rfl, rfl⟩ := result_inj h
    obtain ⟨dot, v, hdot, hname⟩ := bind_eq_some (f := fun _ => ident) hname
    obtain ⟨-, -, r', hw', -⟩ := ident_eq_some hname
    have hline : Stops (· == '\n') v.rest :=
      stops_of_word (fun c hc => Bool.eq_false_iff.2 fun hn => by
      rw [beq_iff_eq.1 hn] at hc
      exact absurd hc (by decide)) hw'
    have hdotNl := tokenNl_of_token hdot hline
    have hassertion : assertionSuffix (rules n) u = none := by
      rw [assertionSuffix, bind_apply _ hdotNl]
      exact bind_apply_none _ (token_word hw' (by decide))
    have hselector : selectorSuffix u = some (.selector name, v') := by
      rw [selectorSuffix, bind_apply _ hdotNl, bind_apply _ hname]
      rfl
    have htail : tail (rules n) false u = some (.selector name, v') :=
      orElse_some ((orElse_none hassertion).trans (orElse_some hselector))
    have hlt : v'.rest.length < u.rest.length := by
      have hlt := (token_eq_some hdot).2.length_lt (by decide)
      obtain ⟨_, -, -, hskips⟩ := (token_eq_some hdot).2
      have hle := (tidy_ident v name v' hskips.trimmed hname).2
      omega
    have hmany : many (tail (rules n) false) u = some ([.selector name], v') :=
      congrArg some ((Rounds.cons htail hlt (.nil v')).manyFrom_eq (ht.idle_tail n v'.offset))
    rw [primaryOf, bind_apply _ (operand_ident hx), bind_apply _ hmany]
    rfl
  · obtain ⟨rfl, rfl⟩ := result_inj h
    exact primaryOf_of_operand ht (operand_ident hx)

/-- In front of a channel type an arrow is an operator. It makes the type a channel to receive from,
unless another arrow comes after the word. -/
theorem unaryExpr_chanType (ht : Shut t.rest) (h : chanType (rules n) s = some (e, t))
    (he : e.doubled = false) :
    unaryExpr (primaryOf (rules n) false) s = some (e, t) := by
  have hword : ∀ {s : Cursor} {e : Expr} {pos : Pos} {w : Cursor},
      keyword "chan" s = some (pos, w) →
      chanType (rules n) s = some (e, t) →
        unaryExpr (primaryOf (rules n) false) s = some (e, t) := by
    intro s e pos w hkey h
    obtain ⟨-, r, hw, -⟩ := keyword_eq_some hkey
    exact unaryExpr_nil (lead_word hw) (primaryOf_of_operand ht (operand_chan hkey h))
  obtain ⟨dir, u, hdir, hvalue⟩ := bind_eq_some h
  rcases orElse_eq_some hdir with hsend | ⟨-, hdir⟩
  · obtain ⟨pos, _, hsend, -⟩ := bind_eq_some hsend
    obtain ⟨_, w, hkey, -⟩ := bind_eq_some (f := fun a => token "<-" >>= fun _ => pure a) hsend
    exact hword hkey h
  rcases orElse_eq_some hdir with hboth | ⟨-, hdir⟩
  · obtain ⟨pos, w, hkey, -⟩ := bind_eq_some hboth
    exact hword hkey h
  obtain ⟨pos, hreceive, rfl⟩ := give_eq_some hdir
  obtain ⟨_, s₁, harrow, hreceive⟩ :=
    bind_eq_some (f := fun a => keyword "chan" >>= fun _ => pure a) hreceive
  obtain ⟨wordPos, hkey, rfl⟩ := give_eq_some hreceive
  obtain ⟨value, htype, rfl⟩ := give_eq_some hvalue
  have hno : token "<-" u = none := by
    cases n with
    | zero => cases htype
    | succ n =>
      have hiff := type_isReceive (g := rules n) htype
      rw [show value.isReceive = false from he] at hiff
      simpa using hiff
  have hboth : chanDir s₁ = some ((wordPos, .both), u) := by
    have hsend : (keyword "chan" <* token "<-") s₁ = none := by
      change (keyword "chan" >>= fun a => token "<-" >>= fun _ => pure a) s₁ = none
      rw [bind_apply _ hkey]
      exact bind_apply_none _ hno
    rw [chanDir, orElse_none (bind_apply_none _ hsend)]
    refine orElse_some ?_
    rw [bind_apply _ hkey]
    rfl
  have hchan : chanType (rules n) s₁ = some (.chan wordPos .both value, t) := by
    change (chanDir >>= fun x => (rules n).type >>= fun value => pure (Expr.chan x.1 x.2 value))
      s₁ = _
    rw [bind_apply _ hboth, bind_apply _ htype]
    rfl
  exact unaryExpr_cons (lead_of_token (l := .op .receive) harrow)
    ((token_eq_some harrow).2.length_lt (by decide)) (hword hkey hchan)

theorem unaryExpr_parenType (ht : Shut t.rest) {s₁ t₁ : Cursor} {lparen rparen : Pos}
    (hopen : token "(" s = some (lparen, s₁)) (htype : (rules n).type s₁ = some (x, t₁))
    (hclose : token ")" t₁ = some (rparen, t)) (hx : (rules n).expr s₁ = some (x, t₁)) :
    unaryExpr (primaryOf (rules n) false) s = some (.paren lparen x rparen, t) := by
  have hline : Stops (· == '\n') s₁.rest := fun c hc => Bool.eq_false_iff.2 fun hn => by
    rw [beq_iff_eq.1 hn] at hc
    have hidle : Idle (rules n).type s₁.rest := idle_rules_type n fun d hd => by
      rw [Option.mem_def.1 hc] at hd
      rw [← Option.some.inj hd]
      decide
    rw [show (rules n).type s₁ = none from hidle s₁.offset] at htype
    cases htype
  have hskip : blanksNl t₁ = some ((), t₁) := by
    obtain ⟨o, cs⟩ := t₁
    obtain ⟨u, hr, -⟩ := (token_eq_some hclose).2
    obtain rfl : cs = ')' :: u.rest := hr
    change some ((), (⟨_, _⟩ : Cursor)) = _
    rw [layout_stop (by decide) (comment_eq_none (by decide))]
    rfl
  have hparen : parenExpr (rules n) s = some (.paren lparen x rparen, t) := by
    rw [parenExpr, bind_apply _ (tokenNl_of_token hopen hline), bind_apply _ hx, bind_apply _ hskip,
      bind_apply _ hclose]
    rfl
  refine unaryExpr_nil (lead_eq_none ?_) (primaryOf_of_operand ht (operand_paren hparen))
  obtain ⟨u, hr, -⟩ := (token_eq_some hopen).2
  rw [hr]
  exact (stops_cons _ _ _).2 (by decide)

/-- The grammar of expressions reads a type as the same tree, if it is not doubled. -/
theorem unaryExpr_of_type {bound : Nat} (hn : (rules n).Settled bound) (hle : s.rest.length ≤ bound)
    (h : type (rules n) s = some (e, t)) (he : e.doubled = false) (ht : Shut t.rest) :
    unaryExpr (primaryOf (rules n) false) s = some (e, t) := by
  induction hlen : s.rest.length using Nat.strongRecOn generalizing s t e with
  | _ len ih =>
    subst hlen
    -- a type that is an operand by itself, and begins with no operator
    have hoperand : Stops startsLead s.rest → operand (rules n) s = some (e, t) →
        unaryExpr (primaryOf (rules n) false) s = some (e, t) :=
      fun hl ho => unaryExpr_nil (lead_eq_none hl) (primaryOf_of_operand ht ho)
    have hword {α : Type} {w : String} {f : Pos → Parser α} {x : α}
      (h : (keyword w >>= f) s = some (x, t)) :
        Stops startsLead s.rest := by
      obtain ⟨r, hw⟩ := word_of_keyword h
      exact stops_of_word (fun c hc => contains_eq_false (by decide) c hc) hw
    rcases orElse_eq_some h with h | ⟨-, h⟩
    · exact unaryExpr_typeName ht h
    rcases orElse_eq_some h with h | ⟨-, h⟩
    · obtain ⟨star, s₁, hstar, h⟩ := bind_eq_some h
      obtain ⟨x, htype, rfl⟩ := give_eq_some h
      obtain ⟨hs₁, hlt⟩ := (token_eq_some hstar).2.tidy (by decide)
      rw [hn.type s₁ hs₁ (by omega)] at htype
      exact unaryExpr_cons (lead_of_token (l := .deref) hstar) hlt
        (ih _ hlt (by omega) htype he ht rfl)
    rcases orElse_eq_some h with h | ⟨-, h⟩
    · refine hoperand ?_ (operand_array ht h)
      obtain ⟨_, _, hbrack, -⟩ := bind_eq_some h
      obtain ⟨u, hr, -⟩ := (tokenNl_eq_some hbrack).2
      rw [hr]
      exact (stops_cons _ _ _).2 (by decide)
    rcases orElse_eq_some h with h | ⟨-, h⟩
    · exact hoperand (hword h) (operand_map ht h)
    rcases orElse_eq_some h with h | ⟨-, h⟩
    · exact unaryExpr_chanType ht h he
    rcases orElse_eq_some h with h | ⟨-, h⟩
    · exact hoperand (hword h) (operand_struct ht h)
    rcases orElse_eq_some h with h | ⟨-, h⟩
    · exact hoperand (hword h) (operand_interface h)
    rcases orElse_eq_some h with h | ⟨-, h⟩
    · obtain ⟨type, hfunc, rfl⟩ := give_eq_some h
      exact hoperand (hword hfunc) (operand_func ht hfunc)
    · obtain ⟨lparen, s₁, hopen, h⟩ := bind_eq_some h
      obtain ⟨x, t₁, htype, h⟩ := bind_eq_some h
      obtain ⟨rparen, hclose, rfl⟩ := give_eq_some h
      obtain ⟨hs₁, hlt⟩ := (token_eq_some hopen).2.tidy (by decide)
      have hshut : Shut t₁.rest := by
        obtain ⟨u, hr, -⟩ := (token_eq_some hclose).2
        rw [hr]
        exact (stops_cons _ _ _).2 (by decide)
      refine unaryExpr_parenType ht hopen htype hclose ?_
      rw [hn.type s₁ hs₁ (by omega)] at htype
      rw [hn.expr s₁ hs₁ (by omega), expr_eq_binding]
      exact binding_of_le (j := 6) (ih _ hlt (by omega) htype he hshut rfl)
        (fun level hl => hshut.idle_operators level hl t₁.offset) (Nat.zero_le 6)

end Types

/-! ### Expressions are not doubled -/

theorem Single.applyLead (h : Single e) (l : Pos × Lead) : Single (applyLead l e) := by
  unfold Grammar.applyLead
  split
  case h_1 => exact ⟨h.1, nofun⟩
  case h_2 value => exact ⟨h.2 _ value rfl, nofun⟩
  case h_3 => exact ⟨rfl, nofun⟩

theorem single_apply (x : Expr) (suf : Suffix) : Single (suf.apply x) := by
  cases suf <;> exact ⟨rfl, nofun⟩

section Singles

variable {n : Nat} {s t : Cursor} {e : Expr}

/-- Behind the word of a channel that goes both ways no arrow comes next: it would make it a channel
to send to. -/
theorem single_chanType (hs : token "<-" s = none) (h : chanType (rules n) s = some (e, t)) :
    Single e := by
  obtain ⟨⟨pos, dir⟩, u, hdir, h⟩ := bind_eq_some h
  obtain ⟨value, htype, rfl⟩ := give_eq_some h
  rcases orElse_eq_some hdir with hsend | ⟨hsend, hdir⟩
  · obtain ⟨_, -, hx⟩ := give_eq_some hsend
    obtain ⟨-, rfl⟩ := Prod.mk.inj hx
    exact ⟨rfl, nofun⟩
  rcases orElse_eq_some hdir with hboth | ⟨-, hdir⟩
  · obtain ⟨word, hkey, hx⟩ := give_eq_some hboth
    obtain ⟨rfl, rfl⟩ := Prod.mk.inj hx
    refine ⟨rfl, ?_⟩
    rintro _ _ ⟨⟩
    have hno : token "<-" u = none := by
      cases harrow : token "<-" u with
      | none => rfl
      | some x =>
        rw [bind_apply _ (show (keyword "chan" <* token "<-") s = some (word, x.2) by
          change (keyword "chan" >>= fun a => token "<-" >>= fun _ => pure a) s = _
          rw [bind_apply _ hkey, bind_apply _ harrow]
          rfl)] at hsend
        cases hsend
    cases n with
    | zero => cases htype
    | succ n =>
      have hiff := type_isReceive (g := rules n) htype
      rw [hno] at hiff
      simpa using hiff
  · obtain ⟨_, _, hreceive, -⟩ := bind_eq_some hdir
    obtain ⟨_, _, harrow, -⟩ :=
      bind_eq_some (f := fun a => keyword "chan" >>= fun _ => pure a) hreceive
    rw [hs] at harrow
    cases harrow

theorem single_operand (hexpr : Yields (rules n).expr fun e => e.doubled = false)
    (hs : token "<-" s = none) (h : operand (rules n) s = some (e, t)) : Single e := by
  rcases orElse_eq_some h with h | ⟨-, h⟩
  · obtain ⟨_, -, rfl⟩ := give_eq_some h
    exact ⟨rfl, nofun⟩
  rcases orElse_eq_some h with h | ⟨-, h⟩
  · have hfunc : Yields (funcLit (rules n)) Single :=
      .after fun _ => .after fun body => by cases body <;> exact .pure ⟨rfl, nofun⟩
    exact hfunc s e t h
  rcases orElse_eq_some h with h | ⟨-, h⟩
  · have hliteral : Yields (literalType (rules n)) Single :=
      .bind (.orElse inert_arrayType (.orElse inert_mapType inert_structType)) fun type htype =>
        .after fun elems => by
        cases elems
        · exact .pure htype.2
        · exact .pure ⟨rfl, nofun⟩
    exact hliteral s e t h
  rcases orElse_eq_some h with h | ⟨-, h⟩
  · exact single_chanType hs h
  rcases orElse_eq_some h with h | ⟨-, h⟩
  · exact (inert_interfaceType s e t h).2
  rcases orElse_eq_some h with h | ⟨-, h⟩
  · obtain ⟨_, -, rfl⟩ := give_eq_some h
    exact ⟨rfl, nofun⟩
  · have hparen : Yields (parenExpr (rules n)) Single := .after fun _ => .bind hexpr fun x hx =>
      .after fun _ => .after fun _ => .pure ⟨hx, nofun⟩
    exact hparen s e t h

theorem single_unaryExpr (hexpr : Yields (rules n).expr fun e => e.doubled = false)
    (h : unaryExpr (primaryOf (rules n) false) s = some (e, t)) : Single e := by
  induction hlen : s.rest.length using Nat.strongRecOn generalizing s e with
  | _ len ih =>
    subst hlen
    rcases unaryExpr_cases h with ⟨hl, h⟩ | ⟨l, u, x, -, hlt, hx, rfl⟩
    · -- an arrow would have been taken as an operator
      have hs : token "<-" s = none := by
        cases harrow : token "<-" s with
        | none => rfl
        | some x =>
          obtain ⟨pos, v⟩ := x
          rw [lead_of_token (l := .op .receive) harrow] at hl
          cases hl
      obtain ⟨x, u, hx, h⟩ := bind_eq_some h
      obtain ⟨after, -, rfl⟩ := give_eq_some h
      rcases List.eq_nil_or_concat after with rfl | ⟨before, suf, rfl⟩
      · exact single_operand hexpr hs hx
      · rw [List.concat_eq_append, List.foldl_append]
        exact single_apply _ suf
    · exact (ih _ hlt hx rfl).applyLead l

theorem yields_expr_single (n : Nat) : Yields (rules n).expr fun e => e.doubled = false := by
  induction n with
  | zero => exact .failure
  | succ n ih =>
    have hunary : Yields (unaryExpr (primary (rules n))) fun e => e.doubled = false :=
      fun s e t h => (single_unaryExpr ih h).1
    have hlevel : ∀ (level : List (BinaryOp × String)) {p : Parser Expr},
        Yields p (fun e => e.doubled = false) →
        Yields (chain p (operatorOf level) joinBinary) fun e => e.doubled = false :=
      fun level p hp => .chain hp (.any _) (fun _ h => h) fun _ _ _ _ _ _ => rfl
    exact hlevel _ (hlevel _ (hlevel _ (hlevel _ (hlevel _ hunary))))

end Singles

end Grammar

end GoFun
