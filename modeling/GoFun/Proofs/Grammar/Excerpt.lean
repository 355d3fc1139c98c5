import GoFun.Proofs.Grammar.Cut
import GoFun.Proofs.Grammar.TypeExpr
import GoFun.Proofs.Grammar.Widen

/-!
# Excerpts

An expression is often read as the beginning of a longer one. `Origin` says how an expression or a
type was read from one place of a text up to another one. However it was read, its own part of the
text spells it alone, too, unless it is a doubled channel type.
-/
namespace GoFun

open Parser Grammar
open Movable (move)

variable {s t : Cursor} {n : Nat}
variable {α β : Type} {p : Parser α} {a : α} {q : Parser β}

/-- The expression that a whole text spells. -/
def Grammar.parseExpr? (text : String) : Option Expr :=
  let cs := text.toList
  (((rules (depthFor cs)).expr <* atEnd).run ⟨0, cs⟩).map Prod.fst

theorem Grammar.run_atEnd_eq_some {cs : List Char} :
    ((p <* atEnd).run ⟨0, cs⟩).map Prod.fst = some a ↔ ∃ v, p ⟨0, cs⟩ = some (a, v) ∧
    v.rest = [] := by
  constructor
  · intro h
    obtain ⟨⟨_, w⟩, hrun, rfl⟩ := Option.map_eq_some_iff.1 h
    obtain ⟨b, v, hb, hrun⟩ := bind_eq_some (f := fun a => atEnd >>= fun _ => pure a) hrun
    obtain ⟨_, hend, rfl⟩ := give_eq_some hrun
    refine ⟨v, hb, ?_⟩
    unfold atEnd at hend
    split at hend
    · exact List.isEmpty_iff.1 ‹_›
    · cases hend
  · rintro ⟨v, hv, hend⟩
    have hatEnd : atEnd v = some ((), v) := by rw [atEnd, hend]; rfl
    have hrun : (p <* atEnd) ⟨0, cs⟩ = some (a, v) := by
      change (p >>= fun a => atEnd >>= fun _ => pure a) _ = _
      rw [bind_apply _ hv, bind_apply _ hatEnd]
      rfl
    exact congrArg (Option.map Prod.fst) hrun

theorem Rounds.length_le {bs : List β} (h : Rounds q s bs t) : t.rest.length ≤ s.rest.length := by
  induction h with
  | nil => exact Nat.le_refl _
  | cons _ takes _ ih => omega

section Follow

variable {α β : Type} [Movable α] [Movable β] {S : Lockstep} {take bound : Nat} {c c' : Bool}
  {p p' : Parser α} {q q' : Parser β} {u u' v : Cursor} {a : α}

theorem Tracks.follow (h : Tracks S 0 take bound 0 0 c p p') (hat : S.At 0 u u') (hu : Trimmed u)
    (hlt : u'.rest.length < bound) (ha : p u = some (a, v)) (hv : S.left ≤ v.rest.length) :
    ∃ v', p' u' = some (move S.shift a, v') ∧ S.At 0 v v' := by
  have hrun := h.runs hat hu hlt
  rw [ha] at hrun
  rcases hrun with hrun | ⟨⟨-, hpast⟩, -⟩
  · exact hrun
  · omega

theorem Tracks.follow_rounds (h : Tracks S 0 1 bound 0 0 c q q') {bs : List β}
    (hr : Rounds q u bs v) (hat : S.At 0 u u') (hu : Trimmed u) (hlt : u'.rest.length < bound)
    (hv : S.left ≤ v.rest.length) :
    ∃ v', Rounds q' u' (bs.map (move S.shift)) v' ∧ S.At 0 v v' := by
  induction hr generalizing u' with
  | nil => exact ⟨u', .nil u', hat⟩
  | cons first takes others ih =>
    have hle := others.length_le
    obtain ⟨t', hq, ht⟩ := h.follow hat hu hlt first (by omega)
    have htakes := (S.shorter hat ht).1 takes
    obtain ⟨v', hr, hv'⟩ := ih ht (h.tidy hu first).1 (by omega) hv
    exact ⟨v', .cons hq htakes hr, hv'⟩

theorem Begins.follow {f : α → β → α} (h : Begins p q f u a v)
    (hp : Tracks S 0 1 (bound + 1) 0 0 c p p') (hq : Tracks S 0 1 bound 0 0 c' q q')
    (hf : ∀ x b, move S.shift (f x b) = f (move S.shift x) (move S.shift b)) (hat : S.At 0 u u')
    (hu : Trimmed u) (hlt : u'.rest.length < bound + 1) (hv : S.left ≤ v.rest.length) :
    ∃ v', Begins p' q' f u' (move S.shift a) v' ∧ S.At 0 v v' := by
  obtain ⟨x, t, bs, hx, hr, rfl⟩ := h
  have hle := hr.length_le
  obtain ⟨ht, htake⟩ := hp.tidy hu hx
  obtain ⟨t', hx', ht'⟩ := hp.follow hat hu hlt hx (by omega)
  obtain ⟨v', hr', hv'⟩ := hq.follow_rounds hr ht' ht (Tracks.step_lt hat ht' htake hlt) hv
  refine ⟨v', ⟨_, t', _, hx', hr', ?_⟩, hv'⟩
  clear hx hr hx' hr' hle htake
  induction bs generalizing x with
  | nil => rfl
  | cons b bs ih => rw [List.foldl_cons, ih, hf]; rfl

end Follow

theorem Begins.many_eq {f : α → β → α} (h : Begins p q f s a t) (hq : q t = none) :
    (p >>= fun x => many q >>= fun bs => pure (bs.foldl f x)) s = some (a, t) := by
  obtain ⟨x, u, bs, hx, hr, rfl⟩ := h
  have hmany : many q u = some (bs, t) := congrArg some (hr.manyFrom_eq hq)
  rw [bind_apply _ hx, bind_apply _ hmany]
  rfl

/-- Where the first run stands behind the cut, the second one stands at the end of its text. -/
theorem cut_end {o : Nat} {w v' : Cursor} {hw : blanks w = some ((), t)}
    (h : (cut o w t hw).At n t v') :
    v'.rest = [] := by
  rcases h with h | ⟨-, -, h⟩
  · have hlt := h.way.length_lt
    have hle : t.rest.length ≤ w.rest.length := Skips.length_le ⟨_, .inl rfl, hw⟩
    omega
  · exact h

@[simp] theorem Expr.isReceive_move (f : Nat → Nat) (e : Expr) :
    (e.move f).isReceive = e.isReceive := by
  cases e <;> first | rfl | (rename_i dir _; cases dir <;> rfl)

@[simp] theorem Expr.doubled_move (f : Nat → Nat) (e : Expr) : (e.move f).doubled = e.doubled := by
  fun_induction Expr.doubled e with
  | case1 pos value => simp [Expr.move, Expr.doubled]
  | case2 star x ih => exact ih
  | case3 lparen x rparen ih => exact ih
  | case4 e hchan hstar hparen =>
    cases e with
    | chan pos dir value => cases dir <;> first | rfl | exact absurd rfl (hchan pos value)
    | star star x => exact absurd rfl (hstar star x)
    | paren lparen x rparen => exact absurd rfl (hparen lparen x rparen)
    | _ => rfl

namespace Grammar

variable {g : Rules}
variable {k : Nat}

/-- How an expression or a type was read from `u` up to `t`. -/
inductive Origin (g : Rules) (u t : Cursor) (e : Expr) : Prop
  | level (inHeader : Bool) {k : Nat} (hk : 0 < k) (hk' : k < 6)
      (h : Begins (binding (primaryOf g inHeader) (k + 1)) (step g inHeader k)
      (fun x st => joinBinary x st.1 st.2) u e t)
  | unary (inHeader : Bool) (h : unaryExpr (primaryOf g inHeader) u = some (e, t))
  | primary (inHeader : Bool) (hl : (tokenOf Lead.symbol leads <* blanks) u = none)
      (h : Begins (operand g) (tail g inHeader) Suffix.apply u e t)
  | type (h : type g u = some (e, t))

section Origins

variable {u t : Cursor} {e : Expr}

theorem Origin.of_binding {inHeader : Bool} (h : binding (primaryOf g inHeader) k u = some (e, t)) :
    Origin g u t e := by
  have hlevel : ∀ k, 0 < k → k < 6 → binding (primaryOf g inHeader) k u = some (e, t) →
      Origin g u t e := by
    intro k hk hk' h
    rw [binding_eq_chain _ hk hk'] at h
    exact .level inHeader hk hk' (.of_many h)
  rcases Nat.eq_zero_or_pos k with rfl | hk
  · exact hlevel 1 (by omega) (by omega) h
  by_cases hk' : k < 6
  · exact hlevel k hk hk' h
  · rw [binding, show 6 - k = 0 by omega] at h
    exact .unary inHeader h

theorem Origin.of_ident {id : Ident} (h : ident u = some (id, t)) : Origin g u t (.ident id) := by
  obtain ⟨-, -, r, hw, -⟩ := ident_eq_some h
  exact .primary false (lead_word hw) ⟨_, t, [], operand_ident h, .nil t, rfl⟩

theorem Origin.of_literal {l : Literal} (h : literal u = some (l, t)) : Origin g u t (.lit l) := by
  refine .primary false ?_ ⟨_, t, [], orElse_some (by rw [bind_apply _ h]; rfl), .nil t, rfl⟩
  -- no literal begins like an operator
  cases hl : (tokenOf Lead.symbol leads <* blanks) u with
  | none => rfl
  | some x =>
    obtain ⟨y, v, hy, -⟩ := bind_eq_some (f := fun a => blanks >>= fun _ => pure a) hl
    obtain ⟨-, -, hr, -⟩ := tokenOf_eq_some hy
    obtain ⟨c, r, hc, hstarts⟩ : ∃ c r, y.2.symbol.toList = c :: r ∧
        Lex.startsLiteral c = false := by
      cases y.2 with
      | deref => exact ⟨'*', [], rfl, by decide⟩
      | op o => cases o <;> exact ⟨_, _, rfl, by decide⟩
    have hidle : Idle literal u.rest :=
      idle_literal (by rw [hr, hc]; exact (Lex.stops_cons _ _ _).2 hstarts)
    rw [show literal u = none from hidle u.offset] at h
    cases h

theorem Origin.of_literalType (h : (arrayType g <|> mapType g <|> structType g) u = some (e, t)) :
    Origin g u t e := by
  refine .type ?_
  -- no other type begins like these ones
  have hword : ∀ {w : String} {pos : Pos} {v : Cursor}, keyword w u = some (pos, v) →
      w ∈ Lex.keywords → w ≠ "chan" →
      typeName u = none ∧ pointerType g u = none ∧ chanType g u = none := by
    intro w pos v hkey hw hne
    obtain ⟨-, r, hr, -⟩ := keyword_eq_some hkey
    exact ⟨bind_apply_none _ (ident_word hr hw), bind_apply_none _ (token_word hr (by decide)),
      chanType_word hr hne⟩
  rcases orElse_eq_some h with harray | ⟨harray, h⟩
  · obtain ⟨_, _, hbrack, -⟩ := bind_eq_some harray
    obtain ⟨v, hr, -⟩ := (tokenNl_eq_some hbrack).2
    have hident : Idle ident u.rest := idle_ident (by rw [hr]; simp; decide)
    have hstar : Idle (token "*") u.rest :=
      idle_token (isPrefixOf_eq_false (by decide) (by rw [hr]; simp))
    have hname : typeName u = none := bind_apply_none _ (hident u.offset)
    have hpointer : pointerType g u = none := bind_apply_none _ (hstar u.offset)
    rw [Grammar.type, orElse_none hname, orElse_none hpointer]
    exact orElse_some harray
  rcases orElse_eq_some h with hmap | ⟨hmap, hstruct⟩
  · obtain ⟨_, _, hkey, -⟩ := bind_eq_some hmap
    obtain ⟨hname, hpointer, -⟩ := hword hkey (by decide) (by decide)
    rw [Grammar.type, orElse_none hname, orElse_none hpointer, orElse_none harray]
    exact orElse_some hmap
  · obtain ⟨_, _, hkey, -⟩ := bind_eq_some hstruct
    obtain ⟨hname, hpointer, hchan⟩ := hword hkey (by decide) (by decide)
    rw [Grammar.type, orElse_none hname, orElse_none hpointer, orElse_none harray, orElse_none hmap,
      orElse_none hchan]
    exact orElse_some hstruct

theorem Origin.of_funcType {type : FuncType} (h : funcType g u = some (type, t)) :
    Origin g u t (.func type) := by
  obtain ⟨_, _, hkey, -⟩ := bind_eq_some h
  obtain ⟨-, r, hw, -⟩ := keyword_eq_some hkey
  have hother : ∀ {w : String} {p : Pos → Parser Expr}, "func" ≠ w → (keyword w >>= p) u = none :=
    fun hne => bind_apply_none _ (keyword_ne hw hne)
  have hname : typeName u = none := bind_apply_none _ (ident_word hw (by decide))
  have hpointer : pointerType g u = none := bind_apply_none _ (token_word hw (by decide))
  have hmap : mapType g u = none := hother (by decide)
  have hstruct : structType g u = none := hother (by decide)
  have hinterface : interfaceType g u = none := hother (by decide)
  refine .type ?_
  rw [Grammar.type, orElse_none hname, orElse_none hpointer, orElse_none (arrayType_word hw),
    orElse_none hmap, orElse_none (chanType_word hw (by decide)), orElse_none hstruct,
    orElse_none hinterface]
  exact orElse_some (by rw [bind_apply _ h]; rfl)

theorem Origin.start (h : Origin g u t e) : e.start = some u.offset := by
  cases h with
  | level inHeader hk hk' h => exact h.start (starts_binding g inHeader _) fun _ _ => rfl
  | unary inHeader h => exact starts_binding g inHeader 6 u e t h
  | primary inHeader hl h => exact start_primary g h
  | type h => exact starts_type g u e t h

theorem Origin.stretch (h : Origin g u t e) (hg : g.Spanned) (hu : Trimmed u) :
    Stretch 0 u t e.stop := by
  cases h with
  | level inHeader hk hk' h => exact stretch_level hg hu (spans_binding hg inHeader _) h
  | unary inHeader h => exact spans_unaryExpr hg inHeader u e t hu h
  | primary inHeader hl h => exact stretch_primary hg hu h
  | type h => exact spans_type hg u e t hu h

end Origins

theorem shut_nil : Shut [] := Lex.stops_nil _

theorem expr_of_binding {inHeader : Bool} {v : Cursor} {e : Expr} (hv : v.rest = [])
    (h : binding (primaryOf (rules n) inHeader) k s = some (e, v)) :
    expr (rules n) s = some (e, v) := by
  have hops : ∀ level ∈ levels, operatorOf level v = none := fun level hl => by
    have hidle := shut_nil.idle_operators level hl v.offset
    rwa [← hv] at hidle
  have hzero := binding_of_le h hops (Nat.zero_le k)
  cases inHeader with
  | false => exact hzero
  | true => exact (widens_expr n).reads s e v hzero (by rw [Braceless, hv]; exact Lex.stops_nil _)

theorem tracks_step {S : Lockstep} (hS : S.Lawful) {d bound : Nat} {g' : Rules}
    (hg : Rules.Alike S bound g g')
    (inHeader : Bool) (k : Nat) :
    Level S d 1 (bound + 1) (step g inHeader k) (step g' inHeader k) :=
  (hS.operator (levelAt k)).andThen₁ fun _ =>
    (tracks_spine hS hg inHeader (k + 1)).less.give fun _ => rfl

section Rereading

variable {i : Nat} {u w t : Cursor} {e : Expr} {part : List Char}

/-- What was read from the cut-off part of a text and what follows it is read from that part alone,
by rules that are deep enough for it. -/
theorem Origin.reread (h : Origin (rules (2 * part.length + i)) u t e) (hu : Trimmed u)
    (hway : Way w 0 u) (hw : blanks w = some ((), t)) (hpart : u.rest = part ++ w.rest)
    (he : e.doubled = false) :
    ∃ v, expr (rules (2 * part.length + 1)) ⟨0, part⟩ = some (e.move (· - u.offset), v) ∧
    v.rest = [] := by
  have hS := cut_lawful (o := u.offset) hw
  have hg := rules_alike hS part.length i 1
  have hat : (cut u.offset w t hw).At 0 u ⟨0, part⟩ := .inl ⟨hway, hpart, (Nat.zero_add _).symm⟩
  have hlt : part.length < part.length + 1 := Nat.lt_succ_self _
  have hleft : (cut u.offset w t hw).left ≤ t.rest.length := Nat.le_refl _
  -- at the end of the part no further round is possible
  have hstop : ∀ {β : Type} {q : Parser β} {v : Cursor}, Idle q [] → v.rest = [] → q v = none := by
    rintro β q v hq hv
    rw [show v = ⟨v.offset, []⟩ by rw [← hv]]
    exact hq v.offset
  cases h with
  | @level inHeader k hk hk' h =>
    obtain ⟨v, hv, hend⟩ :=
      h.follow (tracks_spine hS hg inHeader (k + 1)) (tracks_step hS hg inHeader k).less
      (fun _ _ => rfl) hat hu hlt hleft
    have hv' := cut_end hend
    have hlevel : binding (primaryOf (rules (2 * part.length + 1)) inHeader) k ⟨0, part⟩ =
        some (e.move (· - u.offset), v) := by
      rw [binding_eq_chain _ hk hk']
      exact hv.many_eq (hstop (.bind (tidy_operatorOf _).idle_nil) hv')
    exact ⟨v, expr_of_binding hv' hlevel, hv'⟩
  | unary inHeader h =>
    obtain ⟨v, hv, hend⟩ := (tracks_spine hS hg inHeader 6).follow hat hu hlt h hleft
    exact ⟨v, expr_of_binding (k := 6) (cut_end hend) hv, cut_end hend⟩
  | primary inHeader hl h =>
    obtain ⟨v, hv, hend⟩ := h.follow (tracks_operand hS hg) (tracks_tail hS hg inHeader)
      (fun x suf => Suffix.apply_move _ x suf) hat hu hlt hleft
    have hv' := cut_end hend
    have hlead : (tokenOf Lead.symbol leads <* blanks) ⟨0, part⟩ = none := by
      have hrun := (hS.lead (d := 0) : Tracks _ 0 1 (part.length + 1) 0 0 true _ _).runs hat hu hlt
      rwa [hl] at hrun
    have hprimary : primaryOf (rules (2 * part.length + 1)) inHeader ⟨0, part⟩ =
        some (e.move (· - u.offset), v) :=
      hv.many_eq (hstop (shut_nil.idle_tail _) hv')
    exact ⟨v, expr_of_binding (k := 6) hv' (unaryExpr_nil hlead hprimary), hv'⟩
  | type h =>
    obtain ⟨v, hv, hend⟩ := (tracks_type hS hg).follow hat hu hlt h hleft
    have hv' := cut_end hend
    have hunary := unaryExpr_of_type (rules_settled part.length 1) (Nat.le_refl _) hv
      ((Expr.doubled_move _ e).trans he) (by rw [hv']; exact shut_nil)
    exact ⟨v, expr_of_binding (k := 6) hv' hunary, hv'⟩

theorem parseExpr?_single {text : String} (h : parseExpr? text = some e) : e.doubled = false := by
  obtain ⟨⟨_, v⟩, hrun, rfl⟩ := Option.map_eq_some_iff.1 h
  have hyields : Yields ((rules (depthFor text.toList)).expr <* atEnd) fun e => e.doubled = false :=
    .seqLeft (yields_expr_single _)
  exact hyields _ _ v hrun

/-- An excerpt spells the expression that it was taken for, with offsets from its own beginning on,
unless this is a doubled channel type. -/
theorem Origin.parseExpr?_iff (h : Origin (rules n) u t e) (hn : 2 * part.length ≤ n)
    (hu : Trimmed u) (hway : Way w 0 u) (hw : blanks w = some ((), t))
    (hpart : u.rest = part ++ w.rest) :
    parseExpr? (String.ofList part) = some (e.move (· - u.offset)) ↔ e.doubled = false := by
  refine ⟨fun hparse => (Expr.doubled_move _ e).symm.trans (parseExpr?_single hparse), fun he => ?_⟩
  rw [show n = 2 * part.length + (n - 2 * part.length) by omega] at h
  obtain ⟨v, hv, hend⟩ := h.reread hu hway hw hpart he
  rw [parseExpr?, String.toList_ofList]
  exact run_atEnd_eq_some.2 ⟨v, hv, hend⟩

end Rereading

/-- The type that a whole text spells. -/
def parseType? (text : String) : Option Expr :=
  let cs := text.toList
  (((rules (depthFor cs)).type <* atEnd).run ⟨0, cs⟩).map Prod.fst

/-- The text of a type spells the same tree as an expression, unless this is a doubled channel
type. -/
theorem parseExpr?_eq_parseType?_iff {text : String} {t : Expr} (h : parseType? text = some t) :
    parseExpr? text = some t ↔ t.doubled = false := by
  refine ⟨parseExpr?_single, fun ht => ?_⟩
  obtain ⟨v, hv, hend⟩ := run_atEnd_eq_some.1 h
  have hunary :=
    unaryExpr_of_type (rules_settled text.toList.length 1) (Nat.le_refl _) hv ht
      (by rw [hend]; exact shut_nil)
  exact run_atEnd_eq_some.2 ⟨v, expr_of_binding (k := 6) hend hunary, hend⟩

/-- A map type, to channels of pointers, spells the same tree both ways. -/
theorem parseExpr?_mapType : ∃ t, parseType? "map[p.K](<-chan *func(...int))" = some t ∧
    parseExpr? "map[p.K](<-chan *func(...int))" = some t := by
  have h : (parseType? "map[p.K](<-chan *func(...int))").any fun t =>
      !t.doubled := by decide +kernel
  obtain ⟨t, ht, h⟩ := (Option.any_eq_true _ _).1 h
  exact ⟨t, ht, (parseExpr?_eq_parseType?_iff ht).2 (by simpa using h)⟩

/-- A channel of channels does not. -/
theorem parseExpr?_ne_parseType? : ∃ t, parseType? "<-chan <-chan int" = some t ∧
    parseExpr? "<-chan <-chan int" ≠ some t := by
  have h : (parseType? "<-chan <-chan int").any Expr.doubled := by decide +kernel
  obtain ⟨t, ht, h⟩ := (Option.any_eq_true _ _).1 h
  refine ⟨t, ht, fun he => ?_⟩
  rw [parseExpr?_single he] at h
  cases h

end Grammar

end GoFun
