import GoFun.Proofs.Grammar.Lockstep
import GoFun.Proofs.Grammar.Operand
import GoFun.Proofs.Grammar.Sound

/-!
# Every rule runs in step

When the tokens of the grammar run in step from corresponding places, so does every rule, with the
open rules of the two sides in their places. Outside of all brackets there are only the rules that
expressions and types are made of.
-/
namespace GoFun

open Parser Grammar Movable Lex

variable {α : Type} {sym : String}

instance : Movable Ident := ⟨Ident.move⟩
instance : Movable Literal := ⟨Literal.move⟩
instance : Movable Expr := ⟨Expr.move⟩
instance : Movable Stmt := ⟨Stmt.move⟩
instance : Movable Field := ⟨Field.move⟩
instance : Movable FieldList := ⟨FieldList.move⟩
instance : Movable FuncType := ⟨FuncType.move⟩
instance : Movable Block := ⟨Block.move⟩
instance : Movable Spec := ⟨Spec.move⟩
instance : Movable GenDecl := ⟨GenDecl.move⟩
instance : Movable ChanDir := ⟨fun _ x => x⟩
instance : Movable BinaryOp := ⟨fun _ x => x⟩
instance : Movable AssignOp := ⟨fun _ x => x⟩
instance : Movable Step := ⟨fun _ x => x⟩
instance : Movable Jump := ⟨fun _ x => x⟩
instance : Movable Lead := ⟨fun _ x => x⟩
instance : Movable Elements := ⟨fun f x => ⟨move f x.lbrace, move f x.list, move f x.rbrace⟩⟩

def Grammar.Suffix.move (f : Nat → Nat) : Suffix → Suffix
  | .selector sel => .selector (sel.move f)
  | .index lbrack i rbrack => .index (lbrack.map f) (i.move f) (rbrack.map f)
  | .slice lbrack low high max rbrack =>
    .slice (lbrack.map f) (moveExpr? f low) (moveExpr? f high) (moveExpr? f max) (rbrack.map f)
  | .assertion lparen type rparen => .assertion (lparen.map f) (moveExpr? f type) (rparen.map f)
  | .call lparen args dots rparen => .call (lparen.map f) (moveExprs f args) (dots.map f)
      (rparen.map f)
  | .elements e => .elements (Movable.move f e)

instance : Movable Suffix := ⟨Suffix.move⟩

namespace Parser

theorem map_orElse {β : Type} (f : α → β) (p q : Parser α) :
    f <$> (p <|> q) = (f <$> p <|> f <$> q) := by
  have happly : ∀ (r : Parser α) (s : Cursor), (f <$> r) s = (r s).map fun (a, t) => (f a, t) :=
    fun r s => by
    change (r s >>= fun x => pure (f x.1, x.2)) = _
    cases r s <;> rfl
  funext s
  rw [orElse_apply, happly, happly, happly, orElse_apply]
  cases p s <;> simp

theorem optional_map {β : Type} (f : α → β) (p : Parser α) :
    optional (f <$> p) = Option.map f <$> optional p := by
  unfold optional
  rw [map_orElse, map_pure, Functor.map_map, Functor.map_map]
  rfl

end Parser

/-! ### Tokens -/

/-- What `p` takes has at least `take` characters and ends with layout. -/
def Tidy {α : Type} (take : Nat) (p : Parser α) : Prop :=
  ∀ s a t, Trimmed s → p s = some (a, t) → Trimmed t ∧ t.rest.length + take ≤ s.rest.length

theorem Lex.Kind.length_lt {k : Kind} {cs p r : List Char} (h : k.lexer cs = some (p, r)) :
    r.length < cs.length := by
  obtain ⟨c, t, rfl, -⟩ := k.opens _ _ _ h
  rw [← k.takes _ _ _ h, List.length_append, List.length_cons]
  omega

theorem Spells.tidy {s t : Cursor} (h : Spells sym s t) (hsym : sym.toList ≠ []) :
    Trimmed t ∧ t.rest.length < s.rest.length := by
  have hlt := h.length_lt hsym
  obtain ⟨u, -, -, hu⟩ := h
  exact ⟨hu.trimmed, hlt⟩

namespace Tidy

variable {α β : Type} {take : Nat} {p q : Parser α}

theorem bind {k : α → Parser β} (hp : Tidy take p) (hk : ∀ a, Tidy 0 (k a)) :
    Tidy take (p >>= k) := by
  intro s x t hs hx
  obtain ⟨a, u, ha, hx⟩ := bind_eq_some hx
  obtain ⟨hu, hle⟩ := hp s a u hs ha
  obtain ⟨ht, hle'⟩ := hk a u x t hu hx
  exact ⟨ht, by omega⟩

theorem pure (a : α) : Tidy 0 (Pure.pure a : Parser α) := by
  intro s a t hs ha
  obtain ⟨-, rfl⟩ := result_inj ha
  exact ⟨hs, Nat.le_refl _⟩

theorem orElse (hp : Tidy take p) (hq : Tidy take q) : Tidy take (p <|> q) := by
  intro s a t hs ha
  rcases orElse_eq_some ha with ha | ⟨-, ha⟩
  · exact hp s a t hs ha
  · exact hq s a t hs ha

theorem zero (h : Tidy take p) : Tidy 0 p := fun s a t hs ha => by
  obtain ⟨ht, hle⟩ := h s a t hs ha
  exact ⟨ht, by omega⟩

theorem of_spells {w : α → String} (hw : ∀ a, (w a).toList ≠ [])
    (hp : ∀ s a t, p s = some (a, t) → Spells (w a) s t) : Tidy 1 p :=
  fun s a t _ ha => (hp s a t ha).tidy (hw a)

end Tidy

namespace Grammar

variable {blank : Char → Bool}

theorem ne_nil_of_isSymbol (h : isSymbol sym = true) : sym.toList ≠ [] := fun he => by
  simp [isSymbol, he] at h

theorem tidy_token (h : sym.toList ≠ []) : Tidy 1 (token sym) :=
  .of_spells (w := fun _ => sym) (fun _ => h) fun _ _ _ ha => (token_eq_some ha).2

theorem tidy_tokenNl (h : sym.toList ≠ []) : Tidy 1 (tokenNl sym) :=
  .of_spells (w := fun _ => sym) (fun _ => h) fun _ _ _ ha => (tokenNl_eq_some ha).2

theorem tidy_labelColon : Tidy 1 labelColon :=
  .of_spells (w := fun _ => ":") (fun _ => by decide) fun _ _ _ ha => (labelColon_eq_some ha).2

theorem tidy_operatorOf (level : List (BinaryOp × String)) : Tidy 1 (operatorOf level) :=
  .of_spells (w := fun x => x.2.symbol) (fun x => by cases x.2 <;> decide) fun _ _ _ ha =>
    (operatorOf_eq_some ha).2

theorem tidy_tokenOf {spelling : α → String} (h : ∀ a, (spelling a).toList ≠ []) (choices : List α)
    (hb : blank = isBlank ∨ blank = isBlankOrNewline) :
    Tidy 1 (tokenOf spelling choices <* skip blank) := by
  refine .of_spells (w := fun x => spelling x.2) (fun x => h x.2) fun s a t ha => ?_
  obtain ⟨x, u, hx, ha⟩ := bind_eq_some (f := fun a => skip blank >>= fun _ => pure a) ha
  obtain ⟨rfl, ht⟩ := skip_eq_some ha
  obtain ⟨-, -, hr, ho⟩ := tokenOf_eq_some hx
  exact ⟨u, hr, ho, _, hb, ht⟩

theorem tidy_lead : Tidy 1 (tokenOf Lead.symbol leads <* blanks) :=
  tidy_tokenOf (fun
    | .deref => by decide
    | .op o => by cases o <;> decide) _ (.inl rfl)

theorem tidy_assignOp (ops : List AssignOp) (hb : blank = isBlank ∨ blank = isBlankOrNewline) :
    Tidy 1 (tokenOf AssignOp.symbol ops <* skip blank) :=
  tidy_tokenOf (fun op => by cases op <;> decide) ops hb

theorem tidy_step (steps : List Step) : Tidy 1 (tokenOf Step.symbol steps <* blanks) :=
  tidy_tokenOf (fun step => by cases step <;> decide) steps (.inl rfl)

theorem tidy_keyword (w : String) : Tidy 1 (keyword w) := by
  intro s a t _ ha
  obtain ⟨-, r, hr, hu⟩ := keyword_eq_some ha
  exact ⟨hu.trimmed, Nat.lt_of_le_of_lt hu.length_le (Kind.length_lt (k := .word) hr)⟩

theorem tidy_ident : Tidy 1 ident := by
  intro s a t _ ha
  obtain ⟨-, -, r, hr, hu⟩ := ident_eq_some ha
  exact ⟨hu.trimmed, Nat.lt_of_le_of_lt hu.length_le (Kind.length_lt (k := .word) hr)⟩

theorem tidy_literal : Tidy 1 literal := by
  have h : ∀ (k : Kind) (kind : List Char → LitKind), Tidy 1 (literalOf kind k.lexer) := by
    intro k kind s a t _ ha
    obtain ⟨-, r, hr, hu⟩ := literalOf_eq_some ha
    exact ⟨hu.trimmed, Nat.lt_of_le_of_lt hu.length_le (Kind.length_lt hr)⟩
  exact .orElse (h .number _) (.orElse (h .string _) (h .char _))

theorem tidy_skip (hb : blank = isBlank ∨ blank = isBlankOrNewline) : Tidy 0 (skip blank) := by
  intro s a t _ ha
  have hskips : Skips s t := ⟨blank, hb, ha⟩
  exact ⟨hskips.trimmed, hskips.length_le⟩

theorem tidy_separator : Tidy 1 separator := by
  intro s a t _ ha
  obtain ⟨_, u, hu, ha⟩ := bind_eq_some ha
  obtain ⟨x, v, hv, ha⟩ := bind_eq_some ha
  have hskips : Skips v t := ⟨_, .inr rfl, ha⟩
  obtain ⟨r, hr, -, rfl⟩ := lexeme_eq_some hv
  obtain ⟨c, -, hs, -⟩ := one_eq_some.1 hr
  have hle : u.rest.length ≤ s.rest.length := Skips.length_le ⟨_, .inl rfl, hu⟩
  have hle' : t.rest.length ≤ r.length := hskips.length_le
  rw [hs, List.length_cons] at hle
  exact ⟨hskips.trimmed, by omega⟩

/-- The direction of a channel type, with the words and signs that show it. -/
def chanDir : Parser (Pos × ChanDir) :=
  (do return (← keyword "chan" <* token "<-", .send))
  <|> (do return (← keyword "chan", .both))
  <|> (do return (← token "<-" <* keyword "chan", .receive))

theorem tidy_chanDir : Tidy 1 chanDir := by
  have hchan : Tidy 1 (keyword "chan") := tidy_keyword _
  have harrow : Tidy 1 (token "<-") := tidy_token (by decide)
  have hsend : Tidy 1 (keyword "chan" <* token "<-") :=
    hchan.bind fun _ => harrow.zero.bind fun _ => .pure _
  have hreceive : Tidy 1 (token "<-" <* keyword "chan") :=
    harrow.bind fun _ => hchan.zero.bind fun _ => .pure _
  exact .orElse (hsend.bind fun _ => .pure _)
    (.orElse (hchan.bind fun _ => .pure _) (hreceive.bind fun _ => .pure _))

end Grammar

/-- The tokens run in step. Those of statements are met inside of brackets only. -/
structure Lockstep.Lawful (S : Lockstep) : Prop where
  token : ∀ {d bound sym}, Lex.isSymbol sym = true →
    Tracks S d 1 bound 0 0 true (token sym) (token sym)
  tokenNl : ∀ {d bound sym}, Lex.isSymbol sym = true →
    Tracks S d 1 bound 0 0 true (tokenNl sym) (tokenNl sym)
  opens : ∀ {d bound sym}, sym ∈ ["(", "[", "\x7b"] →
    Tracks S d 1 bound 0 1 true (Grammar.token sym) (Grammar.token sym)
  opensNl : ∀ {d bound sym}, sym ∈ ["(", "[", "\x7b"] →
    Tracks S d 1 bound 0 1 true (Grammar.tokenNl sym) (Grammar.tokenNl sym)
  closes : ∀ {d bound sym}, sym ∈ [")", "]", "\x7d"] →
    Tracks S d 1 bound 1 0 true (Grammar.token sym) (Grammar.token sym)
  keyword : ∀ {d bound w}, w ∈ Lex.keywords → Tracks S d 1 bound 0 0 true (keyword w) (keyword w)
  ident : ∀ {d bound}, Tracks S d 1 bound 0 0 true ident ident
  literal : ∀ {d bound}, Tracks S d 1 bound 0 0 true literal literal
  chanDir : ∀ {d bound}, Tracks S d 1 bound 0 0 true chanDir chanDir
  operator : ∀ {d bound} (level : List (BinaryOp × String)),
    Tracks S d 1 bound 0 0 true (operatorOf level) (operatorOf level)
  lead : ∀ {d bound}, Tracks S d 1 bound 0 0 true (tokenOf Lead.symbol leads <* blanks)
    (tokenOf Lead.symbol leads <* blanks)
  assignOp : ∀ {d bound} (ops : List AssignOp),
    Tracks S (d + 1) 1 bound 0 0 true (tokenOf AssignOp.symbol ops <* blanks)
    (tokenOf AssignOp.symbol ops <* blanks)
  assignOpNl : ∀ {d bound} (ops : List AssignOp),
    Tracks S (d + 1) 1 bound 0 0 true (tokenOf AssignOp.symbol ops <* blanksNl)
    (tokenOf AssignOp.symbol ops <* blanksNl)
  step : ∀ {d bound} (steps : List Step),
    Tracks S (d + 1) 1 bound 0 0 true (tokenOf Step.symbol steps <* blanks)
    (tokenOf Step.symbol steps <* blanks)
  labelColon : ∀ {d bound}, Tracks S (d + 1) 1 bound 0 0 true labelColon labelColon
  dots : ∀ {d bound}, Tracks S (d + 1) 1 bound 0 0 true (Grammar.token "...") (Grammar.token "...")
  dotsNl : ∀ {d bound}, Tracks S (d + 1) 1 bound 0 0 true (Grammar.tokenNl "...")
    (Grammar.tokenNl "...")
  blanksNl : ∀ {d bound}, Tracks S (d + 1) 0 bound 0 0 true blanksNl blanksNl
  separator : ∀ {d bound}, Tracks S (d + 1) 1 bound 0 0 true separator separator
  /-- A dot may stand in front of a number or of other dots, where the places behind it do not
  correspond. -/
  dot : ∀ {d bound q m : Nat} {c : Bool} {α : Type} [Movable α] {dot : Parser Pos}
    {k j : Pos → Parser α}, dot = Grammar.token "." ∨ dot = Grammar.tokenNl "." →
    (∀ a, Tracks S d q bound 0 m c (k a) (j (move S.shift a))) →
    (∀ a s x t, k a s = some (x, t) → Lex.Stops (fun c => Lex.isDigit c || c == '.') s.rest) →
    (∀ a s x t, j a s = some (x, t) → Lex.Stops (fun c => Lex.isDigit c || c == '.') s.rest) →
    Tracks S d 1 (bound + 1) 0 m false (dot >>= k) (dot >>= j)

namespace Grammar

/-- The open rules run in step, types and element lists outside of brackets, too. -/
structure Rules.Alike (S : Lockstep) (bound : Nat) (g g' : Rules) : Prop where
  expr : ∀ {d}, Level S (d + 1) 0 bound g.expr g'.expr
  type : ∀ {d}, Level S d 0 bound g.type g'.type
  stmt : ∀ {d}, Level S (d + 1) 0 bound g.stmt g'.stmt
  elements : ∀ {d}, Level S d 1 bound g.elements g'.elements
  conditional : ∀ {d}, Level S (d + 1) 0 bound g.conditional g'.conditional

/-! ### Moved values -/

section Moved

variable (f : Nat → Nat)

theorem move_entry (name : Option Ident) (type : Expr) :
    move f (name, type) = (name.map (Ident.move f), type.move f) := rfl

theorem groupFrom_move (waiting : List Ident) (entries : List (Option Ident × Expr)) :
    groupFrom (waiting.map (Ident.move f)) (entries.map (move f)) =
      (groupFrom waiting entries).map (Field.move f) := by
  fun_induction groupFrom waiting entries with
  | case1 waiting => simp [groupFrom, Field.move, Expr.move]
  | case2 waiting name type entries ih =>
    simp only [List.map_nil] at ih
    simp [groupFrom, move_entry, Field.move, ih]
  | case3 waiting name entries ih =>
    simp only [List.map_append] at ih
    simpa [groupFrom, move_entry, Expr.move] using ih
  | case4 waiting type entries hne ih =>
    cases type <;> simp_all [groupFrom, move_entry, Expr.move, Field.move]

theorem groupParams_move (entries : List (Option Ident × Expr)) :
    moveFields f (groupParams entries) = groupParams (move f entries) := by
  change _ = groupParams (entries.map (move f))
  rw [moveFields_eq_map]
  have hall : (entries.map (move f)).all (·.1.isNone) = entries.all (·.1.isNone) := by
    simp [List.all_map, Function.comp_def, move]
  unfold groupParams
  rw [hall]
  split
  · simp [Field.move, move]
  · simpa using (groupFrom_move f [] entries).symm

theorem applyLead_move (l : Pos × Lead) (x : Expr) :
    (applyLead l x).move f = applyLead (move f l) (x.move f) := by
  obtain ⟨pos, lead⟩ := l
  cases lead with
  | deref => rfl
  | op o =>
    cases o with
    | receive =>
      cases x with
      | chan _ dir _ => cases dir <;> rfl
      | _ => rfl
    | _ => rfl

theorem composite_move (t : Option Expr) (x : Elements) :
    (composite t x).move f = composite (move f t) (move f x) := by
  simp [composite, Expr.move, move, moveExpr?_eq_map, moveExprs_eq_map]

theorem Suffix.apply_move (x : Expr) (suf : Suffix) :
    (suf.apply x).move f = (suf.move f).apply (x.move f) := by
  cases suf with
  | elements e => exact composite_move f (some x) e
  | _ => rfl

end Moved

section Types

variable {S : Lockstep} (hS : S.Lawful) {d bound : Nat}

include hS

/-! ### Types and signatures -/

theorem tracks_typeName : Level S d 1 (bound + 1) typeName typeName := by
  have hsel : Level S d 1 (bound + 1) (token "." *> ident) (token "." *> ident) :=
    hS.dot (k := fun _ => ident) (j := fun _ => ident) (.inl rfl) (fun _ => hS.ident)
      (fun _ _ _ _ h => ident_stops h) fun _ _ _ _ h => ident_stops h
  exact hS.ident.thenOpt hsel.less (by rintro x (_ | sel) <;> exact ⟨_, rfl, rfl⟩)

variable {g g' : Rules} (hg : Rules.Alike S bound g g')

include hg

theorem tracks_paramType : Level S (d + 1) 0 bound (paramType g) (paramType g') :=
  .orElse (hS.dots.zero.andThen fun _ => hg.type.give fun _ => rfl) hg.type

theorem tracks_param : Level S (d + 1) 0 bound (param g) (param g') :=
  .orElse (hS.ident.zero.andThen fun _ => (tracks_paramType hS hg).give fun _ => rfl)
    ((tracks_paramType hS hg).give fun _ => rfl)

theorem tracks_params : Level S d 1 (bound + 1) (params g) (params g') := by
  have hentries : Level S (d + 1) 0 bound (sepEndBy (param g) (tokenNl ","))
      (sepEndBy (param g') (tokenNl ",")) :=
    .sepEndBy (tracks_param hS hg) (hS.tokenNl (by decide))
  exact (hS.opensNl (by simp)).andThen₁ fun _ => hentries.lift.andThen fun entries =>
    hS.blanksNl.lift.andThen fun _ =>
    (hS.closes (by simp)).give fun _ => congrArg (FieldList.mk _ · _) (groupParams_move _ entries)

theorem tracks_signature (funcPos : Pos) :
    Level S d 1 (bound + 1) (signature g funcPos) (signature g' (move S.shift funcPos)) := by
  have hresults : Level S d 0 bound (results g) (results g') :=
    .orElse (tracks_params hS hg).less.zero (hg.type.give fun _ => rfl)
  refine (tracks_params hS hg).thenOpt hresults fun params r => ⟨_, rfl, ?_⟩
  exact congrArg (fun r => Pure.pure (FuncType.mk _ _ r)) (moveFieldList?_eq_map _ r).symm

theorem tracks_pointerType : Level S d 1 (bound + 1) (pointerType g) (pointerType g') :=
  (hS.token (by decide)).andThen₁ fun _ => hg.type.give fun _ => rfl

theorem tracks_arrayType : Level S d 1 (bound + 1) (arrayType g) (arrayType g') := by
  have hlen : Level S (d + 1) 0 bound ((do return .ellipsis (← tokenNl "...") none) <|> g.expr)
      ((do return .ellipsis (← tokenNl "...") none) <|> g'.expr) :=
    .orElse (hS.dotsNl.zero.give fun _ => rfl) hg.expr
  exact (hS.opensNl (by simp)).andThen₁ fun _ => hlen.opt.lift.andThen fun len =>
    (hS.closes (by simp)).andThen fun _ =>
    hg.type.give fun _ => congrArg (Expr.array _ · _) (moveExpr?_eq_map _ len)

theorem tracks_mapType : Level S d 1 (bound + 1) (mapType g) (mapType g') :=
  (hS.keyword (by decide)).andThen₁ fun _ => (hS.opens (by simp)).andThen fun _ =>
    hg.type.lift.andThen fun _ =>
    (hS.closes (by simp)).andThen fun _ => hg.type.give fun _ => rfl

theorem tracks_chanType : Level S d 1 (bound + 1) (chanType g) (chanType g') :=
  hS.chanDir.andThen₁ fun _ => hg.type.give fun _ => rfl

theorem tracks_structField : Level S (d + 1) 0 bound (structField g) (structField g') := by
  have htype : Level S (d + 1) 0 bound
      ((do return (← sepBy1 ident (token ","), ← g.type)) <|> (do return ([], ← g.type)))
      ((do return (← sepBy1 ident (token ","), ← g'.type)) <|> (do return ([], ← g'.type))) :=
    .orElse ((Tracks.sepBy1 hS.ident (hS.token (by decide))).zero.bind fun _ =>
      hg.type.give fun _ => rfl) (hg.type.give fun _ => rfl)
  exact htype.bind fun _ => hS.literal.opt.give fun _ => rfl

theorem tracks_structType : Level S d 1 (bound + 1) (structType g) (structType g') :=
  (hS.keyword (by decide)).andThen₁ fun _ => (hS.opensNl (by simp)).andThen fun _ =>
    (Tracks.sepEndBy (tracks_structField hS hg) hS.separator).lift.andThen fun list =>
      (hS.closes (by simp)).give fun _ =>
        congrArg (fun list => Expr.struct _ ⟨_, list, _⟩) (moveFields_eq_map _ list)

theorem tracks_methodSpec : Level S (d + 1) 0 bound (methodSpec g) (methodSpec g') :=
  .orElse (hS.ident.zero.andThen fun _ => (tracks_signature hS hg none).less.give fun _ => rfl)
    ((tracks_typeName hS).less.zero.give fun _ => rfl)

theorem tracks_interfaceType : Level S d 1 (bound + 1) (interfaceType g) (interfaceType g') :=
  (hS.keyword (by decide)).andThen₁ fun _ => (hS.opensNl (by simp)).andThen fun _ =>
    (Tracks.sepEndBy (tracks_methodSpec hS hg) hS.separator).lift.andThen fun list =>
      (hS.closes (by simp)).give fun _ =>
        congrArg (fun list => Expr.interface _ ⟨_, list, _⟩) (moveFields_eq_map _ list)

theorem tracks_funcType : Level S d 1 (bound + 1) (funcType g) (funcType g') :=
  (hS.keyword (by decide)).andThen₁ fun funcPos => (tracks_signature hS hg funcPos).less

theorem tracks_parenType : Level S d 1 (bound + 1) (parenType g) (parenType g') :=
  (hS.opens (by simp)).andThen₁ fun _ => hg.type.lift.andThen fun _ =>
    (hS.closes (by simp)).give fun _ => rfl

theorem tracks_type : Level S d 1 (bound + 1) (type g) (type g') :=
  .orElse (tracks_typeName hS) (.orElse (tracks_pointerType hS hg) (.orElse (tracks_arrayType hS hg)
    (.orElse (tracks_mapType hS hg) (.orElse (tracks_chanType hS hg)
      (.orElse (tracks_structType hS hg)
      (.orElse (tracks_interfaceType hS hg) (.orElse ((tracks_funcType hS hg).give fun _ => rfl)
        (tracks_parenType hS hg))))))))

end Types

/-! ### Expressions -/

section Expressions

variable {S : Lockstep} (hS : S.Lawful) {d take bound : Nat} {c : Bool} {p p' : Parser Expr}

include hS

theorem tracks_level (level : List (BinaryOp × String)) (hp : Tracks S d take bound 0 0 c p p') :
    Level S d take bound (chain p (operatorOf level) joinBinary)
      (chain p' (operatorOf level) joinBinary) :=
  hp.chain (hS.operator level) fun _ _ _ => rfl

theorem tracks_unaryExpr (hp : Tracks S d take bound 0 0 c p p') (hnil : Idle p' []) :
    Level S d take bound (unaryExpr p) (unaryExpr p') := by
  have hfold : ∀ (before : List (Pos × Lead)) (x : Expr),
      (before.foldr applyLead x).move S.shift =
        (move S.shift before).foldr applyLead (x.move S.shift) := by
    intro before x
    induction before with
    | nil => rfl
    | cons l before ih => exact (applyLead_move ..).trans (congrArg (applyLead _) ih)
  exact hS.lead.manyThen (fun before => hp.give (hfold before)) fun _ o =>
    bind_apply_none _ (hnil o)

theorem tracks_binding (k : Nat) (hp : Tracks S d take bound 0 0 c p p') (hnil : Idle p' []) :
    Level S d take bound (binding p k) (binding p' k) := by
  have hfold : ∀ (ls : List (List (BinaryOp × String))) (q q' : Parser Expr),
      Level S d take bound q q' →
      Level S d take bound (ls.foldl (fun p level => chain p (operatorOf level) joinBinary) q)
        (ls.foldl (fun p level => chain p (operatorOf level) joinBinary) q') := by
    intro ls
    induction ls with
    | nil => exact fun q q' hq => hq
    | cons level ls ih => exact fun q q' hq => ih _ _ (tracks_level hS level hq)
  exact hfold _ _ _ (tracks_unaryExpr hS hp hnil)

variable {g g' : Rules} (hg : Rules.Alike S bound g g')

include hg

theorem tracks_block : Level S d 1 (bound + 1) (block g) (block g') :=
  (hS.opensNl (by simp)).andThen₁ fun _ =>
    (Tracks.sepEndBy hg.stmt hS.separator).lift.andThen fun list =>
    (hS.closes (by simp)).give fun _ => congrArg (Block.mk _ · _) (moveStmts_eq_map _ list)

omit hS in
theorem tracks_element : Level S (d + 1) 0 bound (element g) (element g') :=
  .orElse (hg.elements.zero.give fun x => composite_move _ none x) hg.expr

theorem tracks_keyedElement : Level S (d + 1) 0 bound (keyedElement g) (keyedElement g') := by
  have hvalue : Level S (d + 1) 0 bound (do return (← tokenNl ":", ← element g))
      (do return (← tokenNl ":", ← element g')) :=
    (hS.tokenNl (by decide)).zero.andThen fun _ => (tracks_element hg).give fun _ => rfl
  exact (tracks_element hg).bind fun _ =>
    hvalue.opt.finish (by rintro (_ | value) <;> exact ⟨_, rfl, rfl⟩)

theorem tracks_elements : Level S d 1 (bound + 1) (elements g) (elements g') :=
  (hS.opensNl (by simp)).andThen₁ fun _ =>
    (Tracks.sepEndBy (tracks_keyedElement hS hg) (hS.tokenNl (by decide))).lift.andThen fun _ =>
      hS.blanksNl.lift.andThen fun _ => (hS.closes (by simp)).give fun _ => rfl

theorem tracks_funcLit : Level S d 1 (bound + 1) (funcLit g) (funcLit g') :=
  (tracks_funcType hS hg).thenOpt (tracks_block hS hg).less
    (by rintro t (_ | body) <;> exact ⟨_, rfl, rfl⟩)

theorem tracks_literalType : Level S d 1 (bound + 1) (literalType g) (literalType g') := by
  refine (Tracks.orElse (tracks_arrayType hS hg)
    (.orElse (tracks_mapType hS hg) (tracks_structType hS hg))).thenOpt hg.elements fun t x => ?_
  cases x with
  | none => exact ⟨_, rfl, rfl⟩
  | some x => exact ⟨_, rfl, congrArg Pure.pure (composite_move S.shift (some t) x).symm⟩

theorem tracks_parenExpr : Level S d 1 (bound + 1) (parenExpr g) (parenExpr g') :=
  (hS.opensNl (by simp)).andThen₁ fun _ => hg.expr.lift.andThen fun _ =>
    hS.blanksNl.lift.andThen fun _ =>
    (hS.closes (by simp)).give fun _ => rfl

theorem tracks_operand : Level S d 1 (bound + 1) (operand g) (operand g') :=
  .orElse (hS.literal.give fun _ => rfl)
    (.orElse (tracks_funcLit hS hg) (.orElse (tracks_literalType hS hg)
    (.orElse (tracks_chanType hS hg) (.orElse (tracks_interfaceType hS hg)
      (.orElse (hS.ident.give fun _ => rfl) (tracks_parenExpr hS hg))))))

theorem tracks_assertionSuffix :
    Level S d 1 (bound + 1) (assertionSuffix g) (assertionSuffix g') := by
  have htype : Level S (d + 1) 0 bound
      ((do let _ ← keyword "type"; return none) <|> (do return some (← g.type)))
      ((do let _ ← keyword "type"; return none) <|> (do return some (← g'.type))) :=
    .orElse ((hS.keyword (by decide)).zero.give fun _ => rfl) (hg.type.give fun _ => rfl)
  have hstops : ∀ (k : Pos → Parser Suffix) s x t, (token "(" >>= k) s = some (x, t) →
      Stops (fun c => isDigit c || c == '.') s.rest := by
    intro k s x t h
    obtain ⟨_, _, hp, -⟩ := bind_eq_some h
    obtain ⟨u, hr, -⟩ := (token_eq_some hp).2
    rw [hr]
    exact (stops_cons _ _ _).2 (by decide)
  exact hS.dot (.inr rfl) (fun _ => (hS.opens (by simp)).andThen fun _ =>
    htype.lift.andThen fun t =>
    (hS.closes (by simp)).give fun _ => congrArg (Suffix.assertion _ · _)
      (moveExpr?_eq_map S.shift t))
    (fun _ => hstops _) fun _ => hstops _

omit hg in
theorem tracks_selectorSuffix : Level S d 1 (bound + 1) selectorSuffix selectorSuffix := by
  have hstops : ∀ s x t, (ident >>= fun id => pure (Suffix.selector id)) s = some (x, t) →
      Stops (fun c => isDigit c || c == '.') s.rest := by
    intro s x t h
    obtain ⟨_, _, hi, -⟩ := bind_eq_some h
    exact ident_stops hi
  exact hS.dot (.inr rfl) (fun _ => hS.ident.give fun _ => rfl) (fun _ => hstops) fun _ => hstops

theorem tracks_sliceSuffix : Level S d 1 (bound + 1) (sliceSuffix g) (sliceSuffix g') := by
  have hmax : Level S (d + 1) 0 bound (tokenNl ":" *> g.expr) (tokenNl ":" *> g'.expr) :=
    (hS.tokenNl (by decide)).zero.seqRight hg.expr
  refine (hS.opensNl (by simp)).andThen₁ fun _ => hg.expr.opt.lift.andThen fun low =>
    (hS.tokenNl (by decide)).lift.andThen fun _ => hg.expr.opt.lift.andThen fun high =>
      hmax.opt.lift.andThen fun max =>
      (hS.closes (by simp)).give fun _ => ?_
  simp [move, Suffix.move, moveExpr?_eq_map]

theorem tracks_indexSuffix : Level S d 1 (bound + 1) (indexSuffix g) (indexSuffix g') :=
  (hS.opensNl (by simp)).andThen₁ fun _ => hg.expr.lift.andThen fun _ =>
    (hS.closes (by simp)).give fun _ => rfl

theorem tracks_callSuffix : Level S d 1 (bound + 1) (callSuffix g) (callSuffix g') := by
  refine (hS.opensNl (by simp)).andThen₁ fun _ =>
    (Tracks.sepBy hg.expr (hS.tokenNl (by decide))).lift.andThen fun args =>
      hS.dotsNl.opt.lift.andThen fun dots =>
      (hS.tokenNl (by decide)).opt.lift.andThen fun _ => hS.blanksNl.lift.andThen fun _ =>
        (hS.closes (by simp)).give fun _ => ?_
  cases dots <;> simp [move, Suffix.move, moveExprs_eq_map]

theorem tracks_tail (inHeader : Bool) : Level S d 1 bound (tail g inHeader) (tail g' inHeader) := by
  have hsuffix : Level S d 1 (bound + 1) (suffix g) (suffix g') :=
    .orElse (tracks_assertionSuffix hS hg)
      (.orElse (tracks_selectorSuffix hS) (.orElse (tracks_sliceSuffix hS hg)
      (.orElse (tracks_indexSuffix hS hg) (tracks_callSuffix hS hg))))
  cases inHeader with
  | true => exact hsuffix.less
  | false => exact .orElse hsuffix.less (hg.elements.give fun _ => rfl)

theorem tracks_primaryOf (inHeader : Bool) :
    Level S d 1 (bound + 1) (primaryOf g inHeader) (primaryOf g' inHeader) := by
  have hfold : ∀ (x : Expr) (after : List Suffix),
      (after.foldl Suffix.apply x).move S.shift =
        (move S.shift after).foldl Suffix.apply (x.move S.shift) := by
    intro x after
    induction after generalizing x with
    | nil => rfl
    | cons suf after ih => exact (ih _).trans (by rw [Suffix.apply_move]; rfl)
  exact (tracks_operand hS hg).thenMany (tracks_tail hS hg inHeader) hfold

theorem tracks_spine (inHeader : Bool) (k : Nat) :
    Level S d 1 (bound + 1) (binding (primaryOf g inHeader) k)
      (binding (primaryOf g' inHeader) k) :=
  tracks_binding hS k (tracks_primaryOf hS hg inHeader)
    (idle_primaryOf g' inHeader (idle_operand g' (stops_nil _)))

end Expressions

/-! ### Loops -/

/-- What stands between the word of a loop and its body. -/
inductive LoopHead where
  | range (vars : Option (Expr × Option Expr × Pos × AssignOp)) (x : Expr)
  | clause (init : Option Stmt) (cond : Option Expr) (post : Option Stmt)

def LoopHead.close (forPos : Pos) (body : Block) : LoopHead → Stmt
  | range (some (key, value, opPos, op)) x => .range forPos (some key) value opPos (some op) x body
  | range none x => .range forPos none none none none x body
  | clause init cond post => .forLoop forPos init cond post body

/-- No header at all is one with no part. -/
def LoopHead.endless : LoopHead := .clause none none none

def loopHead (g : Rules) : Parser LoopHead :=
  (do
    let vars ← optional (rangeVars g)
    let _ ← keyword "range"
    return .range vars (← headerExpr g))
  <|> (do
    let init ← optional (headerSimple g)
    let _ ← token ";"
    let cond ← optional (headerExpr g)
    let _ ← token ";"
    return .clause init cond (← optional (headerSimple g)))
  <|> (do return .clause none (some (← headerExpr g)) none)

instance : Movable LoopHead where
  move f
    | .range vars x => .range (move f vars) (move f x)
    | .clause init cond post => .clause (move f init) (move f cond) (move f post)

theorem LoopHead.close_move (f : Nat → Nat) (forPos : Pos) (body : Block) (head : LoopHead) :
    (head.close forPos body).move f = (move f head).close (move f forPos) (move f body) := by
  match head with
  | .range (some (key, value, opPos, op)) x =>
    simp [LoopHead.close, Stmt.move, move, moveExpr?_eq_map]
  | .range none x => simp [LoopHead.close, Stmt.move, move, moveExpr?_eq_map]
  | .clause init cond post => simp [LoopHead.close, Stmt.move, move, moveExpr?_eq_map,
    moveStmt?_eq_map]

theorem loopClause_eq (g : Rules) (forPos : Pos) :
    (rangeClause g forPos <|> forClause g forPos <|> whileClause g forPos) =
    (fun head body => LoopHead.close forPos body head) <$> loopHead g := by
  rw [loopHead, map_orElse, map_orElse]
  congr 1
  · simp only [rangeClause, map_bind, map_pure]
    congr 1
    funext vars
    congr 1
    funext _
    congr 1
    funext x
    cases vars <;> rfl
  · simp only [forClause, whileClause, map_bind, map_pure]
    rfl

theorem forStmt_eq (g : Rules) : forStmt g = (do
    let forPos ← keyword "for"
    let head ← optional (loopHead g)
    let body ← block g
    return (head.getD .endless).close forPos body) := by
  unfold forStmt
  congr 1
  funext forPos
  rw [loopClause_eq, optional_map, bind_map_left]
  congr 1
  funext head
  congr 1
  funext body
  cases head <;> rfl

/-! ### Declarations and statements -/

section Statements

variable {S : Lockstep} (hS : S.Lawful) {d take bound : Nat} {c : Bool} {p p' : Parser Expr}

include hS

theorem tracks_simpleStmt (hp : Tracks S (d + 1) 0 bound 0 0 c p p') :
    Level S (d + 1) 0 bound (simpleStmt p) (simpleStmt p') := by
  have hlist : Level S (d + 1) 0 bound (sepBy1 p (tokenNl ",")) (sepBy1 p' (tokenNl ",")) :=
    .sepBy1 hp (hS.tokenNl (by decide))
  refine .orElse (c := false) ?assign
    (.orElse (c := false) ?send (.orElse (c := false) (b := false) ?incDec ?expr))
  case assign =>
    refine hlist.bind fun lhs => (hS.assignOpNl _).bind fun _ => hlist.give fun rhs => ?_
    simp [move, Stmt.move, moveExprs_eq_map]
  case send => exact hp.bind fun _ => (hS.tokenNl (by decide)).bind fun _ => hp.give fun _ => rfl
  case incDec => exact hp.bind fun _ => (hS.step _).give fun _ => rfl
  case expr => exact hp.give fun _ => rfl

theorem tracks_jumpStmt : Level S (d + 1) 0 bound jumpStmt jumpStmt := by
  have hword : Level S (d + 1) 1 bound ([Jump.brk, .cont, .goto, .fallthrough].firstM fun jump => do
      return (← keyword jump.word, jump))
        ([Jump.brk, .cont, .goto, .fallthrough].firstM fun jump => do
      return (← keyword jump.word, jump)) :=
    .firstM _ fun jump _ => (hS.keyword (by cases jump <;> decide)).give fun _ => rfl
  exact hword.zero.bind fun _ => hS.ident.opt.give fun _ => rfl

theorem tracks_declOf (word : DeclWord) {spec spec' : Parser Spec}
    (h : ∀ {d}, Level S (d + 1) 0 bound spec spec') :
    Level S (d + 1) 1 (bound + 1) (declOf word spec) (declOf word spec') := by
  have hgroup : ∀ wordPos, Level S (d + 1) 0 bound (specGroup wordPos word spec)
      (specGroup (move S.shift wordPos) word spec') := fun wordPos => by
    refine .orElse (c := false) (b := false) ?several ?single
    case several =>
      exact (hS.opensNl (by simp)).zero.bind fun _ => (Tracks.sepEndBy h hS.separator).lift.bind fun specs =>
        (hS.closes (by simp)).give fun _ => congrArg (GenDecl.mk _ _ _ · _) (moveSpecs_eq_map _ specs)
    case single => exact h.give fun spec => congrArg (GenDecl.mk _ _ _ · _) (moveSpecs_eq_map _ [spec])
  exact (hS.keyword (by cases word <;> decide)).andThen₁ hgroup

variable {g g' : Rules} (hg : Rules.Alike S bound g g')

include hg

theorem tracks_exprList : Level S (d + 1) 0 bound (exprList g) (exprList g') :=
  .sepBy1 hg.expr (hS.tokenNl (by decide))

theorem tracks_valueSpec : Level S (d + 1) 0 bound (valueSpec g) (valueSpec g') := by
  have hvalues : Level S (d + 1) 0 bound (tokenNl "=" *> exprList g) (tokenNl "=" *> exprList g') :=
    (hS.tokenNl (by decide)).zero.seqRight (tracks_exprList hS hg)
  refine (Tracks.sepBy1 hS.ident (hS.tokenNl (by decide))).zero.bind fun _ =>
    hg.type.opt.bind fun t =>
    hvalues.opt.give fun values => ?_
  cases values <;> simp [move, Spec.move, moveExpr?_eq_map, moveExprs_eq_map]

theorem tracks_typeSpec : Level S (d + 1) 0 bound (typeSpec g) (typeSpec g') :=
  hS.ident.zero.bind fun _ => (hS.token (by decide)).opt.bind fun equals => hg.type.give fun _ => by
    cases equals <;> rfl

theorem tracks_genDecl : Level S (d + 1) 1 (bound + 1) (genDecl g) (genDecl g') :=
  .orElse (tracks_declOf hS _ (tracks_valueSpec hS hg))
    (.orElse (tracks_declOf hS _ (tracks_valueSpec hS hg))
    (tracks_declOf hS _ (tracks_typeSpec hS hg)))

theorem tracks_returnStmt : Level S (d + 1) 1 (bound + 1) (returnStmt g) (returnStmt g') :=
  (hS.keyword (by decide)).andThen₁ fun _ => (tracks_exprList hS hg).opt.give fun results => by
    cases results <;> simp [move, Stmt.move, moveExprs_eq_map]

theorem tracks_labeledStmt : Level S (d + 1) 1 (bound + 1) (labeledStmt g) (labeledStmt g') :=
  hS.ident.andThen₁ fun _ => hS.labelColon.bind fun _ => hg.stmt.give fun _ => rfl

theorem tracks_headerExpr : Level S (d + 1) 0 bound (headerExpr g) (headerExpr g') :=
  (tracks_spine hS hg true 0).less.zero

theorem tracks_headerSimple : Level S (d + 1) 0 bound (headerSimple g) (headerSimple g') :=
  tracks_simpleStmt hS (tracks_headerExpr hS hg)

theorem tracks_headerInit : Level S (d + 1) 0 bound (headerInit g) (headerInit g') :=
  (tracks_headerSimple hS hg).seqLeft (hS.token (by decide))

theorem tracks_blockStmt : Level S (d + 1) 1 (bound + 1) (do return Stmt.block (← block g))
    (do return Stmt.block (← block g')) := (tracks_block hS hg).give fun _ => rfl

theorem tracks_conditional : Level S (d + 1) 1 (bound + 1) (conditional g) (conditional g') := by
  have hother : Level S (d + 1) 0 bound
      (keyword "else" *> (g.conditional <|> (do return .block (← block g))))
      (keyword "else" *> (g'.conditional <|> (do return .block (← block g')))) :=
    (hS.keyword (by decide)).zero.seqRight
      (.orElse hg.conditional (tracks_blockStmt hS hg).less.zero)
  refine (hS.keyword (by decide)).andThen₁ fun _ => (tracks_headerInit hS hg).opt.bind fun init =>
    (tracks_headerExpr hS hg).bind fun _ => (tracks_block hS hg).less.bind fun _ =>
      hother.opt.give fun other => ?_
  simp [move, Stmt.move, moveStmt?_eq_map]

theorem tracks_clauseBody : Level S (d + 1) 0 bound (clauseBody g) (clauseBody g') :=
  .sepEndBy hg.stmt hS.separator

omit hg in
theorem tracks_clauseColon :
    Level S (d + 1) 1 bound (token ":" <* blanksNl) (token ":" <* blanksNl) :=
  (hS.token (by decide)).seqLeft hS.blanksNl

theorem tracks_caseClause : Level S (d + 1) 1 (bound + 1) (caseClause g) (caseClause g') := by
  refine .bind₁ (.orElse ((hS.keyword (by decide)).andThen₁ fun _ =>
    (tracks_exprList hS hg).give fun _ => rfl)
    ((hS.keyword (by decide)).give fun _ => rfl)) fun _ => (tracks_clauseColon hS).bind fun _ =>
      (tracks_clauseBody hS hg).give fun _ => ?_
  simp [move, Stmt.move, moveExprs_eq_map, moveStmts_eq_map]

theorem tracks_commClause : Level S (d + 1) 1 (bound + 1) (commClause g) (commClause g') := by
  refine .bind₁ (.orElse ((hS.keyword (by decide)).andThen₁ fun _ =>
    (tracks_simpleStmt hS hg.expr).give fun _ => rfl)
    ((hS.keyword (by decide)).give fun _ => rfl)) fun _ => (tracks_clauseColon hS).bind fun _ =>
      (tracks_clauseBody hS hg).give fun _ => ?_
  simp [move, Stmt.move, moveStmt?_eq_map, moveStmts_eq_map]

omit hS hg in
theorem isTypeGuard_move (f : Nat → Nat) (s : Stmt) : isTypeGuard (s.move f) = isTypeGuard s := by
  cases s with
  | expr x =>
    cases x with
    | assertion _ _ t _ => cases t <;> rfl
    | _ => rfl
  | assign lhs _ op rhs =>
    match lhs, rhs with
    | [], _ | _ :: _ :: _, _ | [_], [] | [_], _ :: _ :: _ =>
      simp [isTypeGuard, Stmt.move, moveExprs]
    | [_], [x] =>
      cases x with
      | assertion _ _ t _ => cases op <;> cases t <;> rfl
      | _ => cases op <;> rfl
  | _ => rfl

omit hS hg in
theorem isTag_move (f : Nat → Nat) (s : Stmt) : isTag (s.move f) = isTag s := by
  unfold isTag
  rw [isTypeGuard_move]
  cases s <;> rfl

omit hS hg in
theorem buildSwitch_move (f : Nat → Nat) (switchPos : Pos) (init tag : Option Stmt) (body : Block) :
    (buildSwitch switchPos init tag body).move f =
      buildSwitch (move f switchPos) (move f init) (move f tag) (move f body) := by
  cases tag with
  | none => simp [buildSwitch, Stmt.move, move, moveStmt?_eq_map, moveExpr?]
  | some tag =>
    have htag := isTypeGuard_move f tag
    by_cases hg : isTypeGuard tag = true
    · simp [buildSwitch, Stmt.move, move, moveStmt?_eq_map, htag, hg]
    · cases tag <;> simp_all [buildSwitch, Stmt.move, move, moveStmt?_eq_map, moveExpr?]

theorem tracks_switchStmt : Level S (d + 1) 1 (bound + 1) (switchStmt g) (switchStmt g') := by
  have htag : Level S (d + 1) 0 bound (do let tag ← headerSimple g; guard (isTag tag); return tag)
      (do let tag ← headerSimple g'; guard (isTag tag); return tag) :=
    (tracks_headerSimple hS hg).bind fun tag =>
      (Tracks.guarded (by rw [← isTag_move S.shift tag]; rfl)).give fun _ => rfl
  refine (hS.keyword (by decide)).andThen₁ fun _ => (tracks_headerInit hS hg).opt.bind fun _ =>
    htag.opt.bind fun _ =>
    (hS.opensNl (by simp)).bind fun _ => (tracks_caseClause hS hg).less.many.lift.bind fun list =>
      (hS.closes (by simp)).give fun _ => (buildSwitch_move ..).trans ?_
  exact congrArg (fun list => buildSwitch _ _ _ ⟨_, list, _⟩) (moveStmts_eq_map _ list)

theorem tracks_selectStmt : Level S (d + 1) 1 (bound + 1) (selectStmt g) (selectStmt g') :=
  (hS.keyword (by decide)).andThen₁ fun _ => (hS.opensNl (by simp)).bind fun _ =>
    (tracks_commClause hS hg).less.many.lift.bind fun list => (hS.closes (by simp)).give fun _ =>
      congrArg (fun list => Stmt.select _ ⟨_, list, _⟩) (moveStmts_eq_map _ list)

theorem tracks_loopHead : Level S (d + 1) 0 bound (loopHead g) (loopHead g') := by
  have hvars : Level S (d + 1) 0 bound (rangeVars g) (rangeVars g') :=
    (tracks_headerExpr hS hg).bind fun _ =>
      ((hS.token (by decide)).zero.seqRight (tracks_headerExpr hS hg)).opt.bind fun _ =>
        (hS.assignOp _).give fun _ => rfl
  refine .orElse (c := false) ?range (.orElse (c := false) (b := false) ?clause ?cond)
  case range => exact hvars.opt.bind fun _ => (hS.keyword (by decide)).bind fun _ =>
    (tracks_headerExpr hS hg).give fun _ => rfl
  case clause =>
    exact (tracks_headerSimple hS hg).opt.bind fun _ => (hS.token (by decide)).bind fun _ =>
      (tracks_headerExpr hS hg).opt.bind fun _ => (hS.token (by decide)).bind fun _ =>
        (tracks_headerSimple hS hg).opt.give fun _ => rfl
  case cond => exact (tracks_headerExpr hS hg).give fun _ => rfl

theorem tracks_forStmt : Level S (d + 1) 1 (bound + 1) (forStmt g) (forStmt g') := by
  rw [forStmt_eq, forStmt_eq]
  refine (hS.keyword (by decide)).andThen₁ fun forPos =>
    (tracks_loopHead hS hg).opt.bind fun head =>
    (tracks_block hS hg).less.give fun body => (LoopHead.close_move ..).trans ?_
  cases head <;> rfl

/-- A statement may begin with an expression or be a conditional, at the same place. -/
theorem tracks_stmt {limit : Nat} (hlimit : limit ≤ bound + 1)
    (hexpr : Level S (d + 1) 0 limit g.expr g'.expr)
    (hcond : Level S (d + 1) 0 limit g.conditional g'.conditional) :
    Level S (d + 1) 0 limit (stmt g) (stmt g') := by
  have hle : ∀ {p p' : Parser Stmt}, Level S (d + 1) 1 (bound + 1) p p' →
      Level S (d + 1) 0 limit p p' := fun h => h.le (Nat.zero_le _) hlimit
  have hgo : Level S (d + 1) 1 (bound + 1) (goStmt g) (goStmt g') :=
    (hS.keyword (by decide)).andThen₁ fun _ => hg.expr.give fun _ => rfl
  have hdefer : Level S (d + 1) 1 (bound + 1) (deferStmt g) (deferStmt g') :=
    (hS.keyword (by decide)).andThen₁ fun _ => hg.expr.give fun _ => rfl
  have hdecl : Level S (d + 1) 1 (bound + 1) (do return Stmt.decl (← genDecl g))
      (do return Stmt.decl (← genDecl g')) := (tracks_genDecl hS hg).give fun _ => rfl
  exact .orElse (hle hdecl) (.orElse (hle (tracks_returnStmt hS hg))
    (.orElse (tracks_jumpStmt hS) (.orElse hcond
    (.orElse (hle (tracks_switchStmt hS hg)) (.orElse (hle (tracks_selectStmt hS hg))
      (.orElse (hle (tracks_forStmt hS hg))
      (.orElse (hle hgo) (.orElse (hle hdefer) (.orElse (hle (tracks_blockStmt hS hg))
        (.orElse (hle (tracks_labeledStmt hS hg)) (tracks_simpleStmt hS hexpr)))))))))))

theorem Rules.Alike.next {limit : Nat} (hlimit : limit ≤ bound + 1)
    (hexpr : ∀ {d}, Level S (d + 1) 0 limit g.expr g'.expr)
    (hcond : ∀ {d}, Level S (d + 1) 0 limit g.conditional g'.conditional) :
    Rules.Alike S limit g.next g'.next where
  expr := (tracks_spine hS hg false 0).le (Nat.zero_le _) hlimit
  type := (tracks_type hS hg).le (Nat.zero_le _) hlimit
  stmt := tracks_stmt hS hg hlimit hexpr hcond
  elements := (tracks_elements hS hg).le (Nat.le_refl _) hlimit
  conditional := (tracks_conditional hS hg).le (Nat.zero_le _) hlimit

end Statements

section Rules

variable {S : Lockstep}

theorem Rules.Alike.vacuous {bound : Nat} {g g' : Rules} (hg : Rules.Alike S bound g g')
    (h : Rules) :
    Rules.Alike S 0 g h where
  expr := hg.expr.vacuous _
  type := hg.type.vacuous _
  stmt := hg.stmt.vacuous _
  elements := hg.elements.vacuous _
  conditional := hg.conditional.vacuous _

theorem rules_alike_zero (hS : S.Lawful) (n : Nat) (h : Rules) : Rules.Alike S 0 (rules n) h := by
  have hfail : ∀ {α : Type} [Movable α] (d take : Nat),
      Level S d take 0 (failure : Parser α) failure :=
    fun _ _ => { tidy := fun _ h => (nomatch h), runs := fun _ _ _ => rfl }
  induction n with
  | zero => exact (Rules.Alike.mk (hfail _ _) (hfail _ _) (hfail _ _) (hfail _ _) (hfail _ _) :
      Rules.Alike S 0 Rules.none Rules.none).vacuous h
  | succ n ih => exact (ih.next hS (Nat.zero_le _) ih.expr ih.conditional).vacuous h

/-- On texts of less than `bound` characters the rules run in step from twice that depth on. -/
theorem rules_alike (hS : S.Lawful) (bound i j : Nat) :
    Rules.Alike S bound (rules (2 * bound + i)) (rules (2 * bound + j)) := by
  induction bound generalizing i j with
  | zero => exact rules_alike_zero hS _ _
  | succ bound ih =>
    -- an expression that opens a statement is read with the rules of one level less
    have hnext : ∀ i, rules (2 * (bound + 1) + i) = (rules (2 * bound + (i + 1))).next :=
      fun i => by
      rw [show 2 * (bound + 1) + i = (2 * bound + (i + 1)) + 1 by omega]
      rfl
    rw [hnext, hnext]
    exact (ih (i + 1) (j + 1)).next hS (Nat.le_refl _) ((tracks_spine hS (ih i j) false 0).zero)
      (tracks_conditional hS (ih i j)).zero

end Rules

end Grammar

end GoFun
