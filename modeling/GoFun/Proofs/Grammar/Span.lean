import GoFun.Proofs.Grammar.InStep
import GoFun.Proofs.Source.Cover
import GoFun.Tree.Extent

/-!
# Where expressions begin and end

What is read as an expression or a type begins at the cursor and ends with a solid piece: a name, a
literal or a closing bracket. Behind it there are only blanks. `Way stop n s` says that the pieces
lead from `s` to the end `stop` of a solid one, `Spans` that a parser moves along such a way, and
where its value ends. `Conveys` is for the parts of a rule in front of the last one.
-/
namespace GoFun

open Parser Grammar Lex

variable {n m : Nat} {s t : Cursor} {α β : Type} {sym : String} {e : Expr} {p : Parser α}
  {q : Parser β}

namespace Lex

def isSolid (k : Kind) (p : List Char) : Bool :=
  match k with
  | .word => String.ofList p ∉ keywords
  | .number | .string | .char => true
  | .sign => p.all isClosing
  | .blank | .comment | .dots => false

theorem Turns.add {k : Kind} {p : List Char} (h : Turns k p n m) (j : Nat) :
    Turns k p (j + n) (j + m) := by
  cases h with
  | opening h => exact .opening h
  | closing h => exact .closing h
  | level h => exact .level h

end Lex

/-- The pieces from a cursor to `stop`, the last of which is solid. There are `n` closing brackets
among them without their opening ones. -/
inductive Way (stop : Cursor) : Nat → Cursor → Prop
  | last {o : Nat} {cs p r : List Char} {k : Lex.Kind} {n : Nat} (hn : Lex.next cs = some (k, p, r))
      (ht : Lex.Turns k p n 0) (hs : Lex.isSolid k p = true) (he : stop = ⟨o + utf8Length p, r⟩) :
      Way stop n ⟨o, cs⟩
  | piece {o : Nat} {cs p r : List Char} {k : Lex.Kind} {n m : Nat}
      (hn : Lex.next cs = some (k, p, r))
      (ht : Lex.Turns k p n m) (h : Way stop m ⟨o + utf8Length p, r⟩) : Way stop n ⟨o, cs⟩

theorem Trail.way {w : Cursor} {ls : List Leaf} (h : Trail false t n s ls) (hw : Way w m t) :
    Way w (m + n) s := by
  induction h with
  | stop => exact hw
  | piece hn ht _ ih => exact .piece hn (ht.add m) ih
  | dot hi => cases hi

theorem Skips.way {u w : Cursor} (h : Skips u t) (hw : Way w n t) : Way w n u :=
  (h.trail (b := false) .stop).way hw

/-- There are `n` brackets to close from `s` on. The text goes up to a solid piece that ends at
`stop`, and then there are blanks up to `t`. -/
def Stretch (n : Nat) (s t : Cursor) (stop : Pos) : Prop :=
  ∃ w, Way w n s ∧ blanks w = some ((), t) ∧ stop = some w.offset

/-- What `p` reads from the depth `n` to the depth `m` is carried along by what follows it. -/
def Conveys {α : Type} (n m : Nat) (p : Parser α) : Prop :=
  ∀ s a t, Trimmed s → p s = some (a, t) → Trimmed t ∧ ∀ w, Way w m t → Way w n s

def Spans {α : Type} (n : Nat) (p : Parser α) (stop : α → Pos) : Prop :=
  ∀ s a t, Trimmed s → p s = some (a, t) → Stretch n s t (stop a)

theorem Spends.conveys {Q : α → List Token → List Leaf → Prop} (h : Spends false 0 0 p Q)
    (n : Nat) : Conveys n n p := by
  intro s a t hs ha
  obtain ⟨_, _, hcross, -⟩ := h s a t hs ha
  exact ⟨hcross.trimmed, fun w hw => hcross.toTrail.way hw⟩

theorem Conveys.of_bracket {c : Char} (hc : IsBracket sym c) (hturn : Turns .sign [c] n m)
    (hp : ∀ s a t, p s = some (a, t) → Spells sym s t) : Conveys n m p := by
  rintro ⟨o, cs⟩ a t - ha
  obtain ⟨⟨o', r⟩, hr, ho, hu⟩ := hp _ a t ha
  obtain rfl : cs = c :: r := by simpa [hc.text] using hr
  obtain rfl : o' = o + utf8Length [c] := by simpa [hc.text] using ho
  exact ⟨hu.trimmed, fun w hw => .piece (hc.next r) hturn (hu.way hw)⟩

theorem Conveys.of_opening {α : Type} {n : Nat} {p : Parser α} {sym : String}
    (hsym : sym ∈ ["(", "[", "\x7b"])
    (hp : ∀ s a t, p s = some (a, t) → Spells sym s t) : Conveys n (n + 1) p := by
  obtain ⟨c, hc, hopen, -⟩ := isBracket_of_opening hsym
  exact .of_bracket hc (.opening hopen) hp

theorem Conveys.of_closing {α : Type} {n : Nat} {p : Parser α} {sym : String}
    (hsym : sym ∈ [")", "]", "\x7d"])
    (hp : ∀ s a t, p s = some (a, t) → Spells sym s t) : Conveys (n + 1) n p := by
  obtain ⟨c, hc, hclose, -⟩ := isBracket_of_closing hsym
  exact .of_bracket hc (.closing hclose) hp

namespace Spans

variable {α β γ : Type} {n m : Nat} {p p' : Parser α} {q : Parser β} {f : α → Pos} {h : γ → Pos}

theorem after {k : β → Parser α} (hq : Conveys n m q) (hp : ∀ b, Spans m (k b) f) :
    Spans n (q >>= k) f := by
  intro s a t hs ha
  obtain ⟨b, u, hb, ha⟩ := bind_eq_some ha
  obtain ⟨hu, hway⟩ := hq s b u hs hb
  obtain ⟨w, hw, ht, hstop⟩ := hp b u a t hu ha
  exact ⟨w, hway w hw, ht, hstop⟩

theorem give {F : α → γ} (hp : Spans n p f) (hF : ∀ a, h (F a) = f a) :
    Spans n (p >>= fun a => pure (F a)) h := by
  intro s x t hs hx
  obtain ⟨a, ha, rfl⟩ := give_eq_some hx
  rw [hF]
  exact hp s a t hs ha

theorem orElse (hp : Spans n p f) (hp' : Spans n p' f) : Spans n (p <|> p') f := by
  intro s a t hs ha
  rcases orElse_eq_some ha with ha | ⟨-, ha⟩
  · exact hp s a t hs ha
  · exact hp' s a t hs ha

theorem thenOpt {k : α → Option β → Parser γ} {g : α → β → Pos} (hp : Spans n p f)
    (hc : Conveys n m p) (hq : ∀ a, Spans m q (g a))
    (hnone : ∀ a, ∃ x, k a none = pure x ∧ h x = f a)
    (hsome : ∀ a b, ∃ x, k a (some b) = pure x ∧ h x = g a b) :
    Spans n (p >>= fun a => optional q >>= k a) h := by
  intro s x t hs hx
  obtain ⟨a, u, ha, hx⟩ := bind_eq_some hx
  obtain ⟨o, v, ho, hx⟩ := bind_eq_some hx
  obtain ⟨hu, hway⟩ := hc s a u hs ha
  rcases optional_cases ho with ⟨b, hb, rfl⟩ | ⟨rfl, rfl⟩
  · obtain ⟨y, hy, hstop⟩ := hsome a b
    rw [hy] at hx
    obtain ⟨rfl, rfl⟩ := result_inj hx
    obtain ⟨w, hw, hv, hg⟩ := hq a u b v hu hb
    exact ⟨w, hway w hw, hv, hstop.trans hg⟩
  · obtain ⟨y, hy, hstop⟩ := hnone a
    rw [hy] at hx
    obtain ⟨rfl, rfl⟩ := result_inj hx
    rw [hstop]
    exact hp s a u hs ha

end Spans

/-! ### Values that are read in rounds -/

/-- What `p` and some rounds of `q` read, though there may be more rounds. -/
def Begins {α β : Type} (p : Parser α) (q : Parser β) (f : α → β → α) (s : Cursor) (a : α)
    (t : Cursor) : Prop :=
  ∃ x u bs, p s = some (x, u) ∧ Rounds q u bs t ∧ a = bs.foldl f x

theorem Parser.rounds_manyFrom (q : Parser β) (s : Cursor) :
    Rounds q s (manyFrom q s).1 (manyFrom q s).2 := by
  fun_induction manyFrom q s with
  | case1 s hq | case3 s a next hq hlt => exact .nil _
  | case2 s a next hq hlt as last hrest ih =>
    rw [hrest] at ih
    exact .cons hq hlt ih

theorem Rounds.split {as bs : List β} (h : Rounds q s (as ++ bs) t) :
    ∃ u, Rounds q s as u ∧ Rounds q u bs t := by
  induction as generalizing s with
  | nil => exact ⟨s, .nil s, h⟩
  | cons a as ih =>
    cases h with
    | cons first takes others =>
      obtain ⟨u, hu, ht⟩ := ih others
      exact ⟨u, .cons first takes hu, ht⟩

theorem Conveys.rounds (hq : Conveys n n q) {bs : List β} (h : Rounds q s bs t) (hs : Trimmed s) :
    Trimmed t ∧ ∀ w, Way w n t → Way w n s := by
  induction h with
  | nil => exact ⟨hs, fun _ hw => hw⟩
  | cons first _ _ ih =>
    obtain ⟨hu, hway⟩ := hq _ _ _ hs first
    obtain ⟨ht, hway'⟩ := ih hu
    exact ⟨ht, fun w hw => hway w (hway' w hw)⟩

namespace Begins

variable {α β : Type} {p : Parser α} {q : Parser β} {f : α → β → α} {s t : Cursor} {a : α}

theorem of_many (h : (p >>= fun x => many q >>= fun bs => pure (bs.foldl f x)) s = some (a, t)) :
    Begins p q f s a t := by
  obtain ⟨x, u, hx, h⟩ := bind_eq_some h
  obtain ⟨bs, hbs, rfl⟩ := give_eq_some h
  have hm : manyFrom q u = (bs, t) := Option.some.inj hbs
  refine ⟨x, u, bs, hx, ?_, rfl⟩
  have hr := rounds_manyFrom q u
  rwa [hm] at hr

/-- A value without rounds is the first one, any other is joined from one with a round less. -/
theorem cases_snoc (h : Begins p q f s a t) : p s = some (a, t) ∨
    ∃ a' b u, Begins p q f s a' u ∧ q u = some (b, t) ∧ a = f a' b := by
  obtain ⟨x, u, bs, hx, hr, rfl⟩ := h
  rcases List.eq_nil_or_concat bs with rfl | ⟨bs, b, rfl⟩
  · cases hr
    exact .inl hx
  · rw [List.concat_eq_append] at hr ⊢
    obtain ⟨v, hv, hb⟩ := hr.split
    cases hb with
    | cons first takes others =>
      cases others
      exact .inr ⟨_, b, v, ⟨x, u, bs, hx, hv, rfl⟩, first, by rw [List.foldl_append]; rfl⟩

theorem way (h : Begins p q f s a t) (hs : Trimmed s) (hp : Conveys n n p) (hq : Conveys n n q) :
    Trimmed t ∧ ∀ w, Way w n t → Way w n s := by
  obtain ⟨x, u, bs, hx, hr, -⟩ := h
  obtain ⟨hu, hway⟩ := hp s x u hs hx
  obtain ⟨ht, hway'⟩ := hq.rounds hr hu
  exact ⟨ht, fun w hw => hway w (hway' w hw)⟩

theorem stretch {stop : α → Pos} {stop' : β → Pos} (h : Begins p q f s a t) (hs : Trimmed s)
    (hp : Spans n p stop) (hq : Spans n q stop') (hcp : Conveys n n p) (hcq : Conveys n n q)
    (hf : ∀ x b, stop (f x b) = stop' b) :
    Stretch n s t (stop a) := by
  rcases h.cases_snoc with ha | ⟨a', b, u, hbegins, hb, rfl⟩
  · exact hp s a t hs ha
  · obtain ⟨hu, hway⟩ := hbegins.way hs hcp hcq
    obtain ⟨w, hw, ht, hstop⟩ := hq u b t hu hb
    exact ⟨w, hway w hw, ht, (hf a' b).trans hstop⟩

end Begins

namespace Grammar

/-! ### Tokens -/

theorem spans_ident : Spans 0 ident Ident.stop := by
  intro s id t hs h
  obtain ⟨x, u, hx, h⟩ := bind_eq_some h
  obtain ⟨⟨⟩, u', hg, h⟩ := bind_eq_some h
  obtain ⟨rfl, ht⟩ := skip_eq_some h
  obtain ⟨r, hw, ho, rfl⟩ := lexeme_eq_some hx
  obtain ⟨hk, rfl⟩ := guard_eq_some hg
  refine ⟨_, .last (next_of_lexer (k := .word) rfl hw) (.level (by simp)) ?_ rfl, ht, ?_⟩
  · simpa [isSolid] using hk
  · simp [Ident.stop, Pos.plus, utf8ByteSize_eq, ho]

theorem spans_literal : Spans 0 literal fun l => Pos.plus l.pos l.text.utf8ByteSize := by
  have h : ∀ (k : Kind) (kind : List Char → LitKind), k.isPlain = true → (∀ p, isSolid k p = true) →
      k ≠ .sign →
      Spans 0 (literalOf kind k.lexer) fun l => Pos.plus l.pos l.text.utf8ByteSize := by
    intro k kind hplain hsolid hsign s l t hs h
    obtain ⟨x, u, hx, h⟩ := bind_eq_some h
    obtain ⟨rfl, ht⟩ := skip_eq_some h
    obtain ⟨r, hw, ho, rfl⟩ := lexeme_eq_some hx
    refine ⟨_, .last (next_of_lexer hplain hw) (.level fun _ _ hk => absurd hk hsign) (hsolid _)
      rfl, ht, ?_⟩
    simp [Pos.plus, utf8ByteSize_eq, ho]
  exact .orElse (h .number _ rfl (fun _ => rfl) (by decide))
    (.orElse (h .string _ rfl (fun _ => rfl) (by decide))
    (h .char _ rfl (fun _ => rfl) (by decide)))

theorem spans_close {sym : String} (hsym : sym ∈ [")", "]", "\x7d"]) :
    Spans 1 (token sym) fun pos => Pos.plus pos 1 := by
  obtain ⟨c, hc, hclose, -⟩ := isBracket_of_closing hsym
  rintro ⟨o, cs⟩ a t hs h
  obtain ⟨x, u, hx, h⟩ := bind_eq_some h
  obtain ⟨rfl, ht⟩ := skip_eq_some h
  obtain ⟨ho, hr, hu⟩ := text_eq_some hx
  rw [hc.text] at hr hu
  obtain rfl : cs = c :: u.rest := hr
  refine ⟨u, .last (hc.next _) (.closing hclose) (by simp [isSolid, hclose]) ?_, ht, ?_⟩
  · rw [← hu]
  · simp [Pos.plus, ho, hu, hc.size]

theorem conveys_open {sym : String} {n : Nat} (hsym : sym ∈ ["(", "[", "\x7b"]) :
    Conveys n (n + 1) (token sym) :=
  .of_opening hsym fun _ _ _ ha => (token_eq_some ha).2

theorem conveys_openNl {sym : String} {n : Nat} (hsym : sym ∈ ["(", "[", "\x7b"]) :
    Conveys n (n + 1) (tokenNl sym) :=
  .of_opening hsym fun _ _ _ ha => (tokenNl_eq_some ha).2

theorem conveys_close {sym : String} {n : Nat} (hsym : sym ∈ [")", "]", "\x7d"]) :
    Conveys (n + 1) n (token sym) :=
  .of_closing hsym fun _ _ _ ha => (token_eq_some ha).2

theorem conveys_keyword {w : String} (hw : w ∈ keywords) : Conveys n n (keyword w) :=
  (consumes_keyword hw).conveys n

/-- A dot in front of something that begins with neither a digit nor a dot. -/
theorem spans_dot {dot : Parser Pos} {f : Pos → Parser α} {stop : α → Pos}
    (hdot : ∀ s a t, dot s = some (a, t) → Spells "." s t) (hf : ∀ a, Spans n (f a) stop)
    (hstop : ∀ a s x t, f a s = some (x, t) → Stops (fun d => isDigit d || d == '.') s.rest) :
    Spans n (dot >>= f) stop := by
  rintro ⟨o, cs⟩ x t hs hx
  obtain ⟨a, v, ha, hfa⟩ := bind_eq_some hx
  obtain ⟨r, -, hnext, hu⟩ := (hdot _ a v ha).next_dot (hstop a v x t hfa)
  obtain ⟨w, hw, ht, hend⟩ := hf a v x t hu.trimmed hfa
  exact ⟨w, .piece hnext (turns_dot _) (hu.way hw), ht, hend⟩

/-! ### Types and signatures -/

theorem spans_typeName : Spans 0 typeName Expr.stop := by
  have hsel : Spans 0 (token "." *> ident) Ident.stop :=
    spans_dot (f := fun _ => ident) (fun _ _ _ h => (token_eq_some h).2) (fun _ => spans_ident)
      fun _ _ _ _ h => ident_stops h
  exact spans_ident.thenOpt (consumes_ident.conveys 0) (fun _ => hsel) (fun x => ⟨_, rfl, rfl⟩)
    fun x sel => ⟨_, rfl, rfl⟩

structure Rules.Spanned (g : Rules) : Prop where
  spelled : g.Spelled false
  type : Spans 0 g.type Expr.stop
  elements : Spans 0 g.elements fun x => Pos.plus x.rbrace 1

section Types

variable {g : Rules} (hg : g.Spanned)

include hg

theorem conveys_type (n : Nat) : Conveys n n g.type := hg.spelled.type.conveys n

theorem spans_params : Spans 0 (params g) fun l => Pos.plus l.closing 1 :=
  .after (conveys_openNl (by simp)) fun _ =>
    .after ((Spends.sepEndBy (spends_param hg.spelled) spends_comma).conveys 1) fun _ =>
      .after (spends_blanksNl.conveys 1) fun _ => (spans_close (by simp)).give fun _ => rfl

theorem spans_results (funcPos : Pos) (params : FieldList) :
    Spans 0 (results g) fun r => FuncType.stop ⟨funcPos, params, some r⟩ := by
  refine .orElse (fun s r t hs hr => ?_) (hg.type.give fun _ => by obtain ⟨_, _, _⟩ := params; rfl)
  obtain ⟨w, hw, ht, hstop⟩ := spans_params hg s r t hs hr
  refine ⟨w, hw, ht, ?_⟩
  obtain ⟨opening, list, closing⟩ := r
  obtain ⟨_, _, _⟩ := params
  have hsome : closing.isSome = true := by
    cases closing with
    | none => cases hstop
    | some _ => rfl
  simpa [FuncType.stop, hsome] using hstop

theorem spans_signature (funcPos : Pos) : Spans 0 (signature g funcPos) FuncType.stop := by
  refine (spans_params hg).thenOpt ((consumes_params hg.spelled).conveys 0)
    (spans_results hg funcPos) (fun params => ?_) fun params r => ⟨_, rfl, rfl⟩
  obtain ⟨_, _, _⟩ := params
  exact ⟨_, rfl, rfl⟩

theorem spans_pointerType : Spans 0 (pointerType g) Expr.stop :=
  .after ((consumes_token (by decide)).conveys 0) fun _ => hg.type.give fun _ => rfl

theorem spans_arrayType : Spans 0 (arrayType g) Expr.stop := by
  exact .after (conveys_openNl (by simp)) fun _ =>
    .after ((consumes_length hg.spelled).opt.conveys 1) fun _ =>
    .after (conveys_close (by simp)) fun _ => hg.type.give fun _ => rfl

theorem spans_mapType : Spans 0 (mapType g) Expr.stop :=
  .after (conveys_keyword (by decide)) fun _ => .after (conveys_open (by simp)) fun _ =>
    .after (conveys_type hg 1) fun _ =>
    .after (conveys_close (by simp)) fun _ => hg.type.give fun _ => rfl

theorem spans_chanType : Spans 0 (chanType g) Expr.stop :=
  .after (consumes_chanDir.conveys 0) fun _ => hg.type.give fun _ => rfl

theorem spans_structType : Spans 0 (structType g) Expr.stop :=
  .after (conveys_keyword (by decide)) fun _ => .after (conveys_openNl (by simp)) fun _ =>
    .after ((Consumes.sepEndBy (consumes_structField hg.spelled) spends_separator).conveys 1)
      fun _ =>
      (spans_close (by simp)).give fun _ => rfl

theorem spans_interfaceType : Spans 0 (interfaceType g) Expr.stop :=
  .after (conveys_keyword (by decide)) fun _ => .after (conveys_openNl (by simp)) fun _ =>
    .after ((Consumes.sepEndBy (consumes_methodSpec hg.spelled) spends_separator).conveys 1)
      fun _ =>
      (spans_close (by simp)).give fun _ => rfl

theorem spans_funcType : Spans 0 (funcType g) FuncType.stop :=
  .after (conveys_keyword (by decide)) fun _ => spans_signature hg _

theorem spans_parenType : Spans 0 (parenType g) Expr.stop :=
  .after (conveys_open (by simp)) fun _ => .after (conveys_type hg 1) fun _ =>
    (spans_close (by simp)).give fun _ => rfl

theorem spans_type : Spans 0 (type g) Expr.stop :=
  .orElse spans_typeName (.orElse (spans_pointerType hg)
    (.orElse (spans_arrayType hg) (.orElse (spans_mapType hg)
    (.orElse (spans_chanType hg) (.orElse (spans_structType hg) (.orElse (spans_interfaceType hg)
      (.orElse ((spans_funcType hg).give fun _ => rfl) (spans_parenType hg))))))))

/-! ### Expressions -/

theorem spans_block : Spans 0 (block g) fun b => Pos.plus b.rbrace 1 :=
  .after (conveys_openNl (by simp)) fun _ =>
    .after ((Consumes.sepEndBy hg.spelled.stmt spends_separator).conveys 1) fun _ =>
    (spans_close (by simp)).give fun _ => rfl

theorem spans_elements : Spans 0 (elements g) fun x => Pos.plus x.rbrace 1 :=
  .after (conveys_openNl (by simp)) fun _ =>
    .after ((Consumes.sepEndBy (consumes_keyedElement hg.spelled) spends_comma).conveys 1) fun _ =>
      .after (spends_blanksNl.conveys 1) fun _ => (spans_close (by simp)).give fun _ => rfl

theorem spans_funcLit : Spans 0 (funcLit g) Expr.stop :=
  (spans_funcType hg).thenOpt ((consumes_funcType hg.spelled).conveys 0) (fun _ => spans_block hg)
    (fun _ => ⟨_, rfl, rfl⟩)
    fun _ b => ⟨_, rfl, by obtain ⟨_, _, _⟩ := b; rfl⟩

theorem spans_literalType : Spans 0 (literalType g) Expr.stop := by
  have htype : Spans 0 (arrayType g <|> mapType g <|> structType g) Expr.stop :=
    .orElse (spans_arrayType hg) (.orElse (spans_mapType hg) (spans_structType hg))
  have hcarries : Conveys 0 0 (arrayType g <|> mapType g <|> structType g) :=
    (Consumes.orElse (consumes_arrayType hg.spelled)
      (.orElse (consumes_mapType hg.spelled) (consumes_structType hg.spelled))).conveys 0
  exact htype.thenOpt hcarries (fun _ => hg.elements) (fun _ => ⟨_, rfl, rfl⟩) fun _ _ =>
    ⟨_, rfl, rfl⟩

theorem spans_parenExpr : Spans 0 (parenExpr g) Expr.stop :=
  .after (conveys_openNl (by simp)) fun _ => .after (hg.spelled.expr.conveys 1) fun _ =>
    .after (spends_blanksNl.conveys 1) fun _ =>
    (spans_close (by simp)).give fun _ => rfl

theorem spans_operand : Spans 0 (operand g) Expr.stop :=
  .orElse (spans_literal.give fun _ => rfl)
    (.orElse (spans_funcLit hg) (.orElse (spans_literalType hg)
    (.orElse (spans_chanType hg) (.orElse (spans_interfaceType hg)
      (.orElse (spans_ident.give fun _ => rfl) (spans_parenExpr hg))))))

def Suffix.stop : Suffix → Pos
  | .selector sel => sel.stop
  | .index _ _ rbrack => Pos.plus rbrack 1
  | .slice _ _ _ _ rbrack => Pos.plus rbrack 1
  | .assertion _ _ rparen => Pos.plus rparen 1
  | .call _ _ _ rparen => Pos.plus rparen 1
  | .elements x => Pos.plus x.rbrace 1

omit hg in
theorem Suffix.stop_apply (x : Expr) (suf : Suffix) : (suf.apply x).stop = suf.stop := by
  cases suf <;> rfl

theorem spans_suffix : Spans 0 (suffix g) Suffix.stop := by
  refine .orElse ?assertion (.orElse ?selector (.orElse ?slice (.orElse ?index ?call)))
  case assertion =>
    refine spans_dot (fun _ _ _ h => (tokenNl_eq_some h).2)
      (fun _ => .after (conveys_open (by simp)) fun _ =>
      .after ((consumes_asked hg.spelled).conveys 1) fun _ => (spans_close (by simp)).give fun _ =>
        rfl) fun _ s x t h => ?_
    obtain ⟨_, _, hp, -⟩ := bind_eq_some h
    obtain ⟨u, hr, -⟩ := (token_eq_some hp).2
    rw [hr]
    exact (stops_cons _ _ _).2 (by decide)
  case selector =>
    refine spans_dot (fun _ _ _ h => (tokenNl_eq_some h).2) (fun _ => spans_ident.give fun _ => rfl)
      fun _ s x t h => ?_
    obtain ⟨_, _, hi, -⟩ := bind_eq_some h
    exact ident_stops hi
  case slice =>
    exact .after (conveys_openNl (by simp)) fun _ => .after (hg.spelled.expr.opt.conveys 1) fun _ =>
      .after ((consumes_tokenNl (by decide)).conveys 1) fun _ =>
        .after (hg.spelled.expr.opt.conveys 1) fun _ =>
        .after ((Consumes.opt (.seqRight (consumes_looseTokenNl (by decide))
          hg.spelled.expr)).conveys 1) fun _ =>
          (spans_close (by simp)).give fun _ => rfl
  case index =>
    exact .after (conveys_openNl (by simp)) fun _ => .after (hg.spelled.expr.conveys 1) fun _ =>
      (spans_close (by simp)).give fun _ => rfl
  case call =>
    exact .after (conveys_openNl (by simp)) fun _ =>
      .after ((Consumes.sepBy hg.spelled.expr spends_comma).conveys 1) fun _ =>
        .after ((consumes_dots tokenNl_eq_some).opt.conveys 1) fun _ =>
          .after (spends_comma.opt.conveys 1) fun _ => .after (spends_blanksNl.conveys 1) fun _ =>
            (spans_close (by simp)).give fun _ => rfl

theorem spans_tail (inHeader : Bool) : Spans 0 (tail g inHeader) Suffix.stop := by
  cases inHeader with
  | true => exact spans_suffix hg
  | false => exact .orElse (spans_suffix hg) (hg.elements.give fun _ => rfl)

theorem consumes_tail (inHeader : Bool) : Meets false (tail g inHeader) Suffix.tokens := by
  cases inHeader with
  | true => exact consumes_suffix hg.spelled
  | false => exact .orElse (consumes_suffix hg.spelled) (.bind hg.spelled.elements fun _ => .pure (by simp [Suffix.tokens]))

theorem stretch_primary {inHeader : Bool} (hs : Trimmed s)
    (h : Begins (operand g) (tail g inHeader) Suffix.apply s e t) :
    Stretch 0 s t e.stop :=
  h.stretch hs (spans_operand hg) (spans_tail hg inHeader) ((consumes_operand hg.spelled).conveys 0)
    ((consumes_tail hg inHeader).conveys 0) Suffix.stop_apply

theorem spans_primaryOf (inHeader : Bool) : Spans 0 (primaryOf g inHeader) Expr.stop :=
  fun _ _ _ hs he => stretch_primary hg hs (.of_many he)

omit hg in
theorem stop_applyLead (l : Pos × Lead) (x : Expr) : (applyLead l x).stop = x.stop := by
  unfold applyLead
  split <;> rfl

theorem consumes_primaryOf (inHeader : Bool) : Meets false (primaryOf g inHeader) Expr.tokens := by
  cases inHeader with
  | true => exact consumes_headerPrimary hg.spelled
  | false => exact consumes_primary hg.spelled

theorem spans_unaryExpr (inHeader : Bool) :
    Spans 0 (unaryExpr (primaryOf g inHeader)) Expr.stop := by
  refine .after (consumes_leads.conveys 0) fun before => (spans_primaryOf hg inHeader).give fun x =>
    ?_
  induction before with
  | nil => rfl
  | cons l before ih => exact (stop_applyLead ..).trans ih

def step (g : Rules) (inHeader : Bool) (k : Nat) : Parser ((Pos × BinaryOp) × Expr) := do
  return (← operatorOf (levelAt k), ← binding (primaryOf g inHeader) (k + 1))

theorem consumes_binding (inHeader : Bool) (k : Nat) :
    Meets false (binding (primaryOf g inHeader) k) Expr.tokens := by
  have hfold : ∀ (ls : List (List (BinaryOp × String))) (p : Parser Expr),
      Meets false p Expr.tokens →
      Meets false (ls.foldl (fun p level => chain p (operatorOf level) joinBinary) p)
        Expr.tokens := by
    intro ls
    induction ls with
    | nil => exact fun p hp => hp
    | cons level ls ih => exact fun p hp => ih _ (consumes_level level hp)
  exact hfold _ _ (consumes_unaryExpr (consumes_primaryOf hg inHeader))

theorem consumes_step (inHeader : Bool) (k : Nat) :
    Meets false (step g inHeader k) fun x => .placed x.1.1 x.1.2.symbol :: x.2.tokens :=
  .bind (consumes_operatorOf _) fun _ => .bind (consumes_binding hg inHeader (k + 1)) fun _ =>
    .pure (by simp)

theorem stretch_level {inHeader : Bool} {k : Nat} (hs : Trimmed s)
    (hp : Spans 0 (binding (primaryOf g inHeader) (k + 1)) Expr.stop)
    (h : Begins (binding (primaryOf g inHeader) (k + 1)) (step g inHeader k)
      (fun x st => joinBinary x st.1 st.2) s e t) :
    Stretch 0 s t e.stop := by
  have hstep : Spans 0 (step g inHeader k) fun x => x.2.stop :=
    .after ((consumes_operatorOf _).conveys 0) fun _ => hp.give fun _ => rfl
  exact h.stretch hs hp hstep ((consumes_binding hg inHeader (k + 1)).conveys 0)
    ((consumes_step hg inHeader k).conveys 0) fun _ _ => rfl

theorem spans_binding (inHeader : Bool) (k : Nat) :
    Spans 0 (binding (primaryOf g inHeader) k) Expr.stop := by
  have key : ∀ i ≤ 6, Spans 0 (binding (primaryOf g inHeader) (6 - i)) Expr.stop := by
    intro i
    induction i with
    | zero => exact fun _ => spans_unaryExpr hg inHeader
    | succ i ih =>
      intro hi
      rcases Nat.eq_or_lt_of_le hi with heq | hlt
      · obtain rfl : i = 5 := by omega
        exact ih (by omega)
      · intro s e t hs he
        rw [binding_eq_chain _ (by omega) (by omega)] at he
        refine stretch_level hg hs ?_ (.of_many he)
        rw [show 6 - (i + 1) + 1 = 6 - i by omega]
        exact ih (by omega)
  by_cases hk : k ≤ 6
  · have h := key (6 - k) (by omega)
    rwa [show 6 - (6 - k) = k by omega] at h
  · have h : binding (primaryOf g inHeader) k = binding (primaryOf g inHeader) 6 := by
      simp [binding, show 6 - k = 0 by omega]
    rw [h]
    exact key 0 (by omega)

theorem Rules.Spanned.next : g.next.Spanned := ⟨hg.spelled.next, spans_type hg, spans_elements hg⟩

end Types

theorem rules_spanned (depth : Nat) : (rules depth).Spanned := by
  induction depth with
  | zero => exact ⟨rules_spelled false 0, fun _ _ _ _ h => (nomatch h), fun _ _ _ _ h =>
    (nomatch h)⟩
  | succ depth ih => exact ih.next

end Grammar

/-! ### Where expressions begin -/

/-- The value that `p` reads begins at the cursor. -/
def Starts {α : Type} (p : Parser α) (start : α → Pos) : Prop :=
  ∀ s a t, p s = some (a, t) → start a = some s.offset

namespace Starts

variable {α β : Type} {p p' : Parser α} {f : α → Pos} {g : β → Pos}

theorem bind {k : α → Parser β} (h : Starts p f) (hk : ∀ a, Yields (k a) fun b => g b = f a) :
    Starts (p >>= k) g := by
  intro s b t hb
  obtain ⟨a, u, ha, hb⟩ := bind_eq_some hb
  exact (hk a u b t hb).trans (h s a u ha)

theorem orElse (h : Starts p f) (h' : Starts p' f) : Starts (p <|> p') f := by
  intro s a t ha
  rcases orElse_eq_some ha with ha | ⟨-, ha⟩
  · exact h s a t ha
  · exact h' s a t ha

end Starts

theorem Begins.start {f : α → β → α} {start : α → Pos} {a : α} (h : Begins p q f s a t)
    (hp : Starts p start) (hf : ∀ x b, start (f x b) = start x) : start a = some s.offset := by
  obtain ⟨x, u, bs, hx, -, rfl⟩ := h
  have hfold : start (bs.foldl f x) = start x := by
    clear hx
    induction bs generalizing x with
    | nil => rfl
    | cons b bs ih => exact (ih _).trans (hf x b)
  exact hfold.trans (hp s x u hx)

namespace Grammar

theorem starts_token (sym : String) : Starts (token sym) id := fun _ _ _ h => (token_eq_some h).1

theorem starts_tokenNl (sym : String) : Starts (tokenNl sym) id :=
  fun _ _ _ h => (tokenNl_eq_some h).1

theorem starts_keyword (w : String) : Starts (keyword w) id := fun _ _ _ h => (keyword_eq_some h).1

theorem starts_ident : Starts ident Ident.pos := fun _ _ _ h => by rw [(ident_eq_some h).1]

theorem starts_literal : Starts literal Literal.pos := by
  have h : ∀ (kind : List Char → LitKind) (l : Lexer), Starts (literalOf kind l) Literal.pos :=
    fun _ _ _ _ _ h => by rw [(literalOf_eq_some h).1]
  exact .orElse (h _ _) (.orElse (h _ _) (h _ _))

theorem starts_chanDir : Starts chanDir Prod.fst := by
  have hseq : ∀ {β : Type} {p : Parser Pos} {q : Parser β}, Starts p id → Starts (p <* q) id :=
    fun {_ _ q} hp =>
    Starts.bind (k := fun a => q >>= fun _ => pure a) hp fun _ => .after fun _ => .pure rfl
  exact .orElse (.bind (hseq (starts_keyword _)) fun _ => .pure rfl)
    (.orElse (.bind (starts_keyword _) fun _ => .pure rfl)
    (.bind (hseq (starts_token _)) fun _ => .pure rfl))

theorem starts_lead : Starts (tokenOf Lead.symbol leads <* blanks) Prod.fst := by
  intro s a t ha
  obtain ⟨x, u, hx, ha⟩ := bind_eq_some (f := fun a => blanks >>= fun _ => pure a) ha
  obtain ⟨rfl, -⟩ := skip_eq_some ha
  exact (tokenOf_eq_some hx).1

section Starts

variable (g : Rules)

theorem starts_typeName : Starts typeName Expr.start :=
  starts_ident.bind fun x => .after fun sel => by
    cases sel <;> exact .pure rfl

theorem starts_pointerType : Starts (pointerType g) Expr.start :=
  (starts_token _).bind fun _ => .after fun _ => .pure rfl

theorem starts_arrayType : Starts (arrayType g) Expr.start :=
  (starts_tokenNl _).bind fun _ => .after fun _ => .after fun _ => .after fun _ => .pure rfl

theorem starts_mapType : Starts (mapType g) Expr.start :=
  (starts_keyword _).bind fun _ => .after fun _ => .after fun _ => .after fun _ =>
    .after fun _ => .pure rfl

theorem starts_chanType : Starts (chanType g) Expr.start :=
  starts_chanDir.bind fun _ => .after fun _ => .pure rfl

theorem starts_structType : Starts (structType g) Expr.start :=
  (starts_keyword _).bind fun _ => .after fun _ => .after fun _ => .after fun _ => .pure rfl

theorem starts_interfaceType : Starts (interfaceType g) Expr.start :=
  (starts_keyword _).bind fun _ => .after fun _ => .after fun _ => .after fun _ => .pure rfl

theorem starts_funcType : Starts (funcType g) FuncType.funcPos :=
  (starts_keyword _).bind fun _ => .after fun _ => .after fun _ => .pure rfl

theorem starts_parenType : Starts (parenType g) Expr.start :=
  (starts_token _).bind fun _ => .after fun _ => .after fun _ => .pure rfl

theorem starts_type : Starts (type g) Expr.start :=
  .orElse starts_typeName (.orElse (starts_pointerType g)
    (.orElse (starts_arrayType g) (.orElse (starts_mapType g)
    (.orElse (starts_chanType g) (.orElse (starts_structType g) (.orElse (starts_interfaceType g)
      (.orElse ((starts_funcType g).bind fun t => .pure (by obtain ⟨_, _, _⟩ := t; rfl))
        (starts_parenType g))))))))

theorem starts_operand : Starts (operand g) Expr.start := by
  have hfunc : Starts (funcLit g) Expr.start :=
    (starts_funcType g).bind fun t => .after fun body => by
    obtain ⟨_, _, _⟩ := t
    cases body <;> exact .pure rfl
  have hliteral : Starts (literalType g) Expr.start :=
    Starts.bind (.orElse (starts_arrayType g) (.orElse (starts_mapType g) (starts_structType g)))
      fun t =>
      .after fun x => by cases x <;> exact .pure rfl
  have hparen : Starts (parenExpr g) Expr.start := (starts_tokenNl _).bind fun _ => .after fun _ =>
    .after fun _ => .after fun _ => .pure rfl
  exact .orElse (starts_literal.bind fun _ => .pure rfl)
    (.orElse hfunc (.orElse hliteral (.orElse (starts_chanType g)
    (.orElse (starts_interfaceType g) (.orElse (starts_ident.bind fun _ => .pure rfl) hparen)))))

theorem Suffix.start_apply (x : Expr) (suf : Suffix) : (suf.apply x).start = x.start := by
  cases suf <;> rfl

theorem start_primary {inHeader : Bool}
    (h : Begins (operand g) (tail g inHeader) Suffix.apply s e t) :
    e.start = some s.offset :=
  h.start (starts_operand g) Suffix.start_apply

theorem start_applyLead (l : Pos × Lead) (x : Expr) : (applyLead l x).start = l.1 := by
  unfold applyLead
  split <;> rfl

theorem starts_binding (inHeader : Bool) (k : Nat) :
    Starts (binding (primaryOf g inHeader) k) Expr.start := by
  have hunary : Starts (unaryExpr (primaryOf g inHeader)) Expr.start := by
    intro s e t he
    obtain ⟨before, u, hb, he⟩ := bind_eq_some he
    obtain ⟨x, hx, rfl⟩ := give_eq_some he
    have hm : manyFrom (tokenOf Lead.symbol leads <* blanks) s = (before, u) := Option.some.inj hb
    have hr := rounds_manyFrom (tokenOf Lead.symbol leads <* blanks) s
    rw [hm] at hr
    cases hr with
    | nil => exact start_primary g (.of_many hx)
    | cons first _ _ => exact (start_applyLead ..).trans (starts_lead _ _ _ first)
  have hfold : ∀ (ls : List (List (BinaryOp × String))) (p : Parser Expr), Starts p Expr.start →
      Starts (ls.foldl (fun p level => chain p (operatorOf level) joinBinary) p) Expr.start := by
    intro ls
    induction ls with
    | nil => exact fun p hp => hp
    | cons level ls ih => exact fun p hp => ih _ fun _ _ _ h => Begins.start (.of_many h) hp fun _ _ => rfl
  exact hfold _ _ hunary

end Starts

end Grammar

end GoFun
