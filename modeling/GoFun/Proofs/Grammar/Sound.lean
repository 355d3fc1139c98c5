import GoFun.Grammar.File
import GoFun.Proofs.Grammar.Yields
import GoFun.Proofs.Lex.Number
import GoFun.Proofs.Tree.Seat

/-!
# What is read is well-formed and arranged

Every rule of the grammar yields trees that are well-formed and whole, with all phrases in seats
that admit them, when the five open rules do. Closing the rules, depth by depth, keeps this, so it
holds of every file that is read.
-/
namespace GoFun

open List

variable {seat : Seat} {e : Expr}

/-- Well-formed and whole, with all phrases directly below in their seats. -/
def Phrase.Sound (n : Phrase) : Prop := n.Formed ∧ n.Arranged

/-- The phrase is admitted to the seat, and it is sound with all below it. -/
def SoundAt (seat : Seat) (n : Phrase) : Prop := seat.admits n = true ∧ Throughout Phrase.Sound n

/-! ### Lists of seats -/

/-- All phrases of a list are in their seats. -/
def AllSound (l : List (Seat × Phrase)) : Prop := ∀ x ∈ l, SoundAt x.1 x.2

@[simp] theorem allSound_nil : AllSound [] := by simp [AllSound]

@[simp] theorem allSound_cons (x : Seat × Phrase) (l : List (Seat × Phrase)) :
    AllSound (x :: l) ↔ SoundAt x.1 x.2 ∧ AllSound l := by
  simp only [AllSound, forall_mem_cons]

@[simp] theorem allSound_append (l l' : List (Seat × Phrase)) :
    AllSound (l ++ l') ↔ AllSound l ∧ AllSound l' := by
  simp only [AllSound, forall_mem_append]

@[simp] theorem allSound_exprsAt (seat : Seat) (es : List Expr) :
    AllSound (exprsAt seat es) ↔ ∀ e ∈ es, SoundAt seat (.expr e) := by
  simp [AllSound, exprsAt]

@[simp] theorem allSound_stmtsAt (seat : Seat) (ss : List Stmt) :
    AllSound (stmtsAt seat ss) ↔ ∀ s ∈ ss, SoundAt seat (.stmt s) := by
  simp [AllSound, stmtsAt]

@[simp] theorem allSound_flatMap {α : Type} (f : α → List (Seat × Phrase)) (as : List α) :
    AllSound (as.flatMap f) ↔ ∀ a ∈ as, AllSound (f a) := by
  simp only [AllSound, mem_flatMap]
  exact ⟨fun h a ha x hx => h x ⟨a, ha, hx⟩, fun h x ⟨a, ha, hx⟩ => h a ha x hx⟩

@[simp] theorem FieldList.allSound_seats (seat : Seat) (fields : FieldList) :
    AllSound (fields.seats seat) ↔ ∀ f ∈ fields.list, SoundAt seat (.expr f.type) := by
  simp [AllSound, FieldList.seats]

namespace SoundAt

theorem intro {n : Phrase} (ha : seat.admits n = true) (hf : n.Formed) (hs : AllSound n.seats)
    (hw : n.IsWhole) :
    SoundAt seat n := by
  refine ⟨ha, .intro ⟨hf, fun x hx => (hs x hx).1, hw⟩ fun c hc => ?_⟩
  rw [← n.seats_snd] at hc
  obtain ⟨x, hx, rfl⟩ := mem_map.1 hc
  exact (hs x hx).2

theorem below {n : Phrase} (h : SoundAt seat n) : AllSound n.seats := by
  intro x hx
  refine ⟨h.2.here.2.1 x hx, h.2.child ?_⟩
  rw [← n.seats_snd]
  exact mem_map_of_mem hx

theorem widen (h : SoundAt .expr (.expr e))
    (hseat : seat ∈ [Seat.element, .keyOrValue, .length, .param]) :
    SoundAt seat (.expr e) := by
  have hrole : e.role = .plain := of_decide_eq_true h.1
  refine ⟨?_, h.2⟩
  simp only [mem_cons, not_mem_nil, or_false] at hseat
  rcases hseat with rfl | rfl | rfl | rfl <;> simp [Seat.admits, hrole]

theorem stmt {s : Stmt} (h : SoundAt seat (.stmt s)) (hseat : seat = .simple ∨ seat = .branch) :
    SoundAt .stmt (.stmt s) := by
  refine ⟨?_, h.2⟩
  have ha := h.1
  rcases hseat with rfl | rfl <;> cases s
    <;> first | rfl | simp [Seat.admits, Stmt.isSimple, Stmt.isBranch] at ha

end SoundAt

def Decl.Sound (d : Decl) : Prop := AllSound d.seats ∧ d.IsWhole

def File.Sound (file : File) : Prop :=
  (∀ spec ∈ file.imports, SoundAt .expr (.expr spec.path)) ∧ ∀ d ∈ file.decls, d.Sound

theorem File.Sound.formed {file : File} (h : file.Sound) : file.Throughout Phrase.Formed := by
  intro n hn
  rcases mem_append.1 hn with hn | hn
  · obtain ⟨spec, hs, rfl⟩ := mem_map.1 hn
    exact (h.1 spec hs).2.mono fun _ h => h.1
  · obtain ⟨d, hd, hn⟩ := mem_flatMap.1 hn
    rw [← d.seats_snd] at hn
    obtain ⟨x, hx, rfl⟩ := mem_map.1 hn
    exact ((h.2 d hd).1 x hx).2.mono fun _ h => h.1

theorem File.Sound.arranged {file : File} (h : file.Sound) : file.Arranged := by
  have hseat : ∀ {seat n}, SoundAt seat n → Seated seat n := fun h => ⟨h.1, h.2.mono fun _ h => h.2⟩
  exact ⟨fun spec hs => hseat (h.1 spec hs), fun d hd =>
    ⟨fun x hx => hseat ((h.2 d hd).1 x hx), (h.2 d hd).2⟩⟩

namespace Grammar

open Parser

attribute [local simp] Phrase.seats Expr.seats Stmt.seats Suffix.apply

variable {k : Nat}

/-- A sound expression for a place that asks for binding strength `k`. -/
def SoundExpr (k : Nat) (e : Expr) : Prop := SoundAt .expr (.expr e) ∧ k ≤ e.rank

/-- A sound expression that can stand in a header. -/
def SoundHeader (e : Expr) : Prop := SoundExpr 0 e ∧ e.exposed = false

abbrev SoundStmt (s : Stmt) : Prop := SoundAt .stmt (.stmt s)

abbrev SoundSimple (s : Stmt) : Prop := SoundAt .simple (.stmt s)

abbrev SoundBlock (b : Block) : Prop := ∀ s ∈ b.list, SoundStmt s

abbrev SoundElements (x : Elements) : Prop := ∀ e ∈ x.list, SoundAt .element (.expr e)

structure Rules.Sound (g : Rules) : Prop where
  expr : Yields g.expr (SoundExpr 0)
  type : Yields g.type (SoundExpr 6)
  stmt : Yields g.stmt SoundStmt
  elements : Yields g.elements SoundElements
  conditional : Yields g.conditional fun s => SoundAt .branch (.stmt s)

theorem SoundExpr.mono {j : Nat} (h : SoundExpr k e) (hjk : j ≤ k) : SoundExpr j e :=
  ⟨h.1, Nat.le_trans hjk h.2⟩

theorem SoundExpr.fits (h : SoundExpr k e) : e.Fits k := ⟨h.2, of_decide_eq_true h.1.1⟩

theorem SoundHeader.inHeader (h : SoundHeader e) : e.InHeader := ⟨h.1.fits, h.2⟩

theorem soundExpr (hf : e.Formed) (hs : AllSound e.seats) (hw : e.IsWhole) (hk : e.Fits k) :
    SoundExpr k e := ⟨.intro (decide_eq_true hk.2) hf hs hw, hk.1⟩

/-! ### Names and literals -/

theorem yields_ident : Yields ident fun id => IsName id.name := by
  refine .bind (.lexeme Lex.word) fun ⟨offset, piece⟩ ⟨cs, rest, hw⟩ => ?_
  refine .bind .guarded fun _ hk => .bind (.any blanks) fun _ _ => .pure ?_
  refine ⟨?_, hk⟩
  simpa using Lex.rereads_word _ _ _ hw [] (Lex.stops_nil _)

theorem yields_literalOf {l : Lexer} {p : Char → Bool} (kind : List Char → LitKind)
    (hl : Lex.Rereads l p) :
    Yields (literalOf kind l) fun x =>
      l x.text.toList = some (x.text.toList, []) ∧ x.kind = kind x.text.toList := by
  refine .bind (.lexeme l) fun ⟨offset, piece⟩ ⟨cs, rest, hw⟩ => .bind (.any blanks) fun _ _ =>
    .pure ?_
  refine ⟨?_, by simp⟩
  simpa using hl _ _ _ hw [] (Lex.stops_nil _)

theorem yields_literal : Yields literal Literal.IsWritten :=
  .orElse ((yields_literalOf _ Lex.rereads_number).mono fun _ h => .inl h)
    (.orElse ((yields_literalOf _ (Lex.rereads_string fun _ => false)).mono fun _ h =>
      .inr (.inl h))
      ((yields_literalOf _ (Lex.rereads_char fun _ => false)).mono fun _ h => .inr (.inr h)))

theorem yields_token (s : String) : Yields (token s) fun p => p.isSome = true :=
  .after fun _ => .after fun _ => .pure rfl

theorem yields_tokenNl (s : String) : Yields (tokenNl s) fun p => p.isSome = true :=
  .after fun _ => .after fun _ => .pure rfl

theorem soundExpr_ident {id : Ident} (h : IsName id.name) : SoundExpr 7 (.ident id) :=
  soundExpr h (by simp) trivial ⟨Nat.le_refl 7, rfl⟩

theorem soundExpr_lit {l : Literal} (h : l.IsWritten) : SoundExpr 7 (.lit l) :=
  soundExpr h (by simp) trivial ⟨Nat.le_refl 7, rfl⟩

/-! ### Types and signatures -/

theorem groupFrom_sound {waiting : List Ident} {entries : List (Option Ident × Expr)}
    (hw : ∀ id ∈ waiting, SoundAt .param (.expr (.ident id)))
    (he : ∀ x ∈ entries, SoundAt .param (.expr x.2)) :
    ∀ f ∈ groupFrom waiting entries, f.tag = none ∧ SoundAt .param (.expr f.type) := by
  fun_induction groupFrom waiting entries with
  | case1 waiting => simpa using hw
  | case2 waiting name type entries ih =>
    rw [forall_mem_cons] at he ⊢
    exact ⟨⟨rfl, he.1⟩, ih (by simp) he.2⟩
  | case3 waiting name entries ih =>
    rw [forall_mem_cons] at he
    exact ih (by simpa [or_imp, forall_and] using ⟨hw, he.1⟩) he.2
  | case4 waiting type entries _ ih =>
    rw [forall_mem_cons] at he ⊢
    exact ⟨⟨rfl, he.1⟩, ih hw he.2⟩

theorem groupParams_sound {entries : List (Option Ident × Expr)}
    (he : ∀ x ∈ entries, SoundAt .param (.expr x.2)) :
    ∀ f ∈ groupParams entries, f.tag = none ∧ SoundAt .param (.expr f.type) := by
  unfold groupParams
  split
  · intro f hf
    obtain ⟨x, hx, rfl⟩ := mem_map.1 hf
    exact ⟨rfl, he x hx⟩
  · exact groupFrom_sound (by simp) he

theorem yields_typeName : Yields typeName (SoundExpr 7) := by
  refine .bind yields_ident fun x hx => .bind (.opt (.seqRight yields_ident)) fun sel hs => ?_
  have hx := soundExpr_ident hx
  split
  case h_1 sel => exact .pure (soundExpr ⟨hx.fits, hs sel rfl⟩ (by simpa using hx.1) trivial
    ⟨Nat.le_refl 7, rfl⟩)
  case h_2 => exact .pure hx

theorem soundExpr_func {t : FuncType} (h : t.IsWhole ∧ AllSound t.seats) : SoundExpr 7 (.func t) :=
  soundExpr trivial h.2 h.1 ⟨Nat.le_refl 7, rfl⟩

section Types

variable {g : Rules} (hg : g.Sound)

include hg

theorem yields_paramType : Yields (paramType g) fun e => SoundAt .param (.expr e) :=
  .orElse (.after fun dots => .bind hg.type fun elem he =>
    .pure (.intro rfl trivial (by simpa using he.1) trivial))
      (hg.type.mono fun _ h => h.1.widen (by simp))

theorem yields_param : Yields (param g) fun x => SoundAt .param (.expr x.2) :=
  .orElse (.after fun _ => .bind (yields_paramType hg) fun _ h => .pure h)
    (.bind (yields_paramType hg) fun _ h => .pure h)

theorem yields_params : Yields (params g) fun l =>
    (l.IsUntagged ∧ l.opening.isSome = true ∧ l.closing.isSome = true) ∧
    AllSound (l.seats .param) := by
  refine .bind (yields_tokenNl _) fun opening ho =>
    .bind (.sepEndBy (yields_param hg)) fun entries he =>
    .after fun _ => .bind (yields_token _) fun closing hc => .pure ?_
  have hf := groupParams_sound he
  exact ⟨⟨fun f h => (hf f h).1, ho, hc⟩, by simpa using fun f h => (hf f h).2⟩

theorem yields_results : Yields (results g) fun l => l.IsResult ∧ AllSound (l.seats .param) := by
  refine .orElse ((yields_params hg).mono fun l h =>
    ⟨⟨h.1.1, by rw [h.1.2.1, h.1.2.2], fun hn => ?_⟩, h.2⟩)
    (.bind hg.type fun t ht => .pure ⟨⟨by simp [FieldList.IsUntagged], rfl, by simp⟩, ?_⟩)
  · simp [hn] at h
  · simpa using ht.1.widen (by simp)

theorem yields_signature (funcPos : Pos) : Yields (signature g funcPos) fun t =>
    t.funcPos = funcPos ∧ t.IsWhole ∧ AllSound t.seats := by
  refine .bind (yields_params hg) fun params hp =>
    .bind (.opt (yields_results hg)) fun results hr =>
    .pure ⟨rfl, ⟨hp.1.1, fun l hl => (hr l hl).1⟩, ?_⟩
  simp only [FuncType.seats, allSound_append, allSound_flatMap, Option.mem_toList]
  exact ⟨hp.2, fun l hl => (hr l hl).2⟩

theorem yields_pointerType : Yields (pointerType g) (SoundExpr 6) :=
  .after fun star => .bind hg.type fun x hx =>
    .pure (soundExpr hx.fits (by simpa using hx.1) trivial ⟨Nat.le_refl 6, rfl⟩)

theorem yields_arrayType : Yields (arrayType g) fun e => SoundExpr 7 e ∧ e.isSpelledOut = true := by
  have hlen : Yields ((do return .ellipsis (← tokenNl "...") none) <|> g.expr) fun e =>
      SoundAt .length (.expr e) :=
    .orElse (.after fun dots => .pure (.intro rfl trivial (by simp) trivial))
      (hg.expr.mono fun _ h => h.1.widen (by simp))
  exact .after fun lbrack => .bind (.opt hlen) fun len hl => .after fun _ =>
    .bind hg.type fun elem he =>
    .pure ⟨soundExpr trivial (by simpa using ⟨hl, he.1⟩) trivial ⟨Nat.le_refl 7, rfl⟩, rfl⟩

theorem yields_mapType : Yields (mapType g) fun e => SoundExpr 7 e ∧ e.isSpelledOut = true :=
  .after fun mapPos => .after fun _ => .bind hg.type fun key hk =>
    .after fun _ => .bind hg.type fun value hv =>
      .pure ⟨soundExpr trivial (by simpa using ⟨hk.1, hv.1⟩) trivial ⟨Nat.le_refl 7, rfl⟩, rfl⟩

theorem yields_chanType : Yields (chanType g) fun e => SoundExpr 7 e ∧ e.exposed = false :=
  .after fun ⟨chanPos, dir⟩ => .bind hg.type fun value hv =>
    .pure ⟨soundExpr trivial (by simpa using hv.1) trivial ⟨Nat.le_refl 7, rfl⟩, rfl⟩

theorem yields_structField : Yields (structField g) fun f => SoundAt .expr (.expr f.type) := by
  have htype :
      Yields ((do return (← sepBy1 ident (token ","), ← g.type)) <|> (do return ([], ← g.type)))
      fun x => SoundAt .expr (.expr x.2) :=
    .orElse (.after fun _ => .bind hg.type fun _ h => .pure h.1)
      (.bind hg.type fun _ h => .pure h.1)
  exact .bind htype fun ⟨names, type⟩ ht => .after fun _ => .pure ht

theorem yields_structType : Yields (structType g) fun e => SoundExpr 7 e ∧ e.isSpelledOut = true :=
  .after fun structPos => .after fun opening =>
    .bind (.sepEndBy (yields_structField hg)) fun list hl => .after fun closing =>
      .pure ⟨soundExpr trivial (by simpa using hl) trivial ⟨Nat.le_refl 7, rfl⟩, rfl⟩

theorem yields_methodSpec :
    Yields (methodSpec g) fun f => (f.tag = none ∧ f.IsMethod) ∧ SoundAt .expr (.expr f.type) :=
  .orElse (.after fun name => .bind (yields_signature hg none) fun t ht =>
      .pure ⟨⟨rfl, .inl ⟨name, t, rfl, rfl, ht.1⟩⟩, (soundExpr_func ht.2).1⟩)
    (.bind yields_typeName fun _ ht => .pure ⟨⟨rfl, .inr rfl⟩, ht.1⟩)

theorem yields_interfaceType :
    Yields (interfaceType g) fun e => SoundExpr 7 e ∧ e.exposed = false := by
  refine .after fun interfacePos => .after fun opening =>
    .bind (.sepEndBy (yields_methodSpec hg)) fun list hl => .after fun closing =>
      .pure ⟨soundExpr trivial ?_ ⟨fun f hf => (hl f hf).1.1, fun f hf => (hl f hf).1.2⟩
        ⟨Nat.le_refl 7, rfl⟩, rfl⟩
  simpa using fun f hf => (hl f hf).2

theorem yields_funcType : Yields (funcType g) fun t => t.IsWhole ∧ AllSound t.seats :=
  .after fun funcPos => (yields_signature hg funcPos).mono fun _ h => h.2

theorem yields_parenType : Yields (parenType g) (SoundExpr 7) :=
  .after fun lparen => .bind hg.type fun x hx => .after fun rparen =>
    .pure (soundExpr (hx.mono (Nat.zero_le 6)).fits (by simpa using hx.1) trivial ⟨Nat.le_refl 7,
      rfl⟩)

theorem yields_type : Yields (type g) (SoundExpr 6) := by
  have weaken : ∀ e, SoundExpr 7 e → SoundExpr 6 e := fun e h => h.mono (by omega)
  refine .orElse (yields_typeName.mono weaken) (.orElse (yields_pointerType hg)
    (.orElse ((yields_arrayType hg).mono fun e h => weaken e h.1)
      (.orElse ((yields_mapType hg).mono fun e h => weaken e h.1)
        (.orElse ((yields_chanType hg).mono fun e h => weaken e h.1)
          (.orElse ((yields_structType hg).mono fun e h => weaken e h.1)
            (.orElse ((yields_interfaceType hg).mono fun e h => weaken e h.1) (.orElse ?_ ?_)))))))
  · exact .bind (yields_funcType hg) fun t h => .pure (weaken _ (soundExpr_func h))
  · exact (yields_parenType hg).mono weaken

end Types

/-! ### Expressions -/

theorem yields_operatorOf (level : List (BinaryOp × String)) :
    Yields (operatorOf level) fun x => ∃ y ∈ level, x.2 = y.1 := by
  refine .firstM level fun ⟨op, longer⟩ hm => ?_
  exact .after fun ⟨offset, _⟩ => .after fun _ => .after fun _ =>
    .pure ⟨(op, longer), hm, rfl⟩

theorem soundExpr_binary {x y : Expr} {op : BinaryOp} (opPos : Pos) (hx : SoundExpr op.precedence x)
    (hy : SoundExpr (op.precedence + 1) y) : SoundExpr op.precedence (.binary x opPos op y) :=
  soundExpr ⟨hx.fits, hy.fits⟩ (by simpa using ⟨hx.1, hy.1⟩) trivial ⟨Nat.le_refl _, rfl⟩

section Operators

-- `X` is what else is known of the operands and kept by all operators.
variable {X : Expr → Prop} {p : Parser Expr}

theorem yields_level (k : Nat) (level : List (BinaryOp × String))
    (hl : ∀ x ∈ level, x.1.precedence = k)
    (hX : ∀ x opPos op y, X x → X y → X (.binary x opPos op y))
    (hp : Yields p fun e => SoundExpr (k + 1) e ∧ X e) :
    Yields (chain p (operatorOf level) joinBinary) fun e => SoundExpr k e ∧ X e := by
  refine .chain hp (yields_operatorOf level) (fun e h => ⟨h.1.mono (by omega), h.2⟩) ?_
  rintro x ⟨opPos, op⟩ y ⟨hx, hxX⟩ ⟨z, hz, rfl⟩ ⟨hy, hyX⟩
  obtain rfl := hl z hz
  exact ⟨soundExpr_binary opPos hx hy, hX x opPos z.1 y hxX hyX⟩

theorem yields_binaryExpr (hX : ∀ x opPos op y, X x → X y → X (.binary x opPos op y))
    (hp : Yields p fun e => SoundExpr 6 e ∧ X e) :
    Yields (binaryExpr p) fun e => SoundExpr 0 e ∧ X e := by
  have h5 := yields_level 5 levels[0] (by decide) hX hp
  have h4 := yields_level 4 levels[1] (by decide) hX h5
  have h3 := yields_level 3 levels[2] (by decide) hX h4
  have h2 := yields_level 2 levels[3] (by decide) hX h3
  have h1 := yields_level 1 levels[4] (by decide) hX h2
  exact h1.mono fun e h => ⟨h.1.mono (Nat.zero_le 1), h.2⟩

theorem applyLead_sound (l : Pos × Lead) {x : Expr} (hx : SoundExpr 6 x) :
    SoundExpr 6 (applyLead l x) := by
  unfold applyLead
  split
  case h_1 => exact soundExpr hx.fits (by simpa using hx.1) trivial ⟨Nat.le_refl 6, rfl⟩
  case h_2 pos _ value => exact soundExpr trivial hx.1.below trivial ⟨Nat.le_succ 6, rfl⟩
  case h_3 => exact soundExpr hx.fits (by simpa using hx.1) trivial ⟨Nat.le_refl 6, rfl⟩

theorem yields_unaryExpr (hX : ∀ l x, X x → X (applyLead l x))
    (hp : Yields p fun e => SoundExpr 7 e ∧ X e) :
    Yields (unaryExpr p) fun e => SoundExpr 6 e ∧ X e := by
  refine .after fun before => .bind hp fun x hx => .pure ?_
  induction before with
  | nil => exact ⟨hx.1.mono (by omega), hx.2⟩
  | cons l before ih => exact ⟨applyLead_sound l ih.1, hX l _ ih.2⟩

end Operators

theorem soundAt_composite {t : Option Expr} {x : Elements} (ht : ∀ e ∈ t, SoundExpr 7 e)
    (hx : SoundElements x)
    (ha : seat.admits (.expr (composite t x)) = true) : SoundAt seat (.expr (composite t x)) := by
  refine .intro ha ⟨fun e he => (ht e he).fits, fun e he => of_decide_eq_true (hx e he).1⟩ ?_
    trivial
  simpa [composite] using ⟨fun e he => (ht e he).1, hx⟩

theorem soundExpr_composite {t : Expr} {x : Elements} (ht : SoundExpr 7 t) (hx : SoundElements x) :
    SoundExpr 7 (composite (some t) x) :=
  ⟨soundAt_composite (by simpa using ht) hx rfl, Nat.le_refl 7⟩

section Expressions

variable {g : Rules} (hg : g.Sound)

include hg

theorem yields_block : Yields (block g) SoundBlock :=
  .after fun _ => .bind (.sepEndBy hg.stmt) fun _ hl => .after fun _ => .pure hl

theorem yields_element : Yields (element g) fun e => SoundAt .keyOrValue (.expr e) :=
  .orElse (.bind hg.elements fun x hx => .pure (soundAt_composite (by simp) hx rfl))
    (hg.expr.mono fun _ h => h.1.widen (by simp))

theorem yields_keyedElement : Yields (keyedElement g) fun e => SoundAt .element (.expr e) := by
  have hrole : ∀ {e}, SoundAt .keyOrValue (.expr e) → e.role = .plain ∨ e.role = .elided :=
    fun h => by simpa [Seat.admits] using h.1
  have hvalue : Yields (do return (← tokenNl ":", ← element g)) fun (x : Pos × Expr) =>
      SoundAt .keyOrValue (.expr x.2) :=
    .after fun _ => .bind (yields_element hg) fun _ h => .pure h
  refine .bind (yields_element hg) fun key hk => .bind (.opt hvalue) fun value hv => ?_
  split
  case h_1 colon value =>
    have hv := hv (colon, value) rfl
    exact .pure (.intro rfl ⟨hrole hk, hrole hv⟩ (by simpa using ⟨hk, hv⟩) trivial)
  case h_2 => exact .pure ⟨by rcases hrole hk with h | h <;> simp [Seat.admits, h], hk.2⟩

theorem yields_elements : Yields (elements g) SoundElements :=
  .after fun _ => .bind (.sepEndBy (yields_keyedElement hg)) fun _ h =>
    .after fun _ => .after fun _ => .pure h

theorem yields_funcLit : Yields (funcLit g) fun e => SoundExpr 7 e ∧ e.exposed = false := by
  refine .bind (yields_funcType hg) fun t ht => .bind (.opt (yields_block hg)) fun body hb => ?_
  split
  case h_1 body =>
    exact .pure ⟨soundExpr trivial (by simpa using ⟨ht.2, hb body rfl⟩) ht.1 ⟨Nat.le_refl 7, rfl⟩,
      rfl⟩
  case h_2 => exact .pure ⟨soundExpr_func ht, rfl⟩

theorem yields_literalType : Yields (literalType g) fun e => SoundExpr 7 e ∧ e.exposed = false := by
  refine .bind (.orElse (yields_arrayType hg) (.orElse (yields_mapType hg) (yields_structType hg)))
    fun t ht => .bind (.opt hg.elements) fun x hx => ?_
  split
  case h_1 x => exact .pure ⟨soundExpr_composite ht.1 (hx x rfl), by simp [composite, Expr.exposed,
    ht.2]⟩
  case h_2 =>
    refine .pure ⟨ht.1, ?_⟩
    cases t with
    | array | map | struct => rfl
    | _ => simp [Expr.isSpelledOut] at ht

theorem yields_parenExpr : Yields (parenExpr g) fun e => SoundExpr 7 e ∧ e.exposed = false :=
  .after fun lparen => .bind hg.expr fun x hx => .after fun _ => .after fun rparen =>
    .pure ⟨soundExpr hx.fits (by simpa using hx.1) trivial ⟨Nat.le_refl 7, rfl⟩, rfl⟩

theorem yields_operand : Yields (operand g) fun e => SoundExpr 7 e ∧ e.exposed = false :=
  .orElse (.bind yields_literal fun _ h => .pure ⟨soundExpr_lit h, rfl⟩)
    (.orElse (yields_funcLit hg)
    (.orElse (yields_literalType hg) (.orElse (yields_chanType hg)
      (.orElse (yields_interfaceType hg)
      (.orElse (.bind yields_ident fun _ h => .pure ⟨soundExpr_ident h, rfl⟩)
        (yields_parenExpr hg))))))

theorem yields_suffix : Yields (suffix g) fun suf =>
    ∀ x, SoundExpr 7 x → SoundExpr 7 (suf.apply x) ∧ (suf.apply x).exposed = x.exposed := by
  refine .orElse ?assertion (.orElse ?selector (.orElse ?slice (.orElse ?index ?call)))
  case assertion =>
    have htype : Yields ((do let _ ← keyword "type"; return none) <|> (do return some (← g.type)))
        fun t => ∀ e ∈ t, SoundAt .expr (.expr e) :=
      .orElse (.after fun _ => .pure (by simp))
        (.bind hg.type fun t ht => .pure (by simpa using ht.1))
    exact .after fun _ => .after fun lparen => .bind htype fun t ht =>
      .after fun rparen => .pure fun x hx =>
        ⟨soundExpr hx.fits (by simpa using ⟨hx.1, ht⟩) trivial ⟨Nat.le_refl 7, rfl⟩, rfl⟩
  case selector =>
    exact .after fun _ => .bind yields_ident fun sel hs => .pure fun x hx =>
      ⟨soundExpr ⟨hx.fits, hs⟩ (by simpa using hx.1) trivial ⟨Nat.le_refl 7, rfl⟩, rfl⟩
  case slice =>
    refine .after fun lbrack => .bind (.opt hg.expr) fun low hl => .after fun _ =>
      .bind (.opt hg.expr) fun high hh => .bind (.opt (.seqRight hg.expr)) fun max hm =>
        .after fun rbrack => .pure fun x hx =>
          ⟨soundExpr ⟨hx.fits, ?_⟩ ?_ trivial ⟨Nat.le_refl 7, rfl⟩, rfl⟩
    · exact ⟨fun e he => (hl e he).fits, fun e he => (hh e he).fits, fun e he => (hm e he).fits⟩
    · simp only [Suffix.apply, Expr.seats, allSound_exprsAt, forall_mem_cons, forall_mem_append,
        Option.mem_toList]
      exact ⟨hx.1, ⟨fun e he => (hl e he).1, fun e he => (hh e he).1⟩, fun e he => (hm e he).1⟩
  case index =>
    exact .after fun lbrack => .bind hg.expr fun i hi => .after fun rbrack => .pure fun x hx =>
      ⟨soundExpr ⟨hx.fits, hi.fits⟩ (by simpa using ⟨hx.1, hi.1⟩) trivial ⟨Nat.le_refl 7, rfl⟩, rfl⟩
  case call =>
    refine .after fun lparen => .bind (.sepBy hg.expr) fun args ha => .after fun dots =>
      .after fun _ => .after fun _ => .after fun rparen => .pure fun x hx =>
        ⟨soundExpr ⟨hx.fits, fun e he => (ha e he).fits⟩ ?_ trivial ⟨Nat.le_refl 7, rfl⟩, rfl⟩
    simpa using ⟨hx.1, fun e he => (ha e he).1⟩

theorem yields_primary : Yields (primary g) (SoundExpr 7) := by
  have hsuffix : Yields (suffix g <|> (do return .elements (← g.elements))) fun suf =>
      ∀ x, SoundExpr 7 x → SoundExpr 7 (suf.apply x) :=
    .orElse ((yields_suffix hg).mono fun suf h x hx => (h x hx).1)
      (.bind hg.elements fun elems he => .pure fun x hx => soundExpr_composite hx he)
  refine .bind (yields_operand hg) fun x hx => .bind (.many hsuffix) fun after ha => .pure ?_
  replace hx := hx.1
  induction after generalizing x with
  | nil => exact hx
  | cons suf after ih => exact ih _ (fun s hs => ha s (by simp [hs])) (ha suf (by simp) x hx)

theorem yields_headerPrimary :
    Yields (headerPrimary g) fun e => SoundExpr 7 e ∧ e.exposed = false := by
  refine .bind (yields_operand hg) fun x hx => .bind (.many (yields_suffix hg)) fun after ha =>
    .pure ?_
  induction after generalizing x with
  | nil => exact hx
  | cons suf after ih =>
    obtain ⟨hs, he⟩ := ha suf (by simp) x hx.1
    exact ih _ ⟨hs, by rw [he, hx.2]⟩ fun s hs => ha s (by simp [hs])

theorem yields_expr : Yields (expr g) (SoundExpr 0) := by
  have hunary := yields_unaryExpr (X := fun _ => True) (fun _ _ _ => trivial)
    ((yields_primary hg).mono fun e h => ⟨h, trivial⟩)
  exact (yields_binaryExpr (fun _ _ _ _ _ _ => trivial) hunary).mono fun e h => h.1

omit hg in
theorem exposed_applyLead (l : Pos × Lead) (x : Expr) (hx : x.exposed = false) :
    (applyLead l x).exposed = false := by
  unfold applyLead
  split <;> simp [Expr.exposed, hx]

theorem yields_headerExpr : Yields (headerExpr g) SoundHeader :=
  yields_binaryExpr (fun x _ _ y hx hy => by simp [Expr.exposed, hx, hy])
    (yields_unaryExpr exposed_applyLead (yields_headerPrimary hg))

end Expressions

/-! ### Declarations and statements -/

theorem yields_simpleStmt {p : Parser Expr} (hp : Yields p (SoundExpr 0)) :
    Yields (simpleStmt p) SoundSimple := by
  refine .orElse ?assign (.orElse ?send (.orElse ?incDec ?expr))
  case assign =>
    refine .bind (.sepBy1 hp) fun lhs hl => .after fun ⟨opPos, op⟩ =>
      .bind (.sepBy1 hp) fun rhs hr =>
      .pure (.intro rfl ⟨⟨hl.1, fun e he => (hl.2 e he).fits⟩, hr.1, fun e he => (hr.2 e he).fits⟩
        ?_ ⟨hl.1, hr.1⟩)
    simp only [Phrase.seats, Stmt.seats, allSound_exprsAt, forall_mem_append]
    exact ⟨fun e he => (hl.2 e he).1, fun e he => (hr.2 e he).1⟩
  case send =>
    exact .bind hp fun chan hc => .after fun arrow => .bind hp fun value hv =>
      .pure (.intro rfl ⟨hc.fits, hv.fits⟩ (by simpa using ⟨hc.1, hv.1⟩) trivial)
  case incDec =>
    exact .bind hp fun x hx => .after fun ⟨stepPos, step⟩ =>
      .pure (.intro rfl hx.fits (by simpa using hx.1) trivial)
  case expr => exact .bind hp fun x hx => .pure (.intro rfl hx.fits (by simpa using hx.1) trivial)

theorem yields_simpleStmt_inHeader {p : Parser Expr} (hp : Yields p Expr.InHeader) :
    Yields (simpleStmt p) Stmt.InHeader := by
  refine .orElse ?assign (.orElse ?send (.orElse ?incDec ?expr))
  case assign =>
    exact .bind (.sepBy1 hp) fun lhs hl => .after fun ⟨opPos, op⟩ =>
      .bind (.sepBy1 hp) fun rhs hr => .pure ⟨hl.2, hr.2⟩
  case send =>
    exact .bind hp fun chan hc => .after fun arrow => .bind hp fun value hv => .pure ⟨hc, hv⟩
  case incDec => exact .bind hp fun x hx => .after fun ⟨stepPos, step⟩ => .pure hx
  case expr => exact .bind hp fun x hx => .pure hx

theorem yields_declOf {word : DeclWord} {spec : Parser Spec}
    (h : Yields spec fun spec => (spec.IsWhole ∧ (spec.isType = true ↔ word = .type)) ∧
      AllSound spec.seats) :
    Yields (declOf word spec) fun d => d.IsWhole ∧ AllSound d.seats := by
  refine .after fun wordPos => .orElse ?group (.bind h fun spec hs => .pure ?_)
  case group =>
    refine .bind (yields_tokenNl _) fun lparen hl => .bind (.sepEndBy h) fun specs hs =>
      .bind (yields_token _) fun rparen hr =>
        .pure ⟨⟨?_, ?_, fun spec hspec => (hs spec hspec).1⟩, ?_⟩
    · exact hl.trans hr.symm
    · rintro rfl
      cases hl
    · simpa [GenDecl.seats] using fun spec hspec => (hs spec hspec).2
  · exact ⟨⟨rfl, fun _ => rfl, by simpa using hs.1⟩, by simpa [GenDecl.seats] using hs.2⟩

section Statements

variable {g : Rules} (hg : g.Sound)

include hg

theorem yields_exprList : Yields (exprList g) fun es => ∀ e ∈ es, SoundExpr 0 e :=
  (Yields.sepBy1 hg.expr).mono fun _ h => h.2

theorem yields_valueSpec {word : DeclWord} (hw : word ≠ .type) : Yields (valueSpec g) fun spec =>
    (spec.IsWhole ∧ (spec.isType = true ↔ word = .type)) ∧ AllSound spec.seats := by
  refine .bind (.sepBy1 (.any _)) fun names hn => .bind (.opt hg.type) fun t ht =>
    .bind (.opt (.seqRight (yields_exprList hg))) fun values hv =>
      .pure ⟨⟨hn.1, by simp [Spec.isType, hw]⟩, ?_⟩
  simp only [Spec.seats, allSound_append, allSound_exprsAt, Option.mem_toList]
  refine ⟨fun e he => (ht e he).1, ?_⟩
  cases values with
  | none => simp
  | some values => exact fun e he => (hv values rfl e he).1

theorem yields_typeSpec : Yields (typeSpec g) fun spec =>
    (spec.IsWhole ∧ (spec.isType = true ↔ DeclWord.type = .type)) ∧ AllSound spec.seats :=
  .after fun name => .after fun equals => .bind hg.type fun t ht =>
    .pure ⟨⟨trivial, by simp [Spec.isType]⟩, by simpa [Spec.seats] using ht.1⟩

theorem yields_genDecl : Yields (genDecl g) fun d => d.IsWhole ∧ AllSound d.seats :=
  .orElse (yields_declOf (yields_valueSpec hg nofun))
    (.orElse (yields_declOf (yields_valueSpec hg nofun)) (yields_declOf (yields_typeSpec hg)))

theorem yields_headerSimple : Yields (headerSimple g) fun s => SoundSimple s ∧ s.InHeader :=
  .and (yields_simpleStmt ((yields_headerExpr hg).mono fun _ h => h.1))
    (yields_simpleStmt_inHeader ((yields_headerExpr hg).mono fun _ h => h.inHeader))

theorem yields_headerInit :
    Yields (optional (headerInit g)) fun init => ∀ s ∈ init, SoundSimple s ∧ s.InHeader :=
  .opt (.seqLeft (yields_headerSimple hg))

theorem yields_returnStmt : Yields (returnStmt g) SoundStmt := by
  refine .after fun retPos => .bind (.opt (yields_exprList hg)) fun results hr => .pure ?_
  have hs : ∀ e ∈ results.getD [], SoundExpr 0 e := by
    cases results with
    | none => simp
    | some results => exact hr results rfl
  exact .intro rfl (fun e he => (hs e he).fits) (by simpa using fun e he => (hs e he).1) trivial

omit hg in
theorem yields_jumpStmt : Yields jumpStmt SoundStmt :=
  .after fun ⟨jumpPos, word⟩ => .after fun label => .pure (.intro rfl trivial (by simp) trivial)

theorem yields_labeledStmt : Yields (labeledStmt g) SoundStmt :=
  .after fun label => .after fun colon => .bind hg.stmt fun s hs =>
    .pure (.intro rfl trivial (by simpa using hs) trivial)

theorem yields_blockStmt :
    Yields (do return Stmt.block (← block g)) fun s => SoundAt .branch (.stmt s) :=
  .bind (yields_block hg) fun _ hb => .pure (.intro rfl trivial (by simpa using hb) trivial)

theorem yields_conditional : Yields (conditional g) fun s => SoundAt .branch (.stmt s) := by
  refine .after fun ifPos => .bind (yields_headerInit hg) fun init hi =>
    .bind (yields_headerExpr hg) fun cond hc => .bind (yields_block hg) fun body hb =>
      .bind (.opt (.seqRight (.orElse hg.conditional (yields_blockStmt hg)))) fun other ho =>
        .pure (.intro rfl ⟨fun s hs => (hi s hs).2, hc.inHeader, fun s hs => (ho s hs).1⟩ ?_
          trivial)
  simp only [Phrase.seats, Stmt.seats, allSound_append, allSound_stmtsAt, allSound_exprsAt,
    Option.mem_toList, mem_singleton, forall_eq]
  exact ⟨⟨⟨fun s hs => (hi s hs).1, hc.1.1⟩, hb⟩, ho⟩

theorem yields_caseClause : Yields (caseClause g) fun s => SoundAt .caseClause (.stmt s) := by
  have hcase :
      Yields ((do return (← keyword "case", ← exprList g)) <|>
        (do return (← keyword "default", [])))
      fun x => ∀ e ∈ x.2, SoundExpr 0 e :=
    .orElse (.after fun _ => .bind (yields_exprList hg) fun _ h => .pure h)
      (.after fun _ => .pure (by simp))
  exact .bind hcase fun ⟨casePos, list⟩ hl => .after fun colon =>
    .bind (.sepEndBy hg.stmt) fun body hb =>
    .pure (.intro rfl trivial (by simpa using ⟨fun e he => (hl e he).1, hb⟩) trivial)

omit hg in
/-- The rule for switches and the invariant of type switches mean the same guards. -/
theorem isTypeGuard_eq_isGuard (s : Stmt) : isTypeGuard s = s.isGuard := by
  unfold isTypeGuard Stmt.isGuard Expr.asksType
  grind

omit hg in
theorem soundStmt_buildSwitch {init tag : Option Stmt} {body : Block} (switchPos : Pos)
    (hi : ∀ s ∈ init, SoundSimple s ∧ s.InHeader) (ht : ∀ s ∈ tag, SoundSimple s ∧ s.InHeader)
    (hb : ∀ s ∈ body.list, SoundAt .caseClause (.stmt s)) :
    SoundStmt (buildSwitch switchPos init tag body) := by
  have hinit : ∀ s ∈ init, SoundSimple s := fun s hs => (hi s hs).1
  have hswitch : ∀ tag : Option Expr, (∀ e ∈ tag, SoundAt .tag (.expr e) ∧ e.InHeader) →
      SoundStmt (.switch switchPos init tag body) := fun tag ht =>
    .intro rfl ⟨fun s hs => (hi s hs).2, fun e he => (ht e he).2⟩
      (by simpa using ⟨hinit, fun e he => (ht e he).1, hb⟩) trivial
  unfold buildSwitch
  split
  case h_2 => exact hswitch none (by simp)
  case h_1 tag =>
    obtain ⟨htag, hheader⟩ := ht tag rfl
    split
    case isTrue hguard =>
      have hg : SoundAt .guard (.stmt tag) :=
        ⟨(isTypeGuard_eq_isGuard tag).symm.trans hguard, htag.2⟩
      exact .intro rfl trivial (by simpa using ⟨hinit, hg, hb⟩) trivial
    case isFalse hguard =>
      split
      case h_2 => exact hswitch none (by simp)
      case h_1 _ x =>
        have hx : SoundAt .expr (.expr x) := htag.below (.expr, .expr x) (by simp [exprsAt])
        have hrole : x.role = .plain := of_decide_eq_true hx.1
        rw [isTypeGuard_eq_isGuard] at hguard
        have hadmits : Seat.admits .tag (.expr x) = true := by
          simpa [Seat.admits, hrole, Stmt.isGuard] using hguard
        exact hswitch (some x) (by simpa using ⟨⟨hadmits, hx.2⟩, hheader⟩)

theorem yields_switchStmt : Yields (switchStmt g) SoundStmt := by
  have htag : Yields (optional (do let tag ← headerSimple g; guard (isTag tag); return tag))
      fun tag => ∀ s ∈ tag, SoundSimple s ∧ s.InHeader :=
    .opt (.bind (yields_headerSimple hg) fun _ h => .after fun _ => .pure h)
  exact .after fun switchPos => .bind (yields_headerInit hg) fun init hi => .bind htag fun tag ht =>
    .after fun lbrace => .bind (.many (yields_caseClause hg)) fun list hl =>
      .after fun rbrace => .pure (soundStmt_buildSwitch switchPos hi ht hl)

theorem yields_commClause : Yields (commClause g) fun s => SoundAt .commClause (.stmt s) := by
  have hcase :
      Yields ((do return (← keyword "case", some (← simple g))) <|>
        (do return (← keyword "default", none)))
      fun x => ∀ s ∈ x.2, SoundSimple s :=
    .orElse (.after fun _ => .bind (yields_simpleStmt hg.expr) fun _ h => .pure (by simpa using h))
      (.after fun _ => .pure (by simp))
  exact .bind hcase fun ⟨casePos, comm⟩ hc => .after fun colon =>
    .bind (.sepEndBy hg.stmt) fun body hb =>
    .pure (.intro rfl trivial (by simpa using ⟨hc, hb⟩) trivial)

theorem yields_selectStmt : Yields (selectStmt g) SoundStmt :=
  .after fun selectPos => .after fun lbrace => .bind (.many (yields_commClause hg)) fun list hl =>
    .after fun rbrace => .pure (.intro rfl trivial (by simpa using hl) trivial)

theorem yields_rangeClause (forPos : Pos) : Yields (rangeClause g forPos) fun close =>
    ∀ body, SoundBlock body → SoundStmt (close body) := by
  have hop : Yields (tokenOf AssignOp.symbol [.define, .assign] <* blanks) fun x => x.2 = .define ∨
      x.2 = .assign :=
    .seqLeft (.firstM _ fun op hop => .after fun _ => .pure (by simpa using hop))
  have hvars : Yields (rangeVars g) fun (key, value, _, op) =>
      SoundHeader key ∧ (∀ e ∈ value, SoundHeader e) ∧ (op = .define ∨ op = .assign) :=
    .bind (yields_headerExpr hg) fun key hk =>
      .bind (.opt (.seqRight (yields_headerExpr hg))) fun value hv =>
      .bind hop fun x hx => .pure ⟨hk, hv, hx⟩
  refine .bind (.opt hvars) fun vars hv => .after fun _ => .bind (yields_headerExpr hg) fun x hx =>
    ?_
  split
  case h_1 key value opPos op =>
    obtain ⟨hk, hv, hop⟩ := hv (key, value, opPos, op) rfl
    refine .pure fun body hb => .intro rfl
      ⟨by simpa using hk.inHeader, fun e he => (hv e he).inHeader, hx.inHeader,
        rfl, by simp, by simpa using hop⟩ ?_ ⟨rfl, fun _ => rfl, by simpa using hop.symm⟩
    simp only [Phrase.seats, Stmt.seats, allSound_append, allSound_stmtsAt, allSound_exprsAt,
      forall_mem_append, Option.mem_toList, mem_singleton, forall_eq, Option.some.injEq, forall_eq']
    exact ⟨⟨⟨hk.1.1, fun e he => (hv e he).1.1⟩, hx.1.1⟩, hb⟩
  case h_2 =>
    exact .pure fun body hb => .intro rfl ⟨by simp, by simp, hx.inHeader, rfl, by simp, by simp⟩
      (by simpa using ⟨hx.1.1, hb⟩) ⟨rfl, by simp, by simp⟩

omit hg in
theorem soundStmt_forLoop {init post : Option Stmt} {cond : Option Expr} {body : Block}
    (forPos : Pos) (hi : ∀ s ∈ init, SoundSimple s ∧ s.InHeader) (hc : ∀ e ∈ cond, SoundHeader e)
    (hp : ∀ s ∈ post, SoundSimple s ∧ s.InHeader) (hb : SoundBlock body) :
    SoundStmt (.forLoop forPos init cond post body) := by
  refine .intro rfl ⟨fun s hs => (hi s hs).2, fun e he => (hc e he).inHeader, fun s hs =>
    (hp s hs).2⟩ ?_ trivial
  simp only [Phrase.seats, Stmt.seats, allSound_append, allSound_stmtsAt, allSound_exprsAt,
    Option.mem_toList]
  exact ⟨⟨⟨fun s hs => (hi s hs).1, fun e he => (hc e he).1.1⟩, fun s hs => (hp s hs).1⟩, hb⟩

theorem yields_forStmt : Yields (forStmt g) SoundStmt := by
  refine .after fun forPos => ?_
  have hfor : Yields (forClause g forPos) fun close => ∀ body, SoundBlock body →
      SoundStmt (close body) :=
    .bind (.opt (yields_headerSimple hg)) fun init hi => .after fun _ =>
      .bind (.opt (yields_headerExpr hg)) fun cond hc => .after fun _ =>
        .bind (.opt (yields_headerSimple hg)) fun post hp => .pure fun body hb =>
          soundStmt_forLoop forPos hi hc hp hb
  have hwhile : Yields (whileClause g forPos) fun close => ∀ body, SoundBlock body →
      SoundStmt (close body) :=
    .bind (yields_headerExpr hg) fun cond hc =>
      .pure fun body hb => soundStmt_forLoop forPos (by simp) (by simpa using hc) (by simp) hb
  refine .bind (.opt (.orElse (yields_rangeClause hg forPos) (.orElse hfor hwhile)))
    fun clause hc => .bind (yields_block hg) fun body hb => ?_
  split
  case h_1 close => exact .pure (hc close rfl body hb)
  case h_2 => exact .pure (soundStmt_forLoop forPos (by simp) (by simp) (by simp) hb)

theorem yields_stmt : Yields (stmt g) SoundStmt := by
  have hgo : Yields (goStmt g) SoundStmt := .after fun goPos => .bind hg.expr fun call hc =>
    .pure (.intro rfl hc.fits (by simpa using hc.1) trivial)
  have hdefer : Yields (deferStmt g) SoundStmt :=
    .after fun deferPos => .bind hg.expr fun call hc =>
    .pure (.intro rfl hc.fits (by simpa using hc.1) trivial)
  have hsimple : Yields (simple g) SoundStmt :=
    (yields_simpleStmt hg.expr).mono fun _ h => h.stmt (.inl rfl)
  exact .orElse (.bind (yields_genDecl hg) fun d hd => .pure (.intro rfl trivial hd.2 hd.1))
    (.orElse (yields_returnStmt hg) (.orElse yields_jumpStmt
      (.orElse (hg.conditional.mono fun _ h => h.stmt (.inr rfl))
      (.orElse (yields_switchStmt hg) (.orElse (yields_selectStmt hg) (.orElse (yields_forStmt hg)
        (.orElse hgo (.orElse hdefer (.orElse ((yields_blockStmt hg).mono fun _ h =>
          h.stmt (.inr rfl)) (.orElse (yields_labeledStmt hg) hsimple))))))))))

theorem Rules.Sound.next : g.next.Sound where
  expr := yields_expr hg
  type := yields_type hg
  stmt := yields_stmt hg
  elements := yields_elements hg
  conditional := yields_conditional hg

end Statements

/-! ### Files -/

theorem rules_sound (depth : Nat) : (rules depth).Sound := by
  induction depth with
  | zero => exact ⟨.failure, .failure, .failure, .failure, .failure⟩
  | succ depth ih => exact ih.next

section Files

variable {g : Rules} (hg : g.Sound)

include hg

theorem yields_funcDecl : Yields (funcDecl g) fun f => (Decl.func f).Sound := by
  refine .after fun funcPos => .bind (.opt (yields_params hg)) fun recv hr => .after fun name =>
    .bind (yields_signature hg funcPos) fun t ht => .bind (.opt (yields_block hg)) fun body hb =>
      .pure ?_
  obtain ⟨rfl, hw, hs⟩ := ht
  refine ⟨?_, fun fields hf => (hr fields hf).1.1, hw⟩
  simp only [Decl.seats, allSound_append, allSound_flatMap, allSound_stmtsAt, Option.mem_toList,
    mem_flatMap]
  refine ⟨⟨fun fields hf => (hr fields hf).2, hs⟩, ?_⟩
  rintro s ⟨b, hb', hs⟩
  exact hb b hb' s hs

theorem yields_decl : Yields (decl g) Decl.Sound :=
  .orElse (.bind (yields_funcDecl hg) fun _ h => .pure h)
    (.bind (yields_genDecl hg) fun _ h => .pure ⟨h.2, h.1⟩)

omit hg in
theorem yields_importDecl :
    Yields importDecl fun specs => ∀ spec ∈ specs, SoundAt .expr (.expr spec.path) := by
  have hspec : Yields importSpec fun spec => SoundAt .expr (.expr spec.path) :=
    .after fun _ => .bind yields_literal fun _ h => .pure (soundExpr_lit h).1
  exact .after fun _ => .orElse (.seqLeft (.seqRight (.sepEndBy hspec)))
    (.bind hspec fun _ h => .pure (by simpa using h))

theorem yields_file : Yields (file g) File.Sound := by
  refine .after fun _ => .after fun packagePos => .after fun name =>
    .bind (.many (.seqRight yields_importDecl)) fun imports hi =>
      .bind (.many (.seqRight (yields_decl hg))) fun decls hd => .after fun _ =>
        .after fun _ => .after fun _ => .pure ⟨fun spec hs => ?_, hd⟩
  obtain ⟨specs, hm, hs⟩ := mem_flatten.1 hs
  exact hi specs hm spec hs

end Files

theorem parse?_sound {text : String} {f : File} (h : parse? text = some f) : f.Sound := by
  obtain ⟨⟨_, s⟩, hf, rfl⟩ := Option.map_eq_some_iff.1 h
  exact yields_file (rules_sound _) _ _ s hf

end Grammar

end GoFun
