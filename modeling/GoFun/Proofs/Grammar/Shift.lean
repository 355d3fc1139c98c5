import GoFun.Proofs.Grammar.InStep
import GoFun.Proofs.Tree.Place

/-!
# The grammar does not look at offsets

The rules see the characters in front of the cursor and not the offset of the cursor. So from a
greater offset they read the same tree, with greater positions. This is a case of two runs in step,
where nothing is cut off.
-/
namespace GoFun

open Parser Grammar Movable

variable {α : Type} {k d take bound n m o : Nat} {c : Bool} {cs : List Char} {p p' : Parser α}

/-- From an offset that is greater by `k` the parser `p'` does what `p` does. -/
def Shifts {α : Type} [Movable α] (k : Nat) (p p' : Parser α) : Prop :=
  ∀ o cs, p' ⟨o + k, cs⟩ = (p ⟨o, cs⟩).map fun x => (move (· + k) x.1, ⟨x.2.offset + k, x.2.rest⟩)

namespace Shifts

variable {α β : Type} [Movable α] [Movable β] {k : Nat} {p p' q q' : Parser α}

theorem pure {a a' : α} (h : move (· + k) a = a') : Shifts k (Pure.pure a) (Pure.pure a') := by
  subst h
  exact fun _ _ => rfl

theorem bind {f g : α → Parser β} (hp : Shifts k p p')
    (hf : ∀ a, Shifts k (f a) (g (move (· + k) a))) :
    Shifts k (p >>= f) (p' >>= g) := by
  intro o cs
  have h := hp o cs
  cases hx : p ⟨o, cs⟩ with
  | none =>
    rw [hx] at h
    rw [bind_apply_none _ hx, bind_apply_none _ h]
    rfl
  | some x =>
    rw [hx] at h
    rw [bind_apply _ hx, bind_apply _ h]
    exact hf x.1 x.2.offset x.2.rest

theorem orElse (hp : Shifts k p p') (hq : Shifts k q q') : Shifts k (p <|> q) (p' <|> q') := by
  intro o cs
  rw [orElse_apply, orElse_apply, hp, hq]
  cases p ⟨o, cs⟩ <;> rfl

theorem firstM {γ : Type} {f g : γ → Parser α} (xs : List γ) (h : ∀ x, Shifts k (f x) (g x)) :
    Shifts k (xs.firstM f) (xs.firstM g) := by
  induction xs with
  | nil => exact fun _ _ => rfl
  | cons x xs ih => exact orElse (h x) ih

theorem lexeme (l : Lexer) {f g : Nat × List Char → Parser β}
    (hf : ∀ o piece, Shifts k (f (o, piece)) (g (o + k, piece))) :
    Shifts k (Parser.lexeme l >>= f) (Parser.lexeme l >>= g) := by
  intro o cs
  cases hl : l cs with
  | none =>
    have h : ∀ o, Parser.lexeme l ⟨o, cs⟩ = none := fun o => by simp [Parser.lexeme, hl]
    rw [Parser.bind_apply_none _ (h _), Parser.bind_apply_none _ (h _)]
    rfl
  | some x =>
    have h : ∀ o, Parser.lexeme l ⟨o, cs⟩ = some ((o, x.1), ⟨o + utf8Length x.1, x.2⟩) :=
      fun o => by
      simp [Parser.lexeme, hl]
    rw [Parser.bind_apply _ (h _), Parser.bind_apply _ (h _), Nat.add_right_comm]
    exact hf o x.1 _ _

theorem skip (blank : Char → Bool) : Shifts k (Parser.skip blank) (Parser.skip blank) := by
  intro o cs
  simp only [Parser.skip, Option.map_some, Nat.add_right_comm o k]

theorem notNext (s : String) : Shifts k (Parser.notNext s) (Parser.notNext s) := by
  intro o cs
  simp only [Parser.notNext]
  split <;> rfl

theorem guarded (c : Prop) [Decidable c] : Shifts k (guard c) (guard c) := by
  by_cases hc : c
  · rw [guard_eq_pure hc]
    exact pure rfl
  · rw [guard_eq_failure hc]
    exact fun _ _ => rfl

theorem seqLeft {r r' : Parser β} (hp : Shifts k p p') (hr : Shifts k r r') :
    Shifts k (p <* r) (p' <* r') :=
  bind (f := fun a => r >>= fun _ => Pure.pure a) (g := fun a => r' >>= fun _ => Pure.pure a) hp
    fun _ =>
    hr.bind fun _ => pure rfl

end Shifts

section Tokens

variable (k : Nat)

theorem shifts_token (sym : String) : Shifts k (token sym) (token sym) :=
  .lexeme _ fun _ _ => (Shifts.skip _).bind fun _ => .pure rfl

theorem shifts_tokenNl (sym : String) : Shifts k (tokenNl sym) (tokenNl sym) :=
  .lexeme _ fun _ _ => (Shifts.skip _).bind fun _ => .pure rfl

theorem shifts_keyword (w : String) : Shifts k (keyword w) (keyword w) :=
  .lexeme _ fun _ _ => (Shifts.guarded _).bind fun _ => (Shifts.skip _).bind fun _ => .pure rfl

theorem shifts_ident : Shifts k ident ident :=
  .lexeme _ fun _ _ => (Shifts.guarded _).bind fun _ => (Shifts.skip _).bind fun _ => .pure rfl

theorem shifts_literal : Shifts k literal literal := by
  have h : ∀ (kind : List Char → LitKind) (l : Lexer),
      Shifts k (literalOf kind l) (literalOf kind l) := fun _ _ =>
    .lexeme _ fun _ _ => (Shifts.skip _).bind fun _ => .pure rfl
  exact (h _ _).orElse ((h _ _).orElse (h _ _))

theorem shifts_chanDir : Shifts k chanDir chanDir := by
  have hchan := shifts_keyword k "chan"
  have harrow := shifts_token k "<-"
  exact .orElse ((hchan.seqLeft harrow).bind fun _ => .pure rfl)
    (.orElse (hchan.bind fun _ => .pure rfl) ((harrow.seqLeft hchan).bind fun _ => .pure rfl))

theorem shifts_operatorOf (level : List (BinaryOp × String)) :
    Shifts k (operatorOf level) (operatorOf level) :=
  .firstM _ fun _ => .lexeme _ fun _ _ => (Shifts.notNext _).bind fun _ =>
    (Shifts.skip _).bind fun _ => .pure rfl

theorem shifts_tokenOf [Movable α] (h : ∀ (f : Nat → Nat) (a : α), move f a = a)
    (spelling : α → String) (choices : List α) (blank : Char → Bool) :
    Shifts k (tokenOf spelling choices <* skip blank) (tokenOf spelling choices <* skip blank) :=
  .seqLeft (.firstM _ fun a => .lexeme _ fun o _ =>
    .pure (congrArg (Prod.mk (some (o + k))) (h _ a))) (.skip _)

theorem shifts_labelColon : Shifts k labelColon labelColon :=
  .lexeme _ fun _ _ => (Shifts.notNext _).bind fun _ => (Shifts.skip _).bind fun _ => .pure rfl

theorem shifts_separator : Shifts k separator separator :=
  (Shifts.skip _).bind fun _ => .lexeme _ fun _ _ => .skip _

end Tokens

/-- The same text at another offset. -/
def shiftBy (k : Nat) : Lockstep where
  shift := (· + k)
  At _ u u' := u' = ⟨u.offset + k, u.rest⟩
  left := 0
  shorter := by
    rintro n m u u' t t' rfl rfl
    rfl

theorem Shifts.tracks [Movable α] (h : Shifts k p p') (ht : Tidy take p) :
    Tracks (shiftBy k) d take bound n m c p p' where
  tidy hs ha := ht _ _ _ hs ha
  runs := by
    rintro ⟨o, cs⟩ _ rfl _ _
    have hp := h o cs
    cases hx : p ⟨o, cs⟩ with
    | none => rw [hx] at hp; exact hp
    | some x => rw [hx] at hp; exact .inl ⟨_, hp, rfl⟩

/-- Nothing is past the end where nothing is cut off. -/
theorem Tracks.shifts [Movable α] (h : Tracks (shiftBy k) d take bound n m c p p')
    (hs : Trimmed ⟨o, cs⟩) (hlt : cs.length < bound) :
    p' ⟨o + k, cs⟩ = (p ⟨o, cs⟩).map fun x => (move (· + k) x.1, ⟨x.2.offset + k, x.2.rest⟩) := by
  have hrun := h.runs (u := ⟨o, cs⟩) rfl hs hlt
  cases hx : p ⟨o, cs⟩ with
  | none => rw [hx] at hrun; exact hrun
  | some x =>
    rw [hx] at hrun
    rcases hrun with ⟨_, hp', rfl⟩ | ⟨⟨-, hlt⟩, -⟩
    · exact hp'
    · exact absurd hlt (Nat.not_lt_zero _)

theorem shiftBy_lawful (k : Nat) : (shiftBy k).Lawful where
  token h := (shifts_token k _).tracks (tidy_token (ne_nil_of_isSymbol h))
  tokenNl h := (shifts_tokenNl k _).tracks (tidy_tokenNl (ne_nil_of_isSymbol h))
  opens h := (shifts_token k _).tracks (tidy_token (by rintro he; simp_all))
  opensNl h := (shifts_tokenNl k _).tracks (tidy_tokenNl (by rintro he; simp_all))
  closes h := (shifts_token k _).tracks (tidy_token (by rintro he; simp_all))
  keyword _ := (shifts_keyword k _).tracks (tidy_keyword _)
  ident := (shifts_ident k).tracks tidy_ident
  literal := (shifts_literal k).tracks tidy_literal
  chanDir := (shifts_chanDir k).tracks tidy_chanDir
  operator level := (shifts_operatorOf k level).tracks (tidy_operatorOf level)
  lead := (shifts_tokenOf k (fun _ _ => rfl) _ _ _).tracks tidy_lead
  assignOp ops := (shifts_tokenOf k (fun _ _ => rfl) _ _ _).tracks (tidy_assignOp ops (.inl rfl))
  assignOpNl ops := (shifts_tokenOf k (fun _ _ => rfl) _ _ _).tracks (tidy_assignOp ops (.inr rfl))
  step steps := (shifts_tokenOf k (fun _ _ => rfl) _ _ _).tracks (tidy_step steps)
  labelColon := (shifts_labelColon k).tracks tidy_labelColon
  dots := (shifts_token k _).tracks (tidy_token (by decide))
  dotsNl := (shifts_tokenNl k _).tracks (tidy_tokenNl (by decide))
  blanksNl := (Shifts.skip _).tracks (tidy_skip (.inr rfl))
  separator := (shifts_separator k).tracks tidy_separator
  dot hdot hk _ _ := by
    rcases hdot with rfl | rfl
    · exact ((shifts_token k _).tracks (tidy_token (by decide))).andThen₁ hk
    · exact ((shifts_tokenNl k _).tracks (tidy_tokenNl (by decide))).andThen₁ hk

namespace Grammar

/-- On texts of less than `bound` characters a further level of rules changes nothing. -/
structure Rules.Settled (bound : Nat) (g : Rules) : Prop where
  expr : ∀ s, Trimmed s → s.rest.length < bound → g.expr s = Grammar.expr g s
  type : ∀ s, Trimmed s → s.rest.length < bound → g.type s = Grammar.type g s
  stmt : ∀ s, Trimmed s → s.rest.length < bound → g.stmt s = Grammar.stmt g s
  elements : ∀ s, Trimmed s → s.rest.length < bound → g.elements s = Grammar.elements g s
  conditional : ∀ s, Trimmed s → s.rest.length < bound → g.conditional s = Grammar.conditional g s

theorem rules_settled (bound i : Nat) : (rules (2 * bound + i)).Settled bound := by
  have hnext := rules_alike (shiftBy_lawful 0) bound i (i + 1)
  have hself := rules_alike (shiftBy_lawful 0) bound i i
  -- a value that is read has no objects, so it is the same as the one that is moved by nothing
  have key : ∀ {α : Type} [Movable α] {d take : Nat} {p p' : Parser α},
      Level (shiftBy 0) d take bound p p →
      Level (shiftBy 0) d take bound p p' → ∀ s, Trimmed s → s.rest.length < bound → p s = p' s :=
    fun h h' _ hs hlt => (h.shifts hs hlt).trans (h'.shifts hs hlt).symm
  exact ⟨key (d := 1) hself.expr hnext.expr, key (d := 1) hself.type hnext.type,
    key (d := 1) hself.stmt hnext.stmt,
    key (d := 1) hself.elements hnext.elements, key (d := 1) hself.conditional hnext.conditional⟩

end Grammar

def ImportSpec.move (f : Nat → Nat) (spec : ImportSpec) : ImportSpec :=
  ⟨spec.name.map (Ident.move f), spec.path.move f⟩

def File.move (f : Nat → Nat) (file : File) : File :=
  ⟨file.packagePos.map f, file.name.move f, file.imports.map (ImportSpec.move f),
    file.decls.map (Decl.move f)⟩

instance : Movable FuncDecl := ⟨FuncDecl.move⟩
instance : Movable Decl := ⟨Decl.move⟩
instance : Movable ImportSpec := ⟨ImportSpec.move⟩
instance : Movable File := ⟨File.move⟩

namespace Grammar

theorem shifts_atEnd (k : Nat) : Shifts k atEnd atEnd := by
  intro o cs
  simp only [atEnd]
  split <;> rfl

theorem tidy_atEnd : Tidy 0 atEnd := by
  intro s a t hs ha
  obtain ⟨-, rfl⟩ := atEnd_eq_some ha
  exact ⟨hs, Nat.le_refl _⟩

section Files

variable {k d bound : Nat}

theorem tracks_importDecl : Level (shiftBy k) (d + 1) 1 bound importDecl importDecl := by
  have hS := shiftBy_lawful k
  have hdot : ∀ d, Tracks (shiftBy k) d 1 bound 0 0 true (token ".") (token ".") := fun _ =>
    (shifts_token k _).tracks (tidy_token (by decide))
  have hname :
      ∀ d, Level (shiftBy k) d 1 bound ((do return { pos := ← token ".", name := "." }) <|> ident)
      ((do return { pos := ← token ".", name := "." }) <|> ident) := fun d =>
    .orElse ((hdot d).give fun _ => rfl) hS.ident
  have hspec : ∀ {d}, Level (shiftBy k) (d + 1) 0 bound importSpec importSpec := fun {d} =>
    (hname (d + 1)).opt.bind fun _ => hS.literal.give fun _ => rfl
  have hgroup :
      Level (shiftBy k) (d + 1) 0 bound (tokenNl "(" *> sepEndBy importSpec separator <* token ")")
      (tokenNl "(" *> sepEndBy importSpec separator <* token ")") :=
    Tracks.seqLeft ((hS.opensNl (by simp)).zero.seqRight (Tracks.sepEndBy hspec hS.separator).lift)
      (hS.closes (by simp))
  exact (hS.keyword (by decide)).bind fun _ => .orElse hgroup (hspec.give fun _ => rfl)

variable {g g' : Rules} (hg : Rules.Alike (shiftBy k) bound g g')

include hg

theorem tracks_funcDecl : Level (shiftBy k) (d + 1) 1 (bound + 1) (funcDecl g) (funcDecl g') := by
  have hS := shiftBy_lawful k
  refine (hS.keyword (by decide)).andThen₁ fun funcPos =>
    (tracks_params hS hg).less.opt.bind fun recv => hS.ident.bind fun _ =>
    (tracks_signature hS hg funcPos).less.bind fun t =>
      (tracks_block hS hg).less.opt.give fun body => ?_
  obtain ⟨_, params, results⟩ := t
  simp [move, FuncDecl.move, FuncType.move, moveFieldList?_eq_map]

theorem tracks_decl : Level (shiftBy k) (d + 1) 1 (bound + 1) (decl g) (decl g') :=
  .orElse ((tracks_funcDecl hg).give fun _ => rfl)
    ((tracks_genDecl (shiftBy_lawful k) hg).give fun _ => rfl)

theorem tracks_fileBody : Level (shiftBy k) (d + 1) 0 bound (fileBody g) (fileBody g') := by
  have hS := shiftBy_lawful k
  have himports :
      Level (shiftBy k) (d + 1) 1 bound (separator *> importDecl) (separator *> importDecl) :=
    hS.separator.seqRight tracks_importDecl
  have hdecls : Level (shiftBy k) (d + 1) 1 bound (separator *> decl g) (separator *> decl g') :=
    hS.separator.seqRight (tracks_decl hg).less
  refine (hS.keyword (by decide)).zero.bind fun _ => hS.ident.bind fun _ =>
    himports.many.bind fun imports =>
    hdecls.many.bind fun _ => hS.separator.opt.bind fun _ => hS.blanksNl.bind fun _ =>
      ((shifts_atEnd k).tracks (c := false) tidy_atEnd).give fun _ => ?_
  simp [move, File.move, List.map_flatten]

end Files

/-- What a file is read from may stand anywhere, and there may be more levels of rules than it
needs. -/
theorem fileBody_shift (k : Nat) (hs : Trimmed ⟨o, cs⟩) (hlt : cs.length < bound) (i j : Nat) :
    ((fileBody (rules (2 * bound + j))).run ⟨o + k, cs⟩).map Prod.fst =
      (((fileBody (rules (2 * bound + i))).run ⟨o, cs⟩).map Prod.fst).map (File.move (· + k)) := by
  have h := (tracks_fileBody (d := 0) (rules_alike (shiftBy_lawful k) bound i j)).shifts hs hlt
  simp only [StateT.run, h, Option.map_map]
  rfl

end Grammar

end GoFun
