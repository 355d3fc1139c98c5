import GoFun.Proofs.Grammar.Excerpt
import GoFun.Proofs.Tree.Phrase
import Mathlib.Data.List.Perm.Subperm

/-!
# Where phrases come from

Every expression and every type of a file was read at some place of its text, and what stands below
it was read further on, up to its end, one part behind the other. This passes from a phrase to its
parts, and from the roots of a file to all its phrases.
-/
namespace GoFun

open GoFun.Parser GoFun.Grammar
open List (Subperm)

variable {s t : Cursor} {n : Phrase} {src : List Char} {α : Type} {sym : String} {e : Expr}
  {g : Rules} {lo hi : Nat} {p : Parser α} {a : α}
variable {w : Cursor} {β : Type} {c : Phrase} {q : Parser β}

/-! ### Places -/

/-- The text goes on from `s` to `t`. -/
def Leads (s t : Cursor) : Prop :=
  ∃ piece, s.rest = piece ++ t.rest ∧ t.offset = s.offset + utf8Length piece

theorem Leads.trans {u : Cursor} (h : Leads s t) (h' : Leads t u) : Leads s u := by
  obtain ⟨p, hp, ho⟩ := h
  obtain ⟨q, hq, ho'⟩ := h'
  exact ⟨p ++ q, by rw [hp, hq, List.append_assoc], by rw [ho', ho, utf8Length_append,
    Nat.add_assoc]⟩

theorem Leads.le (h : Leads s t) : s.offset ≤ t.offset := by
  obtain ⟨piece, -, ho⟩ := h
  omega

theorem Trail.leads {b : Bool} {n : Nat} {ls : List Leaf} (h : Trail b t n s ls) : Leads s t := by
  induction h with
  | stop => exact ⟨[], rfl, rfl⟩
  | piece hn _ _ ih => exact .trans ⟨_, (Lex.next_append hn).2.symm, rfl⟩ ih
  | dot _ _ ih => exact .trans ⟨['.'], rfl, rfl⟩ ih

theorem Skips.leads (h : Skips s t) : Leads s t := (h.trail (b := false) .stop).leads

theorem Way.leads {n : Nat} (h : Way w n s) : Leads s w := by
  induction h with
  | last hn _ _ he => exact ⟨_, by rw [he]; exact (Lex.next_append hn).2.symm, by rw [he]⟩
  | piece hn _ _ ih => exact .trans ⟨_, (Lex.next_append hn).2.symm, rfl⟩ ih

theorem Way.offset_lt {n : Nat} (h : Way w n s) : s.offset < w.offset := by
  obtain ⟨piece, hpiece, ho⟩ := h.leads
  have hne : utf8Length piece ≠ 0 := fun hz => by
    have hlt := h.length_lt
    rw [hpiece, utf8Length_eq_zero hz] at hlt
    exact Nat.lt_irrefl _ hlt
  omega

theorem Stretch.stop_eq {n : Nat} {stop : Pos} (h : Stretch n s t stop) :
    ∃ hi, stop = some hi ∧ s.offset < hi ∧ hi ≤ t.offset := by
  obtain ⟨w, hway, hblanks, hstop⟩ := h
  have hskips : Skips w t := ⟨_, .inl rfl, hblanks⟩
  exact ⟨w.offset, hstop, hway.offset_lt, hskips.leads.le⟩

/-- A place in a text where something may begin. -/
structure Reached (src : List Char) (s : Cursor) : Prop where
  trimmed : Trimmed s
  leads : Leads ⟨0, src⟩ s

theorem Reached.length_lt (h : Reached src s) : s.rest.length < src.length + 1 := by
  obtain ⟨front, hfront, -⟩ := h.leads
  rw [show src = front ++ s.rest from hfront, List.length_append]
  omega

/-- A parser that goes on in the text, to a place where something may begin. -/
def Moves {α : Type} (p : Parser α) : Prop :=
  ∀ s a t, Trimmed s → p s = some (a, t) → Trimmed t ∧ Leads s t

theorem Moves.reached (h : Moves p) (hs : Reached src s) (ha : p s = some (a, t)) :
    Reached src t := by
  obtain ⟨ht, hlead⟩ := h s a t hs.trimmed ha
  exact ⟨ht, hs.leads.trans hlead⟩

theorem Moves.le (h : Moves p) (hs : Reached src s) (ha : p s = some (a, t)) :
    s.offset ≤ t.offset := (h s a t hs.trimmed ha).2.le

theorem Moves.of_spells {w : α → String} (h : ∀ s a t, p s = some (a, t) → Spells (w a) s t) :
    Moves p := by
  intro s a t _ ha
  obtain ⟨u, hr, ho, hu⟩ := h s a t ha
  exact ⟨hu.trimmed, .trans ⟨_, hr, ho⟩ hu.leads⟩

theorem Spends.moves {Q : α → List Token → List Leaf → Prop} (h : Spends false 0 0 p Q) :
    Moves p := by
  intro s a t hs ha
  obtain ⟨_, _, hcross, -⟩ := h s a t hs ha
  exact ⟨hcross.trimmed, hcross.toTrail.leads⟩

theorem Moves.token : Moves (Grammar.token sym) :=
  .of_spells (w := fun _ => sym) fun _ _ _ ha => (token_eq_some ha).2

theorem Moves.tokenNl : Moves (Grammar.tokenNl sym) :=
  .of_spells (w := fun _ => sym) fun _ _ _ ha => (tokenNl_eq_some ha).2

theorem Moves.keyword {w : String} (hw : w ∈ Lex.keywords) : Moves (Grammar.keyword w) :=
  (consumes_keyword hw).moves

theorem Moves.ident : Moves Grammar.ident := consumes_ident.moves

theorem Moves.separator : Moves Grammar.separator := spends_separator.moves

theorem Moves.blanksNl : Moves Grammar.blanksNl := spends_blanksNl.moves

theorem Moves.opt (h : Moves p) : Moves (optional p) := by
  intro s o t hs ho
  rcases optional_cases ho with ⟨a, ha, rfl⟩ | ⟨rfl, rfl⟩
  · exact h s a t hs ha
  · exact ⟨hs, [], rfl, rfl⟩

theorem Begins.reached {f : α → β → α} (h : Begins p q f s a t) (hs : Reached src s) (hp : Moves p)
    (hq : Moves q) :
    Reached src t := by
  obtain ⟨x, u, bs, hx, hr, -⟩ := h
  have hu := hp.reached hs hx
  clear hx
  induction hr with
  | nil => exact hu
  | cons first _ _ ih => exact ih (hq.reached hu first)

/-! ### Origins of phrases -/

/-- Expressions and types that a text can spell alone. The other ones are the elements of composite
literals that leave their type out or have a key, dots, and the signatures of methods, which have no
word in front. -/
def Expr.standsAlone : Expr → Bool
  | .composite none _ _ _ | .keyValue _ _ _ | .ellipsis _ _ | .func ⟨none, _, _⟩ => false
  | _ => true

/-- The signature of a method has no place of its own, so its types stand directly in the
interface. -/
def Field.parts (f : Field) : List Phrase :=
  match f.type with
  | .func ⟨none, params, results⟩ => FuncType.children ⟨none, params, results⟩
  | t => [.expr t]

/-- What stands directly below an expression. The signature of a function literal is a type there,
too. -/
def Expr.parts : Expr → List Phrase
  | .funcLit t body => .expr (.func t) :: body.children
  | .interface _ methods => methods.list.flatMap Field.parts
  | e => e.children

def Phrase.parts : Phrase → List Phrase
  | expr e => e.parts
  | stmt s => s.children

theorem Expr.mem_children (hc : c ∈ e.children) :
    c ∈ e.parts ∨ (∃ t : FuncType, .expr (.func t) ∈ e.parts ∧ c ∈ t.children) ∨
      ∃ params results, c = .expr (.func ⟨none, params, results⟩) ∧
      ∀ d ∈ c.children, d ∈ e.parts := by
  cases e with
  | funcLit t body =>
    rcases List.mem_append.1 hc with hc | hc
    · exact .inr (.inl ⟨t, .head _, hc⟩)
    · exact .inl (.tail _ hc)
  | interface pos methods =>
    obtain ⟨f, hf, rfl⟩ := List.mem_map.1 hc
    have hparts : ∀ d ∈ f.parts, d ∈ (Expr.interface pos methods).parts :=
      fun d hd => List.mem_flatMap.2 ⟨f, hf, hd⟩
    unfold Field.parts at hparts
    split at hparts
    case h_1 params results ht =>
      exact .inr (.inr ⟨params, results, by rw [ht], by rw [ht]; exact hparts⟩)
    case h_2 => exact .inl (hparts _ (by simp))
  | _ => exact .inl hc

/-- Phrases that have their places between two offsets, one behind the other in some order. -/
inductive Laid (P : Nat → Nat → Phrase → Prop) : Nat → List Phrase → Nat → Prop
  | nil {lo hi : Nat} (h : lo ≤ hi) : Laid P lo [] hi
  | cons {lo a b hi : Nat} {n : Phrase} {l : List Phrase} (hlo : lo ≤ a) (hab : a ≤ b) (h : P a b n)
      (hl : Laid P b l hi) :
      Laid P lo (n :: l) hi
  | among {lo hi : Nat} {l l' : List Phrase} (hl : Subperm l l') (h : Laid P lo l' hi) : Laid P lo l
      hi

namespace Laid

variable {P : Nat → Nat → Phrase → Prop} {lo mid hi : Nat} {l l' : List Phrase}

theorem le (h : Laid P lo l hi) : lo ≤ hi := by
  induction h with
  | nil h => exact h
  | cons hlo hab _ _ ih => omega
  | among _ _ ih => exact ih

theorem mono (h : Laid P lo l mid) {lo' : Nat} (hlo : lo' ≤ lo) (hhi : mid ≤ hi) :
    Laid P lo' l hi := by
  induction h generalizing lo' with
  | nil h => exact .nil (by omega)
  | cons hlo' hab hn _ ih => exact .cons (by omega) hab hn (ih (Nat.le_refl _) hhi)
  | among hl _ ih => exact .among hl (ih hlo hhi)

theorem append (h : Laid P lo l mid) (h' : Laid P mid l' hi) : Laid P lo (l ++ l') hi := by
  induction h with
  | nil h => exact h'.mono h (Nat.le_refl _)
  | cons hlo hab hn _ ih => exact .cons hlo hab hn (ih h')
  | among hl _ ih => exact .among (List.Subperm.append hl (.refl _)) (ih h')

theorem single (hlo : lo ≤ mid) (hle : mid ≤ hi) (h : P mid hi n) : Laid P lo [n] hi :=
  .cons hlo hle h (.nil (Nat.le_refl _))

theorem mem (h : Laid P lo l hi) (hn : n ∈ l) : ∃ a b, lo ≤ a ∧ b ≤ hi ∧ P a b n := by
  induction h with
  | nil => cases hn
  | cons hlo hab h hl ih =>
    rcases List.mem_cons.1 hn with rfl | hn
    · exact ⟨_, _, hlo, hl.le, h⟩
    · obtain ⟨a, b, ha, hb, h⟩ := ih hn
      exact ⟨a, b, by omega, hb, h⟩
  | among hl _ ih => exact ih (hl.subset hn)

end Laid

/-- A phrase was read at a place of the text, or it was built from such phrases. It begins and ends
with its window. -/
inductive Sourced (src : List Char) (g : Rules) : Nat → Nat → Phrase → Prop
  | expr {u t : Cursor} {e : Expr} {hi : Nat} (hu : Reached src u) (h : Origin g u t e)
      (hstop : e.stop = some hi) (hlt : u.offset < hi) : Sourced src g u.offset hi (.expr e)
  | elements {u t : Cursor} {x : Elements} {hi : Nat} (hu : Reached src u)
      (h : elements g u = some (x, t))
      (hstop : Pos.plus x.rbrace 1 = some hi) (hlt : u.offset < hi) : Sourced src g u.offset hi
      (.expr (composite none x))
  | built {e : Expr} {lo hi : Nat} (hn : e.standsAlone = false) (hstart : e.start = some lo)
      (hstop : e.stop = some hi)
      (hlt : lo < hi) (below : Laid (Sourced src g) lo e.parts hi) : Sourced src g lo hi (.expr e)
  | stmt {u t : Cursor} {s : Stmt} (hu : Reached src u) (h : stmt g u = some (s, t)) : Sourced src g
      u.offset t.offset (.stmt s)
  | conditional {u t : Cursor} {s : Stmt} (hu : Reached src u) (h : conditional g u = some (s, t)) :
      Sourced src g u.offset t.offset (.stmt s)
  | made {s : Stmt} {lo hi : Nat} (below : Laid (Sourced src g) lo s.children hi) : Sourced src g lo
      hi (.stmt s)

theorem Sourced.lt (h : Sourced src g lo hi (.expr e)) : lo < hi := by
  cases h <;> assumption

theorem Laid.lt {l : List Phrase} (h : Laid (Sourced src g) lo l hi) (he : .expr e ∈ l) :
    lo < hi := by
  obtain ⟨a, b, ha, hb, he⟩ := h.mem he
  have hlt := he.lt
  omega

/-! ### Rules that draw phrases from the text -/

/-- Behind phrases that are laid out in the text, `p` reads further ones. Those that stand below its
value are laid out up to an offset of which `Q` holds. -/
def Draws {α : Type} (src : List Char) (g : Rules) (p : Parser α) (before : List Phrase)
    (below : α → List Phrase) (Q : α → Nat → Prop) : Prop :=
  ∀ s a t lo, Reached src s → Laid (Sourced src g) lo before s.offset → p s = some (a, t) →
    Reached src t ∧ ∃ hi ≤ t.offset, Laid (Sourced src g) lo (below a) hi ∧ Q a hi

/-- The last phrase ends where the value does. -/
def UpTo {α : Type} (stop : α → Pos) (a : α) (hi : Nat) : Prop := stop a = some hi

def Anywhere {α : Type} (_ : α) (_ : Nat) : Prop := True

/-- The parts of an expression up to its end. -/
abbrev DrawsParts (src : List Char) (g : Rules) (p : Parser Expr) : Prop :=
  Draws src g p [] Expr.parts (UpTo Expr.stop)

abbrev DrawsExpr (src : List Char) (g : Rules) (p : Parser Expr) : Prop :=
  Draws src g p [] (fun e => [.expr e]) (UpTo Expr.stop)

abbrev DrawsStmt (src : List Char) (g : Rules) (p : Parser Stmt) : Prop :=
  Draws src g p [] Stmt.children Anywhere

namespace Draws

variable {α β γ : Type} {src : List Char} {g : Rules} {p p' : Parser α} {q : Parser β}
  {before : List Phrase} {mid below : α → List Phrase} {Q Q' : α → Nat → Prop}
  {below' : β → List Phrase} {R : β → Nat → Prop}

theorem after {k : β → Parser α} (hq : Moves q) (hp : ∀ b, Draws src g (k b) before below Q) :
    Draws src g (q >>= k) before below Q := by
  intro s a t lo hs hl ha
  obtain ⟨b, u, hb, ha⟩ := bind_eq_some ha
  exact hp b u a t lo (hq.reached hs hb) (hl.mono (Nat.le_refl _) (hq.le hs hb)) ha

theorem of_below (hp : Moves p) (h : ∀ {s a t}, Reached src s → p s = some (a, t) →
    ∃ hi ≤ t.offset, Laid (Sourced src g) s.offset (below a) hi ∧ Q a hi) :
    Draws src g p [] below Q := by
  intro s a t lo hs hl ha
  obtain ⟨hi, hle, hlaid, hQ⟩ := h hs ha
  exact ⟨hp.reached hs ha, hi, hle, hlaid.mono hl.le (Nat.le_refl _), hQ⟩

theorem frame (h : Draws src g p [] below Q) :
    Draws src g p before (fun a => before ++ below a) Q := by
  intro s a t lo hs hl ha
  obtain ⟨ht, hi, hle, hbelow, hQ⟩ := h s a t s.offset hs (.nil (Nat.le_refl _)) ha
  exact ⟨ht, hi, hle, hl.append hbelow, hQ⟩

/-- What follows can rely on what `p` yields. -/
theorem bind_of {k : α → Parser β} {Y : α → Prop} (h : Draws src g p [] mid Q) (hy : Yields p Y)
    (hk : ∀ a, Y a → Draws src g (k a) (before ++ mid a) below' R) :
    Draws src g (p >>= k) before below' R := by
  intro s b t lo hs hl hb
  obtain ⟨a, u, ha, hb⟩ := bind_eq_some hb
  obtain ⟨hu, hi, hle, hmid, -⟩ := h.frame s a u lo hs hl ha
  exact hk a (hy s a u ha) u b t lo hu (hmid.mono (Nat.le_refl _) hle) hb

theorem bind {k : α → Parser β} (h : Draws src g p [] mid Q)
    (hk : ∀ a, Draws src g (k a) (before ++ mid a) below' R) :
    Draws src g (p >>= k) before below' R := h.bind_of (.any p) fun a _ => hk a

theorem pure {a : α} (h : Subperm (below a) before) :
    Draws src g (Pure.pure a) before below Anywhere := by
  intro s a' t lo hs hl ha
  obtain ⟨rfl, rfl⟩ := result_inj ha
  exact ⟨hs, s.offset, Nat.le_refl _, .among h hl, trivial⟩

theorem give {F : α → β} (h : Draws src g p [] mid fun a => R (F a))
    (hF : ∀ a, Subperm (below' (F a)) (before ++ mid a)) :
    Draws src g (p >>= fun a => Pure.pure (F a)) before below' R := by
  intro s b t lo hs hl hb
  obtain ⟨a, ha, rfl⟩ := give_eq_some hb
  obtain ⟨hu, hi, hle, hmid, hR⟩ := h.frame s a t lo hs hl ha
  exact ⟨hu, hi, hle, .among (hF a) hmid, hR⟩

theorem mono (h : Draws src g p before mid Q) (hsub : ∀ a, Subperm (below a) (mid a))
    (hQ : ∀ a hi, Q a hi → Q' a hi) :
    Draws src g p before below Q' := by
  intro s a t lo hs hl ha
  obtain ⟨ht, hi, hle, hmid, h⟩ := h s a t lo hs hl ha
  exact ⟨ht, hi, hle, .among (hsub a) hmid, hQ a hi h⟩

theorem orElse (h : Draws src g p before below Q) (h' : Draws src g p' before below Q) :
    Draws src g (p <|> p') before below Q := by
  intro s a t lo hs hl ha
  rcases orElse_eq_some ha with ha | ⟨-, ha⟩
  · exact h s a t lo hs hl ha
  · exact h' s a t lo hs hl ha

theorem seqRight (hq : Moves q) (h : Draws src g p [] below Q) : Draws src g (q *> p) [] below Q :=
  after (k := fun _ => p) hq fun _ => h

theorem seqLeft (h : Draws src g p [] below Q) (hq : Moves q) :
    Draws src g (p <* q) [] below Anywhere :=
  bind (k := fun a => q >>= fun _ => Pure.pure a) h fun _ => after hq fun _ => pure (.refl _)

theorem opt (h : Draws src g p [] below Q) :
    Draws src g (optional p) [] (fun o => o.toList.flatMap below) Anywhere :=
  orElse (bind (k := fun a => Pure.pure (some a)) h fun a => pure (by simp [Subperm.refl]))
    (pure (by simp))

theorem many (h : Draws src g p [] below Q) :
    Draws src g (many p) [] (fun as => as.flatMap below) Anywhere := by
  have hm : ∀ s, Reached src s → Reached src (manyFrom p s).2 ∧
      Laid (Sourced src g) s.offset ((manyFrom p s).1.flatMap below) (manyFrom p s).2.offset := by
    intro s
    fun_induction manyFrom p s with
    | case1 s hp | case3 s a next hp hlt => exact fun hs => ⟨hs, .nil (Nat.le_refl _)⟩
    | case2 s a next hp hlt as last hrest ih =>
      intro hs
      obtain ⟨hnext, hi, hle, ha, -⟩ := h s a next s.offset hs (.nil (Nat.le_refl _)) hp
      rw [hrest] at ih
      obtain ⟨hlast, has⟩ := ih hnext
      exact ⟨hlast, (ha.mono (Nat.le_refl _) hle).append has⟩
  intro s as t lo hs hl has
  have hfrom : manyFrom p s = (as, t) := Option.some.inj has
  obtain ⟨ht, hlaid⟩ := hm s hs
  rw [hfrom] at ht hlaid
  exact ⟨ht, t.offset, Nat.le_refl _, hlaid.mono hl.le (Nat.le_refl _), trivial⟩

theorem sepBy1 (h : Draws src g p [] below Q) (hq : Moves q) :
    Draws src g (sepBy1 p q) [] (fun as => as.flatMap below) Anywhere :=
  bind h fun _ => bind (many (seqRight hq h)) fun _ => pure (by simp [Subperm.refl])

theorem sepBy (h : Draws src g p [] below Q) (hq : Moves q) :
    Draws src g (sepBy p q) [] (fun as => as.flatMap below) Anywhere :=
  orElse (sepBy1 h hq) (pure (by simp))

theorem sepEndBy (h : Draws src g p [] below Q) (hq : Moves q) :
    Draws src g (sepEndBy p q) [] (fun as => as.flatMap below) Anywhere :=
  orElse (seqLeft (sepBy1 h hq) hq.opt) (pure (by simp))

theorem thenOpt {k : α → Option β → Parser γ} {out : γ → List Phrase} {T : α → β → Nat → Prop}
    {S : γ → Nat → Prop} (hp : Draws src g p [] mid Q) (hp' : Draws src g p [] below Q')
    (hq : ∀ a, Draws src g q [] below' (T a))
    (hnone : ∀ a, ∃ x, k a none = Pure.pure x ∧ Subperm (out x) (mid a) ∧ ∀ hi, Q a hi → S x hi)
    (hsome : ∀ a b, ∃ x, k a (some b) = Pure.pure x ∧ Subperm (out x) (below a ++ below' b) ∧ ∀ hi,
      T a b hi → S x hi) :
    Draws src g (p >>= fun a => optional q >>= k a) [] out S := by
  intro s x t lo hs hl hx
  obtain ⟨a, u, ha, hx⟩ := bind_eq_some hx
  obtain ⟨o, v, ho, hx⟩ := bind_eq_some hx
  rcases optional_cases ho with ⟨b, hb, rfl⟩ | ⟨rfl, rfl⟩
  · obtain ⟨y, hy, hsub, hS⟩ := hsome a b
    rw [hy] at hx
    obtain ⟨rfl, rfl⟩ := result_inj hx
    obtain ⟨hu, hi, hle, hbelow, -⟩ := hp' s a u lo hs hl ha
    obtain ⟨hv, hi', hle', hbelow', hT⟩ :=
      (hq a).frame u b v lo hu (hbelow.mono (Nat.le_refl _) hle) hb
    exact ⟨hv, hi', hle', .among hsub hbelow', hS hi' hT⟩
  · obtain ⟨y, hy, hsub, hS⟩ := hnone a
    rw [hy] at hx
    obtain ⟨rfl, rfl⟩ := result_inj hx
    obtain ⟨hu, hi, hle, hmid, hQ⟩ := hp s a u lo hs hl ha
    exact ⟨hu, hi, hle, .among hsub hmid, hS hi hQ⟩

end Draws

namespace Grammar

variable {f : File}

section Nodes

variable {src : List Char} {g : Rules}

theorem draws_origin {node : α → Expr} (hg : g.Spanned) (hp : Moves p)
    (h : ∀ s a t, Reached src s → p s = some (a, t) → Origin g s t (node a)) :
    Draws src g p [] (fun a => [.expr (node a)]) (UpTo fun a => (node a).stop) := by
  refine .of_below hp fun {s a t} hs ha => ?_
  have horigin := h s a t hs ha
  obtain ⟨hi, hstop, hlt, hle⟩ := (horigin.stretch hg hs.trimmed).stop_eq
  exact ⟨hi, hle, .single (Nat.le_refl _) (Nat.le_of_lt hlt) (.expr hs horigin hstop hlt), hstop⟩

theorem draws_close {sym : String} (hsym : sym ∈ [")", "]", "\x7d"]) :
    Draws src g (token sym) [] (fun _ => []) (UpTo fun pos => Pos.plus pos 1) := by
  intro s pos t lo hs hl h
  obtain ⟨hi, hstop, hlt, hle⟩ := (spans_close hsym s pos t hs.trimmed h).stop_eq
  exact ⟨Moves.token.reached hs h, hi, hle, hl.mono (Nat.le_refl _) (Nat.le_of_lt hlt), hstop⟩

end Nodes

attribute [local simp] Phrase.children Expr.parts Expr.children FuncType.children FieldList.children
  Block.children Stmt.children
  Spec.children GenDecl.children Suffix.apply composite Subperm.refl UpTo
attribute [local simp ←] List.map_eq_flatMap

/-- What the five open rules read, the rules themselves read, too. -/
structure Rules.Sources (src : List Char) (g : Rules) : Prop where
  spanned : g.Spanned
  expr {s t : Cursor} {e : Expr} : Reached src s → g.expr s = some (e, t) → Origin g s t e
  type {s t : Cursor} {e : Expr} : Reached src s → g.type s = some (e, t) → Origin g s t e
  stmt {s t : Cursor} {x : Stmt} : Reached src s → g.stmt s = some (x, t) →
    Grammar.stmt g s = some (x, t)
  elements {s t : Cursor} {x : Elements} : Reached src s → g.elements s = some (x, t) →
    Grammar.elements g s = some (x, t)
  conditional {s t : Cursor} {x : Stmt} : Reached src s → g.conditional s = some (x, t) →
    Grammar.conditional g s = some (x, t)

section Open

variable {src : List Char} {g : Rules} (hg : g.Sources src)

include hg

theorem draws_ident : Draws src g ident [] (fun id => [.expr (.ident id)]) (UpTo Ident.stop) :=
  draws_origin hg.spanned .ident fun _ _ _ _ => .of_ident

theorem draws_literal :
    Draws src g literal [] (fun l => [.expr (.lit l)]) (UpTo fun l => (Expr.lit l).stop) :=
  draws_origin hg.spanned consumes_literal.moves fun _ _ _ _ => .of_literal

theorem draws_expr : DrawsExpr src g g.expr :=
  draws_origin hg.spanned hg.spanned.spelled.expr.moves fun _ _ _ => hg.expr

theorem draws_typeNode : DrawsExpr src g g.type :=
  draws_origin hg.spanned hg.spanned.spelled.type.moves fun _ _ _ => hg.type

theorem draws_stmtNode : Draws src g g.stmt [] (fun x => [.stmt x]) Anywhere := by
  intro s x t lo hs hl h
  have hm := hg.spanned.spelled.stmt.moves
  exact ⟨hm.reached hs h, t.offset, Nat.le_refl _,
    .single hl.le (hm.le hs h) (.stmt hs (hg.stmt hs h)), trivial⟩

theorem draws_elementsNode :
    Draws src g g.elements [] (fun x => [.expr (composite none x)])
      (UpTo fun x => Pos.plus x.rbrace 1) := by
  intro s x t lo hs hl h
  obtain ⟨hi, hstop, hlt, hle⟩ := (hg.spanned.elements s x t hs.trimmed h).stop_eq
  exact ⟨hg.spanned.spelled.elements.moves.reached hs h, hi, hle,
    .single hl.le (Nat.le_of_lt hlt) (.elements hs (hg.elements hs h) hstop hlt), hstop⟩

end Open

/-! ### Types and signatures -/

section Types

variable {src : List Char} {g : Rules}

theorem groupFrom_subperm (waiting : List Ident) (entries : List (Option Ident × Expr)) :
    Subperm ((groupFrom waiting entries).map fun f => Phrase.expr f.type)
      (waiting.map (fun id => .expr (.ident id)) ++ entries.map fun x => .expr x.2) := by
  fun_induction groupFrom waiting entries with
  | case1 waiting => simp [Function.comp_def]
  | case2 waiting name type entries ih =>
    exact ((List.subperm_cons _).2 ih).trans (List.sublist_append_right _ _).subperm
  | case3 waiting name entries ih => simpa using ih
  | case4 waiting type entries _ ih =>
    exact ((List.subperm_cons _).2 ih).trans List.perm_middle.symm.subperm

theorem groupParams_subperm (entries : List (Option Ident × Expr)) :
    Subperm ((groupParams entries).map fun f => Phrase.expr f.type)
      (entries.map fun x => .expr x.2) := by
  unfold groupParams
  split
  · simp [Function.comp_def]
  · exact groupFrom_subperm [] entries

variable (hg : g.Sources src)

include hg

theorem draws_typeName : DrawsParts src g typeName :=
  .thenOpt (draws_ident hg) (draws_ident hg) (fun _ => .seqRight .token (draws_ident hg))
    (fun x => ⟨_, rfl, by simp, fun _ h => h⟩)
    fun x sel => ⟨_, rfl, (List.sublist_append_left [_] [_]).subperm, fun _ h => h⟩

theorem draws_paramType : DrawsExpr src g (paramType g) := by
  refine .orElse (fun s e t lo hs hl h => ?_) (draws_typeNode hg)
  obtain ⟨dots, u, hdots, h⟩ := bind_eq_some h
  obtain ⟨elem, helem, rfl⟩ := give_eq_some h
  have hu := Moves.token.reached hs hdots
  have hle := Moves.token.le hs hdots
  obtain ⟨hv, hi, hhi, hlaid, hstop⟩ := draws_typeNode hg u elem t s.offset hu (.nil hle) helem
  have hlt := hlaid.lt (List.mem_singleton.2 rfl)
  exact ⟨hv, hi, hhi, .single hl.le (Nat.le_of_lt hlt)
    (.built rfl (token_eq_some hdots).1 hstop hlt hlaid), hstop⟩

theorem draws_param : Draws src g (param g) [] (fun x => [.expr x.2]) Anywhere :=
  .orElse (.after .ident fun _ => .bind (draws_paramType hg) fun _ => .pure (by simp))
    (.bind (draws_paramType hg) fun _ => .pure (by simp))

theorem draws_params :
    Draws src g (params g) [] FieldList.children (UpTo fun l => Pos.plus l.closing 1) :=
  .after .tokenNl fun _ => .bind (.sepEndBy (draws_param hg) .tokenNl) fun entries =>
    .after .blanksNl fun _ =>
    .give (draws_close (by simp)) fun _ => by simpa using groupParams_subperm entries

theorem draws_results (funcPos : Pos) (params : FieldList) :
    Draws src g (results g) [] FieldList.children
      (UpTo fun r => FuncType.stop ⟨funcPos, params, some r⟩) := by
  obtain ⟨_, _, _⟩ := params
  refine .orElse ((draws_params hg).mono (fun _ => .refl _) fun r hi h => ?_)
    (.give (draws_typeNode hg) fun _ => by simp)
  obtain ⟨opening, list, _ | closing⟩ := r
  · cases h
  · exact h

theorem draws_signature (funcPos : Pos) :
    Draws src g (signature g funcPos) [] FuncType.children (UpTo FuncType.stop) := by
  refine .thenOpt (draws_params hg) (draws_params hg) (draws_results hg funcPos) (fun params => ?_)
    fun params r => ⟨_, rfl, by simp, fun _ h => h⟩
  obtain ⟨_, _, _⟩ := params
  exact ⟨_, rfl, by simp, fun _ h => h⟩

theorem draws_pointerType : DrawsParts src g (pointerType g) :=
  .after .token fun _ => .give (draws_typeNode hg) fun _ => by simp

theorem draws_arrayType : DrawsParts src g (arrayType g) := by
  have hlen : DrawsExpr src g ((do return .ellipsis (← tokenNl "...") none) <|> g.expr) := by
    refine .orElse (fun s e t lo hs hl h => ?_) (draws_expr hg)
    obtain ⟨dots, hdots, rfl⟩ := give_eq_some h
    obtain ⟨rfl, w, -, hw, hskips⟩ := tokenNl_eq_some hdots
    have hle := hskips.leads.le
    have hstop : (Expr.ellipsis (some s.offset) none).stop = some (s.offset + 3) := rfl
    refine ⟨Moves.tokenNl.reached hs hdots, s.offset + 3, ?_, ?_, hstop⟩
    · exact hw ▸ hle
    · exact .single hl.le (Nat.le_add_right _ _) (.built rfl rfl hstop (by omega) (.nil (by omega)))
  exact .after .tokenNl fun _ => .bind (.opt hlen) fun len => .after .token fun _ =>
    .give (draws_typeNode hg) fun _ => by simp

theorem draws_mapType : DrawsParts src g (mapType g) :=
  .after (.keyword (by decide)) fun _ => .after .token fun _ => .bind (draws_typeNode hg) fun _ =>
    .after .token fun _ =>
    .give (draws_typeNode hg) fun _ => by simp

theorem draws_chanType : DrawsParts src g (chanType g) :=
  .after consumes_chanDir.moves fun _ => .give (draws_typeNode hg) fun _ => by simp

theorem draws_structField : Draws src g (structField g) [] (fun f => [.expr f.type]) Anywhere := by
  have htype :
      Draws src g ((do return (← sepBy1 ident (token ","), ← g.type)) <|>
        (do return ([], ← g.type)))
      [] (fun x => [.expr x.2]) Anywhere :=
    .orElse (.after (Consumes.sepBy1 (b := false) consumes_ident spends_inlineComma).moves fun _ =>
      .bind (draws_typeNode hg) fun _ => .pure (by simp))
        (.bind (draws_typeNode hg) fun _ => .pure (by simp))
  exact .bind htype fun ⟨_, _⟩ => .after consumes_literal.moves.opt fun _ => .pure (by simp)

theorem draws_structType : DrawsParts src g (structType g) :=
  .after (.keyword (by decide)) fun _ => .after .tokenNl fun _ =>
    .bind (.sepEndBy (draws_structField hg) .separator) fun _ =>
    .give (draws_close (by simp)) fun _ => by simp

theorem draws_methodSpec : Draws src g (methodSpec g) [] Field.parts Anywhere := by
  have hword : Yields (signature g none) fun t => t.funcPos = none :=
    .after fun _ => .after fun _ => .pure rfl
  refine .orElse (.after .ident fun name => ((draws_signature hg none).bind_of hword fun t ht =>
    .pure ?_)) ?_
  · obtain ⟨funcPos, params, results⟩ := t
    obtain rfl : funcPos = none := ht
    exact .refl _
  · have hname : DrawsExpr src g typeName :=
      draws_origin hg.spanned (consumes_typeName (b := false)).moves fun _ _ _ _ h =>
        .type (orElse_some h)
    have hplain : Yields typeName fun e => Field.parts ⟨[], e, none⟩ = [.expr e] :=
      .after fun x => .after fun sel => by cases sel <;> exact .pure rfl
    exact hname.bind_of hplain fun e he => .pure (by rw [he]; exact .refl _)

theorem draws_interfaceType : DrawsParts src g (interfaceType g) :=
  .after (.keyword (by decide)) fun _ => .after .tokenNl fun _ =>
    .bind (.sepEndBy (draws_methodSpec hg) .separator) fun _ =>
    .give (draws_close (by simp)) fun _ => by simp

theorem draws_funcType : Draws src g (funcType g) [] FuncType.children (UpTo FuncType.stop) :=
  .after (.keyword (by decide)) fun funcPos => draws_signature hg funcPos

theorem draws_parenType : DrawsParts src g (parenType g) :=
  .after .token fun _ => .bind (draws_typeNode hg) fun _ =>
    .give (draws_close (by simp)) fun _ => by simp

theorem draws_type : DrawsParts src g (type g) :=
  .orElse (draws_typeName hg) (.orElse (draws_pointerType hg)
    (.orElse (draws_arrayType hg) (.orElse (draws_mapType hg)
    (.orElse (draws_chanType hg) (.orElse (draws_structType hg) (.orElse (draws_interfaceType hg)
      (.orElse (.give (draws_funcType hg) fun _ => by simp) (draws_parenType hg))))))))

end Types

/-! ### Expressions -/

section Expressions

variable {src : List Char} {g : Rules} (hg : g.Sources src)

include hg

theorem draws_block : Draws src g (block g) [] Block.children (UpTo fun b => Pos.plus b.rbrace 1) :=
  .after .tokenNl fun _ => .bind (.sepEndBy (draws_stmtNode hg) .separator) fun _ =>
    .give (draws_close (by simp)) fun _ => by simp

theorem draws_element : DrawsExpr src g (element g) :=
  .orElse (.give (draws_elementsNode hg) fun _ => .refl _) (draws_expr hg)

omit hg in
theorem starts_elements (g : Rules) : Starts (elements g) Elements.lbrace :=
  (starts_tokenNl _).bind fun _ => .after fun _ => .after fun _ => .after fun _ => .pure rfl

theorem starts_element (hs : Reached src s) (h : element g s = some (e, t)) :
    e.start = some s.offset := by
  rcases orElse_eq_some h with h | ⟨-, h⟩
  · obtain ⟨x, hx, rfl⟩ := give_eq_some h
    exact starts_elements g s x t (hg.elements hs hx)
  · exact (hg.expr hs h).start

theorem draws_keyedElement :
    DrawsExpr src g (keyedElement g) := by
  have hvalue : Draws src g (do return (← tokenNl ":", ← element g)) []
      (fun (x : Pos × Expr) => [.expr x.2]) (UpTo (·.2.stop)) :=
    .after .tokenNl fun _ => .give (draws_element hg) fun _ => .refl _
  intro s e t lo hs hl h
  obtain ⟨key, u, hkey, h⟩ := bind_eq_some h
  obtain ⟨o, v, ho, h⟩ := bind_eq_some h
  rcases optional_cases ho with ⟨⟨colon, value⟩, hx, rfl⟩ | ⟨rfl, rfl⟩
  · obtain ⟨rfl, rfl⟩ := result_inj h
    obtain ⟨hu, mid, hmid, hlaid, -⟩ :=
      draws_element hg s key u s.offset hs (.nil (Nat.le_refl _)) hkey
    obtain ⟨hv, hi, hhi, hlaid, hstop⟩ :=
      hvalue.frame u (colon, value) v s.offset hu (hlaid.mono (Nat.le_refl _) hmid) hx
    have hlt := hlaid.lt (e := key) (by simp)
    have hstart : (Expr.keyValue key colon value).start = some s.offset := by
      rw [Expr.start]
      exact starts_element hg hs hkey
    exact ⟨hv, hi, hhi, .single hl.le (Nat.le_of_lt hlt) (.built rfl hstart hstop hlt hlaid), hstop⟩
  · obtain ⟨rfl, rfl⟩ := result_inj h
    exact draws_element hg s key u lo hs hl hkey

theorem draws_elements :
    Draws src g (elements g) [] (fun x => x.list.map .expr) (UpTo fun x => Pos.plus x.rbrace 1) :=
  .after .tokenNl fun _ => .bind (.sepEndBy (draws_keyedElement hg) .tokenNl) fun _ =>
    .after .blanksNl fun _ =>
    .give (draws_close (by simp)) fun _ => by simp

theorem draws_elems :
    Draws src g g.elements [] (fun x => x.list.map .expr) (UpTo fun x => Pos.plus x.rbrace 1) :=
  fun s x t lo hs hl h => draws_elements hg s x t lo hs hl (hg.elements hs h)

theorem draws_funcLit : DrawsParts src g (funcLit g) := by
  have htype :
      Draws src g (funcType g) [] (fun t => [.expr (.func t)]) (UpTo fun t => (Expr.func t).stop) :=
    draws_origin hg.spanned (consumes_funcType hg.spanned.spelled).moves fun _ _ _ _ => .of_funcType
  exact .thenOpt (draws_funcType hg) htype (fun _ => draws_block hg)
    (fun t => ⟨_, rfl, by simp, fun _ h => h⟩)
    fun t body => ⟨_, rfl, by simp, fun _ h => by obtain ⟨_, _, _⟩ := body; exact h⟩

theorem draws_literalType : DrawsParts src g (literalType g) := by
  have hnode : DrawsExpr src g (arrayType g <|> mapType g <|> structType g) :=
    draws_origin hg.spanned (Consumes.orElse (consumes_arrayType hg.spanned.spelled)
      (.orElse (consumes_mapType hg.spanned.spelled)
        (consumes_structType hg.spanned.spelled))).moves fun _ _ _ _ => .of_literalType
  exact .thenOpt (.orElse (draws_arrayType hg) (.orElse (draws_mapType hg) (draws_structType hg)))
    hnode
    (fun _ => draws_elems hg) (fun t => ⟨_, rfl, .refl _, fun _ h => h⟩) fun t x =>
    ⟨_, rfl, by simp, fun _ h => h⟩

theorem draws_parenExpr : DrawsParts src g (parenExpr g) :=
  .after .tokenNl fun _ => .bind (draws_expr hg) fun _ => .after .blanksNl fun _ =>
    .give (draws_close (by simp)) fun _ => by simp

theorem draws_operand : DrawsParts src g (operand g) :=
  .orElse (.give (draws_literal hg) fun _ => by simp) (.orElse (draws_funcLit hg)
    (.orElse (draws_literalType hg) (.orElse (draws_chanType hg) (.orElse (draws_interfaceType hg)
      (.orElse (.give (draws_ident hg) fun _ => by simp) (draws_parenExpr hg))))))

theorem draws_suffix (x : Expr) :
    Draws src g (suffix g) [.expr x] (fun suf => (suf.apply x).parts) (UpTo Suffix.stop) := by
  refine .orElse ?assertion (.orElse ?selector (.orElse ?slice (.orElse ?index ?call)))
  case assertion =>
    have htype :
        Draws src g ((do let _ ← keyword "type"; return none) <|> (do return some (← g.type))) []
        (fun t => t.toList.map .expr) Anywhere :=
      .orElse (.after (.keyword (by decide)) fun _ => .pure (by simp))
        (.bind (draws_typeNode hg) fun t => .pure (by simp))
    exact .after .tokenNl fun _ => .after .token fun lparen => .bind htype fun t =>
      .give (draws_close (by simp)) fun _ => by simp
  case selector =>
    exact .after .tokenNl fun _ => .give (draws_ident hg) fun _ =>
      (List.sublist_append_left [_] [_]).subperm
  case slice =>
    exact .after .tokenNl fun lbrack => .bind (.opt (draws_expr hg)) fun low =>
      .after .tokenNl fun _ =>
      .bind (.opt (draws_expr hg)) fun high =>
        .bind (.opt (.seqRight .tokenNl (draws_expr hg))) fun max =>
        .give (draws_close (by simp)) fun _ => by simp
  case index =>
    exact .after .tokenNl fun lbrack => .bind (draws_expr hg) fun i =>
      .give (draws_close (by simp)) fun _ => by simp
  case call =>
    exact .after .tokenNl fun lparen => .bind (.sepBy (draws_expr hg) .tokenNl) fun args =>
      .after (Moves.opt .tokenNl) fun dots => .after (Moves.opt .tokenNl) fun _ =>
        .after .blanksNl fun _ =>
        .give (draws_close (by simp)) fun _ => by simp

theorem draws_tail (inHeader : Bool) (x : Expr) :
    Draws src g (tail g inHeader) [.expr x] (fun suf => (suf.apply x).parts)
      (UpTo Suffix.stop) := by
  cases inHeader with
  | true => exact draws_suffix hg x
  | false => exact .orElse (draws_suffix hg x) (.give (draws_elems hg) fun _ => by simp)

end Expressions

/-! ### Operators -/

/-- The parts of an expression that was read from `u` to `t` are laid out up to its end. -/
def LaidBelow (src : List Char) (g : Rules) (u t : Cursor) (e : Expr) : Prop :=
  ∃ hi ≤ t.offset, Laid (Sourced src g) u.offset e.parts hi ∧ e.stop = some hi

section Operators

variable {src : List Char} {g : Rules} (hg : g.Sources src) {inHeader : Bool} {u t : Cursor}
  {e : Expr}

include hg

theorem draws_bindingNode (inHeader : Bool) (k : Nat) :
    DrawsExpr src g (binding (primaryOf g inHeader) k) :=
  draws_origin hg.spanned (consumes_binding hg.spanned inHeader k).moves fun _ _ _ _ => .of_binding

theorem draws_headerExpr : DrawsExpr src g (headerExpr g) :=
  draws_bindingNode hg true 0

/-- What was read in rounds is joined from the value of the rounds before, which stands in front of
the last round. -/
theorem below_begins {p : Parser Expr} {f : Expr → β → Expr} {stop : β → Pos} (hu : Reached src u)
    (hp : DrawsParts src g p)
    (hq : ∀ x, Draws src g q [.expr x] (fun b => (f x b).parts) (UpTo stop))
    (hf : ∀ x b, (f x b).stop = stop b) (hmp : Moves p) (hmq : Moves q)
    (horigin : ∀ {x v}, Begins p q f u x v → Origin g u v x) (h : Begins p q f u e t) :
    LaidBelow src g u t e := by
  rcases h.cases_snoc with h | ⟨x, b, v, hx, hb, rfl⟩
  · exact (hp u e t u.offset hu (.nil (Nat.le_refl _)) h).2
  · obtain ⟨mid, hstop, hlt, hle⟩ := ((horigin hx).stretch hg.spanned hu.trimmed).stop_eq
    have hlaid : Laid (Sourced src g) u.offset [.expr x] v.offset :=
      (Laid.single (Nat.le_refl _) (Nat.le_of_lt hlt) (.expr hu (horigin hx) hstop hlt)).mono
        (Nat.le_refl _) hle
    obtain ⟨-, hi, hhi, hlaid, hstop⟩ := hq x v b t u.offset (hx.reached hu hmp hmq) hlaid hb
    exact ⟨hi, hhi, hlaid, (hf x b).trans hstop⟩

theorem below_level {k : Nat} (hk : 0 < k) (hk' : k < 6) (hu : Reached src u)
    (hp : DrawsParts src g (binding (primaryOf g inHeader) (k + 1)))
    (h : Begins (binding (primaryOf g inHeader) (k + 1)) (step g inHeader k)
      (fun x st => joinBinary x st.1 st.2) u e t) :
    LaidBelow src g u t e := by
  have hbinding := (consumes_binding hg.spanned inHeader (k + 1)).moves
  have hop := (consumes_operatorOf (b := false) (levelAt k)).moves
  have hstep (x : Expr) :
      Draws src g (step g inHeader k) [.expr x] (fun st => (joinBinary x st.1 st.2).parts)
      (UpTo fun st => st.2.stop) :=
    .after hop fun _ => .give (draws_bindingNode hg inHeader (k + 1)) fun _ => .refl _
  exact below_begins hg hu hp hstep (fun _ _ => rfl) hbinding
    (consumes_step hg.spanned inHeader k).moves (.level inHeader hk hk') h

theorem below_primary (hl : (tokenOf Lead.symbol leads <* blanks) u = none) (hu : Reached src u)
    (h : Begins (operand g) (tail g inHeader) Suffix.apply u e t) :
    LaidBelow src g u t e :=
  below_begins hg hu (draws_operand hg) (draws_tail hg inHeader) Suffix.stop_apply
    (consumes_operand hg.spanned.spelled).moves
    (consumes_tail hg.spanned inHeader).moves (.primary inHeader hl) h

theorem below_unaryExpr (hu : Reached src u)
    (h : unaryExpr (primaryOf g inHeader) u = some (e, t)) :
    LaidBelow src g u t e := by
  induction hlen : u.rest.length using Nat.strongRecOn generalizing u e with
  | _ len ih =>
    subst hlen
    rcases unaryExpr_cases h with ⟨hl, h⟩ | ⟨l, v, x, hl, hlt, hx, rfl⟩
    · exact below_primary hg hl hu (.of_many h)
    · have hlead : Moves (tokenOf Lead.symbol leads <* blanks) :=
        (consumes_tokenOf (b := false) (.inl rfl) (by decide)).moves
      have hv := hlead.reached hu hl
      have hle := hlead.le hu hl
      obtain ⟨hi, hhi, hbelow, hstop⟩ := ih _ hlt hv hx rfl
      refine ⟨hi, hhi, ?_, (stop_applyLead ..).trans hstop⟩
      have hself : Laid (Sourced src g) u.offset [.expr x] hi := by
        obtain ⟨hi', hstop', hlt', -⟩ :=
          ((Origin.unary inHeader hx).stretch hg.spanned hv.trimmed).stop_eq
        obtain rfl : hi = hi' := Option.some.inj (hstop.symm.trans hstop')
        exact .single hle (Nat.le_of_lt hlt') (.expr hv (.unary inHeader hx) hstop hlt')
      unfold applyLead
      split
      -- an arrow takes the place of the word of a channel type, and the type below it stays
      case h_2 => exact hbelow.mono hle (Nat.le_refl _)
      all_goals exact hself

theorem draws_binding (inHeader : Bool) {k : Nat} (hk : 0 < k) (hk' : k ≤ 6) :
    DrawsParts src g (binding (primaryOf g inHeader) k) := by
  -- from the strongest operators to the weakest
  induction hi : 6 - k generalizing k with
  | zero =>
    obtain rfl : k = 6 := by omega
    exact .of_below (consumes_binding hg.spanned inHeader 6).moves fun hs h =>
      below_unaryExpr hg hs h
  | succ i ih =>
    refine .of_below (consumes_binding hg.spanned inHeader k).moves fun hs h => ?_
    rw [binding_eq_chain _ hk (by omega)] at h
    exact below_level hg hk (by omega) hs (ih (by omega) (by omega) (by omega)) (.of_many h)

theorem Origin.below (h : Origin g u t e) (hu : Reached src u) :
    LaidBelow src g u t e := by
  cases h with
  | level inHeader hk hk' h =>
    exact below_level hg hk hk' hu (draws_binding hg inHeader (by omega) (by omega)) h
  | unary inHeader h => exact below_unaryExpr hg hu h
  | primary inHeader hl h => exact below_primary hg hl hu h
  | type h => exact (draws_type hg u e t u.offset hu (.nil (Nat.le_refl _)) h).2

end Operators

/-! ### Declarations and statements -/

section Statements

variable {src : List Char} {g : Rules}

theorem draws_made {p : Parser Stmt} {Q : Stmt → Nat → Prop}
    (h : Draws src g p [] Stmt.children Q) :
    Draws src g p [] (fun s => [.stmt s]) Anywhere := by
  intro s x t lo hs hl hx
  obtain ⟨ht, hi, hle, hlaid, -⟩ := h s x t s.offset hs (.nil (Nat.le_refl _)) hx
  exact ⟨ht, hi, hle, .single hl.le hlaid.le (.made hlaid), trivial⟩

theorem draws_simpleStmt {p : Parser Expr} {Q : Expr → Nat → Prop}
    (hp : Draws src g p [] (fun e => [.expr e]) Q) :
    DrawsStmt src g (simpleStmt p) := by
  refine .orElse ?assign (.orElse ?send (.orElse ?incDec ?expr))
  case assign =>
    exact .bind (.sepBy1 hp .tokenNl) fun _ =>
      .after (consumes_assignOp (b := false) (.inr rfl) _).moves fun _ =>
      .bind (.sepBy1 hp .tokenNl) fun _ => .pure (by simp)
  case send => exact .bind hp fun _ => .after .tokenNl fun _ => .bind hp fun _ => .pure (by simp)
  case incDec =>
    exact .bind hp fun _ => .after (consumes_tokenOf (b := false) (.inl rfl) (by decide)).moves
      fun _ => .pure (by simp)
  case expr => exact .bind hp fun _ => .pure (by simp)

variable (hg : g.Sources src)

include hg

theorem draws_exprList : Draws src g (exprList g) [] (fun es => es.map .expr) Anywhere :=
  (Draws.sepBy1 (draws_expr hg) .tokenNl).mono (fun _ => by simp) fun _ _ h => h

theorem draws_genDecl : Draws src g (genDecl g) [] GenDecl.children Anywhere := by
  have hdecl : ∀ (word : DeclWord) {spec : Parser Spec},
      Draws src g spec [] Spec.children Anywhere →
      Draws src g (declOf word spec) [] GenDecl.children Anywhere := fun word spec h =>
    .after (.keyword (by cases word <;> decide)) fun _ =>
      .orElse (.after .tokenNl fun _ => .bind (.sepEndBy h .separator) fun _ =>
        .after .token fun _ => .pure (by simp)) (.bind h fun _ => .pure (by simp))
  have hvalue : Draws src g (valueSpec g) [] Spec.children Anywhere :=
    .after (Consumes.sepBy1 (b := false) consumes_ident spends_comma).moves fun _ =>
      .bind (.opt (draws_typeNode hg)) fun t =>
      .bind (.opt (.seqRight .tokenNl (draws_exprList hg))) fun values =>
        .pure (by cases values <;> simp)
  have htype : Draws src g (typeSpec g) [] Spec.children Anywhere :=
    .after .ident fun _ => .after (Moves.opt .token) fun _ => .bind (draws_typeNode hg) fun _ =>
      .pure (by simp)
  exact .orElse (hdecl _ hvalue) (.orElse (hdecl _ hvalue) (hdecl _ htype))

theorem draws_clauseBody : Draws src g (clauseBody g) [] (fun ss => ss.map .stmt) Anywhere :=
  (Draws.sepEndBy (draws_stmtNode hg) .separator).mono (fun _ => by simp) fun _ _ h => h

theorem draws_caseClause : DrawsStmt src g (caseClause g) := by
  have hcase :
      Draws src g ((do return (← keyword "case", ← exprList g)) <|>
        (do return (← keyword "default", []))) []
      (fun x => x.2.map .expr) Anywhere :=
    .orElse (.after (.keyword (by decide)) fun _ => .bind (draws_exprList hg) fun _ =>
      .pure (by simp)) (.after (.keyword (by decide)) fun _ => .pure (by simp))
  exact .bind hcase fun _ => .after (consumes_clauseColon (b := false)).moves fun _ =>
    .bind (draws_clauseBody hg) fun _ =>
    .pure (by simp)

theorem draws_commClause : DrawsStmt src g (commClause g) := by
  have hcase :
      Draws src g ((do return (← keyword "case", some (← simple g))) <|>
        (do return (← keyword "default", none))) []
      (fun x => x.2.toList.map .stmt) Anywhere :=
    .orElse (.after (.keyword (by decide)) fun _ =>
      .bind (draws_made (draws_simpleStmt (draws_expr hg))) fun _ => .pure (by simp))
      (.after (.keyword (by decide)) fun _ => .pure (by simp))
  exact .bind hcase fun _ => .after (consumes_clauseColon (b := false)).moves fun _ =>
    .bind (draws_clauseBody hg) fun _ =>
    .pure (by simp)

theorem draws_headerSimple : DrawsStmt src g (headerSimple g) :=
  draws_simpleStmt (draws_headerExpr hg)

theorem draws_headerInit :
    Draws src g (optional (headerInit g)) [] (fun o => o.toList.map .stmt) Anywhere :=
  (Draws.opt (.seqLeft (draws_made (draws_headerSimple hg)) .token)).mono (fun _ => by simp)
    fun _ _ h => h

theorem draws_conditional : DrawsStmt src g (conditional g) := by
  have hm := hg.spanned.spelled.conditional.moves
  have helse : Draws src g g.conditional [] (fun s => [.stmt s]) Anywhere :=
    .of_below hm fun hs h =>
    ⟨_, Nat.le_refl _, .single (Nat.le_refl _) (hm.le hs h) (.conditional hs (hg.conditional hs h)),
      trivial⟩
  have hblock : Draws src g (do return Stmt.block (← block g)) [] (fun s => [.stmt s]) Anywhere :=
    draws_made (.bind (draws_block hg) fun _ => .pure (by simp))
  exact .after (.keyword (by decide)) fun _ => .bind (draws_headerInit hg) fun init =>
    .bind (draws_headerExpr hg) fun cond =>
    .bind (draws_block hg) fun body =>
      .bind (.opt (.seqRight (.keyword (by decide)) (.orElse helse hblock))) fun other =>
      .pure (by simp)

omit hg in
/-- The guard of a type switch stays a statement. Of any other tag its expression is left. -/
def tagParts (tag : Stmt) : List Phrase := if isTypeGuard tag then [.stmt tag] else tag.children

omit hg in
theorem buildSwitch_subperm (switchPos : Pos) (init tag : Option Stmt) (body : Block) :
    Subperm (buildSwitch switchPos init tag body).children
      (init.toList.map .stmt ++ tag.toList.flatMap tagParts ++ body.children) := by
  cases tag with
  | none => simp [buildSwitch]
  | some tag =>
    cases htag : isTypeGuard tag with
    | true => simp [buildSwitch, tagParts, htag]
    | false =>
      simp only [buildSwitch, tagParts, htag, Option.toList_some, List.flatMap_singleton,
        Bool.false_eq_true, if_false]
      split
      · simp
      · exact List.Sublist.subperm (by simp)

theorem draws_switchStmt : DrawsStmt src g (switchStmt g) := by
  have hsimple : Draws src g (headerSimple g) [] tagParts Anywhere := by
    intro s x t lo hs hl h
    unfold tagParts
    split
    · exact draws_made (draws_headerSimple hg) s x t lo hs hl h
    · exact draws_headerSimple hg s x t lo hs hl h
  exact .after (.keyword (by decide)) fun _ => .bind (draws_headerInit hg) fun init =>
    .bind (.opt (.bind hsimple fun _ =>
    .after (spends_guard (b := false) _).moves fun _ => .pure (.refl _))) fun tag =>
      .after .tokenNl fun _ => .bind (.many (draws_made (draws_caseClause hg))) fun list =>
        .after .token fun _ =>
        .pure (by simpa using buildSwitch_subperm _ init tag ⟨_, list, _⟩)

theorem draws_selectStmt : DrawsStmt src g (selectStmt g) :=
  .after (.keyword (by decide)) fun _ => .after .tokenNl fun _ =>
    .bind (.many (draws_made (draws_commClause hg))) fun _ =>
    .after .token fun _ => .pure (by simp)

/-- What the header of a loop contributes, whatever its body. -/
def loopParts (close : Block → Stmt) : List Phrase := (close ⟨none, [], none⟩).children

theorem draws_loopHeader (forPos : Pos) :
    Draws src g (rangeClause g forPos <|> forClause g forPos <|> whileClause g forPos) [] loopParts
      Anywhere := by
  have hexpr := draws_headerExpr hg
  have hsimple : Draws src g (optional (headerSimple g)) []
      (fun o => o.toList.flatMap fun s => [.stmt s]) Anywhere :=
    .opt (draws_made (draws_headerSimple hg))
  refine .orElse ?range (.orElse ?counted ?single)
  case range =>
    have hvars :
        Draws src g (rangeVars g) [] (fun x => .expr x.1 :: x.2.1.toList.map .expr) Anywhere :=
      .bind hexpr fun _ => .bind (.opt (.seqRight .token hexpr)) fun _ =>
        .after (consumes_assignOp (b := false) (.inl rfl) _).moves fun _ => .pure (by simp)
    refine .bind (.opt hvars) fun vars => .after (.keyword (by decide)) fun _ =>
      .bind hexpr fun x => ?_
    split
    · exact .pure (by simp [loopParts])
    · exact .pure (by simp [loopParts])
  case counted =>
    exact .bind hsimple fun init => .after .token fun _ => .bind (.opt hexpr) fun cond =>
      .after .token fun _ =>
      .bind hsimple fun post => .pure (by simp [loopParts])
  case single => exact .bind hexpr fun cond => .pure (by simp [loopParts])

omit hg in
theorem loop_children (forPos : Pos) :
    Yields (rangeClause g forPos <|> forClause g forPos <|> whileClause g forPos)
    fun close => ∀ body, (close body).children = loopParts close ++ body.children := by
  refine .orElse (.after fun vars => .after fun _ => .after fun x => ?_) (.orElse ?_ ?_)
  · split <;> exact .pure fun body => by simp [loopParts]
  · exact .after fun _ => .after fun _ => .after fun _ => .after fun _ => .after fun _ =>
      .pure fun body => by simp [loopParts]
  · exact .after fun _ => .pure fun body => by simp [loopParts]

theorem draws_forStmt : DrawsStmt src g (forStmt g) := by
  refine .after (.keyword (by decide)) fun forPos =>
    .bind_of (.opt (draws_loopHeader hg forPos)) (loop_children forPos).opt
    fun clause hc => .bind (draws_block hg) fun body => ?_
  split
  case h_1 close => exact .pure (by rw [hc close rfl]; simp)
  case h_2 => exact .pure (by simp)

theorem draws_stmt : DrawsStmt src g (stmt g) := by
  have hgo : DrawsStmt src g (goStmt g) :=
    .after (.keyword (by decide)) fun _ => .bind (draws_expr hg) fun _ => .pure (by simp)
  have hdefer : DrawsStmt src g (deferStmt g) :=
    .after (.keyword (by decide)) fun _ => .bind (draws_expr hg) fun _ => .pure (by simp)
  have hreturn : DrawsStmt src g (returnStmt g) :=
    .after (.keyword (by decide)) fun _ => .bind (.opt (draws_exprList hg)) fun results =>
      .pure (by cases results <;> simp)
  have hjump : DrawsStmt src g jumpStmt := by
    have hnone : Yields jumpStmt fun s => s.children = [] :=
      .after fun _ => .after fun _ => .pure rfl
    have hm := (consumes_jumpStmt (b := false)).moves
    exact .of_below hm fun hs h =>
      ⟨_, Nat.le_refl _, by rw [hnone _ _ _ h]; exact .nil (hm.le hs h), trivial⟩
  have hlabeled : DrawsStmt src g (labeledStmt g) :=
    .after .ident fun _ => .after (consumes_labelColon (b := false)).moves fun _ =>
      .bind (draws_stmtNode hg) fun _ => .pure (by simp)
  have hbranch : DrawsStmt src g g.conditional :=
    fun s x t lo hs hl h => draws_conditional hg s x t lo hs hl (hg.conditional hs h)
  exact .orElse (.bind (draws_genDecl hg) fun _ => .pure (by simp))
    (.orElse hreturn (.orElse hjump (.orElse hbranch
    (.orElse (draws_switchStmt hg) (.orElse (draws_selectStmt hg) (.orElse (draws_forStmt hg)
      (.orElse hgo (.orElse hdefer (.orElse (.bind (draws_block hg) fun _ => .pure (by simp))
        (.orElse hlabeled (draws_simpleStmt (draws_expr hg))))))))))))

/-- The parts of a phrase are laid out in its window. -/
theorem sourced_parts (h : Sourced src g lo hi n) : Laid (Sourced src g) lo n.parts hi := by
  have hread : ∀ {p : Parser Stmt} {u t : Cursor} {s : Stmt},
      DrawsStmt src g p → Reached src u →
      p u = some (s, t) → Laid (Sourced src g) u.offset s.children t.offset := by
    intro p u t s hp hu h
    obtain ⟨-, hi, hle, hlaid, -⟩ := hp u s t u.offset hu (.nil (Nat.le_refl _)) h
    exact hlaid.mono (Nat.le_refl _) hle
  cases h with
  | expr hu h hstop =>
    obtain ⟨hi, -, hlaid, hstop'⟩ := h.below hg hu
    cases hstop.symm.trans hstop'
    exact hlaid
  | elements hu h hstop =>
    obtain ⟨-, hi, -, hlaid, hstop'⟩ := draws_elements hg _ _ _ _ hu (.nil (Nat.le_refl _)) h
    cases hstop.symm.trans hstop'
    simpa [Phrase.parts] using hlaid
  | built _ _ _ _ below => exact below
  | stmt hu h => exact hread (draws_stmt hg) hu h
  | conditional hu h => exact hread (draws_conditional hg) hu h
  | made below => exact below

end Statements

/-! ### Files -/

/-- Rules that are deep enough for a text read their own phrases from it. -/
theorem rules_sources (src : List Char) : (rules (depthFor src)).Sources src := by
  have hset := rules_settled (src.length + 1) 0
  refine ⟨rules_spanned _, fun {s t e} hs h => ?_, fun {s t e} hs h => ?_, fun {s t x} hs h => ?_,
    fun {s t x} hs h => ?_, fun {s t x} hs h => ?_⟩
  · have hread : binding (primaryOf (rules (depthFor src)) false) 0 s = some (e, t) :=
      (hset.expr s hs.trimmed hs.length_lt).symm.trans h
    exact .of_binding hread
  · exact .type ((hset.type s hs.trimmed hs.length_lt).symm.trans h)
  · exact (hset.stmt s hs.trimmed hs.length_lt).symm.trans h
  · exact (hset.elements s hs.trimmed hs.length_lt).symm.trans h
  · exact (hset.conditional s hs.trimmed hs.length_lt).symm.trans h

section Files

variable {src : List Char} {g : Rules} (hg : g.Sources src)

include hg

theorem draws_decl : Draws src g (decl g) [] Decl.children Anywhere := by
  have hfunc : Draws src g (funcDecl g) [] FuncDecl.children Anywhere :=
    .after (.keyword (by decide)) fun _ => .bind (.opt (draws_params hg)) fun recv =>
      .after .ident fun _ =>
      .bind (draws_signature hg _) fun t => .bind (.opt (draws_block hg)) fun body =>
        .pure (by simp [FuncDecl.children])
  exact .orElse (.bind hfunc fun _ => .pure (by simp [Decl.children]))
    (.bind (draws_genDecl hg) fun _ => .pure (by simp [Decl.children]))

theorem draws_importDecl :
    Draws src g importDecl [] (fun specs => specs.map fun x => .expr x.path) Anywhere := by
  have hname : Draws src g ((do return { pos := ← token ".", name := "." }) <|> ident) []
      (fun _ => []) Anywhere :=
    .orElse (.after .token fun _ => .pure (by simp))
      ((draws_ident hg).mono (fun _ => by simp) fun _ _ _ => trivial)
  have hspec : Draws src g importSpec [] (fun x => [.expr x.path]) Anywhere :=
    .bind hname.opt fun _ => .bind (draws_literal hg) fun _ => .pure (by simp)
  have hspecs : Draws src g (sepEndBy importSpec separator) []
      (fun specs => specs.map fun x => .expr x.path) Anywhere :=
    (Draws.sepEndBy hspec .separator).mono (fun _ => by simp) fun _ _ h => h
  exact .after (.keyword (by decide)) fun _ => .orElse (.seqLeft (.seqRight .tokenNl hspecs) .token)
    (.bind hspec fun _ => .pure (by simp))

theorem file_laid {t : Cursor} (h : file g ⟨0, src⟩ = some (f, t)) :
    ∃ hi, Laid (Sourced src g) 0 f.children hi := by
  obtain ⟨⟨⟩, s, hs, h⟩ := bind_eq_some h
  have hskips : Skips ⟨0, src⟩ s := ⟨_, .inr rfl, hs⟩
  have hend : Moves atEnd := fun v _ w hv hw => by
    obtain ⟨-, rfl⟩ := atEnd_eq_some hw
    exact ⟨hv, [], rfl, rfl⟩
  have hbody : Draws src g (fileBody g) [] File.children Anywhere :=
    .after (.keyword (by decide)) fun _ => .after .ident fun _ =>
      .bind (.many (.seqRight .separator (draws_importDecl hg))) fun imports =>
        .bind (.many (.seqRight .separator (draws_decl hg))) fun decls =>
          .after (Moves.opt .separator) fun _ => .after .blanksNl fun _ => .after hend fun _ =>
            .pure (by simp [File.children, List.map_flatten, List.flatMap_def])
  obtain ⟨-, hi, -, hlaid, -⟩ :=
    hbody s f t 0 ⟨hskips.trimmed, hskips.leads⟩ (.nil (Nat.zero_le _)) h
  exact ⟨hi, hlaid⟩

end Files

/-- A phrase from the text, or the signature of a method with its types from the text. -/
def Drawn (src : List Char) (g : Rules) (n : Phrase) : Prop :=
  (∃ lo hi, Sourced src g lo hi n) ∨
    ∃ params results, n = .expr (.func ⟨none, params, results⟩) ∧ ∀ c ∈ n.children, ∃ lo hi,
    Sourced src g lo hi c

theorem Drawn.child (hg : g.Sources src) (h : Drawn src g n) (hc : c ∈ n.children) :
    Drawn src g c := by
  obtain ⟨lo, hi, h⟩ | ⟨-, -, -, h⟩ := h
  · have hparts : ∀ {m}, m ∈ n.parts → ∃ lo hi, Sourced src g lo hi m := fun hm => by
      obtain ⟨a, b, -, -, h⟩ := (sourced_parts hg h).mem hm
      exact ⟨a, b, h⟩
    cases n with
    | stmt s => exact .inl (hparts hc)
    | expr e =>
      rcases Expr.mem_children hc with hc | ⟨t, ht, hc⟩ | ⟨params, results, rfl, hbelow⟩
      · exact .inl (hparts hc)
      · obtain ⟨_, _, htype⟩ := hparts ht
        obtain ⟨a, b, -, -, h⟩ := (sourced_parts hg htype).mem hc
        exact .inl ⟨a, b, h⟩
      · exact .inr ⟨params, results, rfl, fun d hd => hparts (hbelow d hd)⟩
  · exact .inl (h c hc)

theorem Drawn.occurs (hg : g.Sources src) {m : Phrase} (h : Drawn src g m) (ho : Occurs n m) :
    Drawn src g n := by
  induction ho with
  | self => exact h
  | deeper member _ ih => exact ih (h.child hg member)

theorem sourced_origin (h : Sourced src g lo hi (.expr e)) (hs : e.standsAlone = true) :
    ∃ u t, Reached src u ∧ Origin g u t e := by
  cases h with
  | expr hu h => exact ⟨_, _, hu, h⟩
  | elements => exact absurd hs (by simp [Expr.standsAlone])
  | built hn => exact absurd (hs.symm.trans hn) (by simp)

theorem parse?_origin {text : String} (h : parse? text = some f) (he : f.Has (.expr e))
    (hs : e.standsAlone = true) :
    ∃ u t, Reached text.toList u ∧ Origin (rules (depthFor text.toList)) u t e := by
  have hg := rules_sources text.toList
  obtain ⟨⟨_, t⟩, hfile, rfl⟩ := Option.map_eq_some_iff.1 h
  obtain ⟨root, hroot, ho⟩ := he
  obtain ⟨_, hlaid⟩ := file_laid hg hfile
  obtain ⟨lo, hi, -, -, hsourced⟩ := hlaid.mem hroot
  rcases Drawn.occurs hg (.inl ⟨lo, hi, hsourced⟩) ho with ⟨_, _, h⟩ | ⟨params, results, he, -⟩
  · exact sourced_origin h hs
  · obtain rfl := Phrase.expr.inj he
    cases hs

end Grammar

end GoFun
