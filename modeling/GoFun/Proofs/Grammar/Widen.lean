import GoFun.Proofs.Grammar.WellFounded

/-!
# Expressions of headers

Outside of brackets the grammars of statement headers and of expressions differ in one thing: in a
header a brace does not open a composite literal. So an expression of a header is read as the same
tree by the grammar of expressions, unless a brace comes next, and both fail at the same places.
-/
namespace GoFun

open Parser

def Braceless (s : Cursor) : Prop := Lex.Stops (· == '\x7b') s.rest

/-- Where `p` reads a value and no brace follows, `q` reads the same value. Both fail at the same
places. -/
structure Widens {α : Type} (p q : Parser α) : Prop where
  reads : ∀ s a t, p s = some (a, t) → Braceless t → q s = some (a, t)
  fails : ∀ s, p s = none ↔ q s = none

/-- What cannot fail behind `p` does not decide where the whole fails. -/
theorem Parser.bind_eq_none_iff {α β : Type} {p : Parser α} {f : α → Parser β}
    (hf : ∀ a t, f a t ≠ none) (s : Cursor) :
    (p >>= f) s = none ↔ p s = none := by
  refine ⟨fun h => ?_, bind_apply_none f⟩
  cases hp : p s with
  | none => rfl
  | some x => exact absurd (bind_apply f hp ▸ h) (hf x.1 x.2)

theorem Parser.bind_many_eq_none_iff {α β γ : Type} {p : Parser α} {q : Parser β}
    {f : α → List β → γ} (s : Cursor) :
    (p >>= fun a => many q >>= fun bs => pure (f a bs)) s = none ↔ p s = none :=
  bind_eq_none_iff (fun _ _ h => Option.some_ne_none _ h) s

/-- Rounds that stop before anything but a brace stop there in both. -/
theorem Parser.manyFrom_eq_of_braceless {α : Type} {p q : Parser α}
    (hround : ∀ s a t, p s = some (a, t) → Braceless (manyFrom p t).2 → q s = some (a, t))
    (hstay : ∀ s a t, p s = some (a, t) → ¬ t.rest.length < s.rest.length → q s = some (a, t))
    (hstop : ∀ s, p s = none → Braceless s → q s = none) (s : Cursor)
    (hs : Braceless (manyFrom p s).2) :
    manyFrom q s = manyFrom p s := by
  fun_induction manyFrom p s with
  | case1 s hp => rw [manyFrom, hstop s hp hs]
  | case2 s a next hp hlt as last hrest ih =>
    rw [hrest] at ih
    rw [manyFrom, hround s a next hp (by rw [hrest]; exact hs)]
    simp only [hlt, if_true]
    rw [ih hs]
  | case3 s a next hp hlt =>
    rw [manyFrom, hstay s a next hp hlt]
    simp only [hlt, if_false]

namespace Widens

variable {α β γ : Type} {p q : Parser α}

theorem bind {r : Parser β} {f : β → α → γ} (h : Widens p q) :
    Widens (r >>= fun b => p >>= fun a => pure (f b a))
      (r >>= fun b => q >>= fun a => pure (f b a)) := by
  constructor
  · intro s x t hx ht
    obtain ⟨b, u, hb, hx⟩ := bind_eq_some hx
    obtain ⟨a, ha, rfl⟩ := give_eq_some hx
    rw [bind_apply _ hb, bind_apply _ (h.reads u a t ha ht)]
    rfl
  · intro s
    cases hb : r s with
    | none => simp only [bind_apply_none _ hb]
    | some x =>
      have hpure : ∀ a t, (pure (f x.1 a) : Parser γ) t ≠ none := fun _ _ => Option.some_ne_none _
      rw [bind_apply _ hb, bind_apply _ hb, bind_eq_none_iff hpure, bind_eq_none_iff hpure]
      exact h.fails x.2

theorem chain {op : Parser β} {join : α → β → α → α} (h : Widens p q)
    (hop : ∀ s, ¬ Braceless s → op s = none)
    (hshrink : ∀ s o t y u, op s = some (o, t) → p t = some (y, u) → u.rest.length <
      s.rest.length) :
    Widens (Parser.chain p op join) (Parser.chain q op join) := by
  have hround : Widens (do return (← op, ← p)) (do return (← op, ← q)) := h.bind
  -- before a brace there is no further round, so rounds that end elsewhere do not meet one
  have hend : ∀ s, Braceless (manyFrom (do return (← op, ← p)) s).2 → Braceless s := by
    intro s hs
    by_cases hb : Braceless s
    · exact hb
    · have hnone : (do return (← op, ← p) : Parser (β × α)) s = none :=
        Parser.bind_apply_none _ (hop s hb)
      rw [manyFrom, hnone] at hs
      exact hs
  have hmany : ∀ s, Braceless (manyFrom (do return (← op, ← p)) s).2 →
      manyFrom (do return (← op, ← q)) s = manyFrom (do return (← op, ← p)) s := by
    refine manyFrom_eq_of_braceless (fun s a t ha ht => hround.reads s a t ha (hend t ht))
      (fun s a t ha hlt => ?_) fun s hs _ => (hround.fails s).1 hs
    obtain ⟨o, u, ho, ha⟩ := Parser.bind_eq_some ha
    obtain ⟨y, v, hy, ha⟩ := Parser.bind_eq_some ha
    obtain ⟨-, rfl⟩ := result_inj ha
    exact absurd (hshrink s o u y v ho hy) hlt
  constructor
  · intro s e t he ht
    obtain ⟨x, u, hx, he⟩ := Parser.bind_eq_some he
    obtain ⟨steps, v, hsteps, he⟩ := Parser.bind_eq_some he
    obtain ⟨rfl, rfl⟩ := result_inj he
    have hv : manyFrom (do return (← op, ← p)) u = (steps, v) := Option.some.inj hsteps
    have hbrace : Braceless (manyFrom (do return (← op, ← p)) u).2 := by rw [hv]; exact ht
    have hq : many (do return (← op, ← q)) u = some (steps, v) := by
      rw [← hv, ← hmany u hbrace]
      rfl
    rw [Parser.chain, Parser.bind_apply _ (h.reads s x u hx (hend u hbrace)),
      Parser.bind_apply _ hq]
    rfl
  · exact fun s => (Parser.bind_many_eq_none_iff s).trans
      ((h.fails s).trans (Parser.bind_many_eq_none_iff s).symm)

end Widens

namespace Grammar

theorem widens_primary (n : Nat) : Widens (headerPrimary (rules n)) (primary (rules n)) := by
  constructor
  · intro s e t he ht
    obtain ⟨x, u, hx, he⟩ := bind_eq_some he
    obtain ⟨after, hafter, rfl⟩ := give_eq_some he
    have hv : manyFrom (suffix (rules n)) u = (after, t) := Option.some.inj hafter
    have hsome : ∀ s a t, suffix (rules n) s = some (a, t) →
        (suffix (rules n) <|> (do return .elements (← (rules n).elements))) s = some (a, t) :=
          fun s a t ha => by
      rw [orElse_apply, ha]
      rfl
    have hmany : many (suffix (rules n) <|> (do return .elements (← (rules n).elements))) u =
        some (after, t) := by
      rw [← hv, ← manyFrom_eq_of_braceless (fun s a t ha _ => hsome s a t ha) (fun s a t ha _ =>
        hsome s a t ha) ?_ u (by rw [hv]; exact ht)]
      · rfl
      · intro s hs hb
        have helements := idle_rules_elements n hb s.offset
        rw [orElse_apply, hs, bind_apply_none _ helements]
        rfl
    rw [primary, bind_apply _ hx, bind_apply _ hmany]
    rfl
  · exact fun s => (bind_many_eq_none_iff s).trans (bind_many_eq_none_iff s).symm

theorem widens_binaryExpr {p q : Parser Expr} (h : Widens p q) (hp : Meets false p Expr.tokens) :
    Widens (binaryExpr p) (binaryExpr q) := by
  have hlevel : ∀ (k : Nat) {p q : Parser Expr}, Widens p q → Meets false p Expr.tokens →
      Widens (chain p (operatorOf (levelAt k)) joinBinary)
      (chain q (operatorOf (levelAt k)) joinBinary) ∧
        Meets false (chain p (operatorOf (levelAt k)) joinBinary) Expr.tokens := by
    intro k p q h hp
    refine ⟨h.chain (fun s hs => ?_) fun s o t y u ho hy => ?_, consumes_level _ hp⟩
    · obtain ⟨o, cs⟩ := s
      cases cs with
      | nil => exact absurd (Lex.stops_nil _) hs
      | cons c cs =>
        have hc : c = '\x7b' := by simpa [Braceless] using hs
        subst hc
        exact idle_operators (by simp; decide) k o
    · obtain ⟨-, hspells⟩ := operatorOf_eq_some ho
      have hlt := hspells.length_lt (by cases o.2 <;> decide)
      obtain ⟨v, -, -, hv⟩ := hspells
      have hle := hp.length_le hv.trimmed hy
      omega
  obtain ⟨h₅, w₅⟩ := hlevel 5 h hp
  obtain ⟨h₄, w₄⟩ := hlevel 4 h₅ w₅
  obtain ⟨h₃, w₃⟩ := hlevel 3 h₄ w₄
  obtain ⟨h₂, w₂⟩ := hlevel 2 h₃ w₃
  exact (hlevel 1 h₂ w₂).1

/-- The grammar of expressions reads an expression of a header as the same tree, unless a brace
follows. -/
theorem widens_expr (n : Nat) : Widens (headerExpr (rules n)) (expr (rules n)) :=
  widens_binaryExpr (Widens.bind (widens_primary n))
    (consumes_unaryExpr (consumes_headerPrimary (rules_spelled false n)))

/-- At a place the grammar of headers fails exactly if the grammar of expressions does. It opens no
composite literal where a body could begin instead, and what it reads is what the grammar of
expressions reads, unless a brace comes next. -/
structure HeadersAgree (g : Rules) (s : Cursor) : Prop where
  fails : headerExpr g s = none ↔ expr g s = none
  closed : ∀ e t, headerExpr g s = some (e, t) → e.exposed = false
  reads : ∀ e t, headerExpr g s = some (e, t) → t.rest.head? ≠ some '\x7b' → expr g s = some (e, t)

/-- The two grammars agree in this way everywhere, at every depth of nesting and without a limit to
it. -/
theorem headersAgree (s : Cursor) :
    HeadersAgree limit s ∧ ∀ depth, HeadersAgree (rules depth) s := by
  have hrules : ∀ depth, HeadersAgree (rules depth) s := by
    intro depth
    have hw := widens_expr depth
    refine ⟨hw.fails s, fun e t he => (yields_headerExpr (rules_sound depth) s e t he).2,
      fun e t he ht => ?_⟩
    refine hw.reads s e t he fun c hc => ?_
    rw [hc] at ht
    simpa using ht
  let depth := 2 * (s.rest.length + 1)
  have hlimit : limit.Coincide (s.rest.length + 1) (rules depth) :=
    limit_coincide (Nat.le_refl _) Rules.none
  have hheader : headerExpr limit s = headerExpr (rules depth) s :=
    (coincide_headerExpr hlimit).same s (by omega)
  have hexpr : expr limit s = expr (rules depth) s :=
    (coincide_expr hlimit).same s (by omega)
  refine ⟨⟨?_, ?_, ?_⟩, hrules⟩
  · rw [hheader, hexpr]
    exact (hrules _).fails
  · rw [hheader]
    exact (hrules _).closed
  · rw [hheader, hexpr]
    exact (hrules _).reads

-- In front of a brace they part.
example : (headerExpr (rules 3) ⟨0, "x\x7b\x7d".toList⟩).map (·.2.offset) = some 1 ∧
    (expr (rules 3) ⟨0, "x\x7b\x7d".toList⟩).map (·.2.offset) = some 3 := by decide +kernel

end Grammar

end GoFun
