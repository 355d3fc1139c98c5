import GoFun.Proofs.Grammar.Yields
import GoFun.Proofs.Lex.Number

/-!
# What parsers read

`Reads p cs next P` says that `p`, at the text `cs`, takes all up to `next` and gives a value that
satisfies `P`, and `Idle p cs` that `p` fails there. Reading with an alternative needs all earlier
ones to be idle. A loop is followed round by round, and ends where a further round is idle.
-/
namespace GoFun

open Parser

variable {α β : Type} {s t : Cursor} {cs : List Char} {p : Parser α} {q : Parser β} {P : α → Prop}

def Reads {α : Type} (p : Parser α) (cs next : List Char) (P : α → Prop) : Prop :=
  ∀ o, ∃ a o', p ⟨o, cs⟩ = some (a, ⟨o', next⟩) ∧ P a

def Idle {α : Type} (p : Parser α) (cs : List Char) : Prop := ∀ o, p ⟨o, cs⟩ = none

theorem Parser.bind_apply (f : α → Parser β) {a : α} (h : p s = some (a, t)) :
    (p >>= f) s = f a t := by
  change (p s).bind (fun x => f x.1 x.2) = _
  rw [h]
  rfl

theorem Parser.bind_apply_none (f : α → Parser β) (h : p s = none) : (p >>= f) s = none := by
  change (p s).bind (fun x => f x.1 x.2) = _
  rw [h]
  rfl

namespace Reads

variable {α β : Type} {p : Parser α} {q : Parser β} {cs mid next : List Char} {P : α → Prop}
  {Q : β → Prop}

theorem mono {P' : α → Prop} (h : Reads p cs next P) (hP : ∀ a, P a → P' a) :
    Reads p cs next P' := by
  intro o
  obtain ⟨a, o', hp, ha⟩ := h o
  exact ⟨a, o', hp, hP a ha⟩

theorem pure {a : α} (h : P a) : Reads (Pure.pure a) cs cs P := fun o => ⟨a, o, rfl, h⟩

theorem bind {f : α → Parser β} (h : Reads p cs mid P) (hf : ∀ a, P a → Reads (f a) mid next Q) :
    Reads (p >>= f) cs next Q := by
  intro o
  obtain ⟨a, o', hp, ha⟩ := h o
  obtain ⟨b, o'', hb, hQ⟩ := hf a ha o'
  exact ⟨b, o'', by rw [bind_apply f hp, hb], hQ⟩

theorem map {f : α → β} (h : Reads p cs next P) (hf : ∀ a, P a → Q (f a)) :
    Reads (f <$> p) cs next Q :=
  bind (f := fun a => Pure.pure (f a)) h fun a ha => pure (hf a ha)

theorem seqRight (h : Reads p cs mid P) (hq : Reads q mid next Q) : Reads (p *> q) cs next Q :=
  bind (f := fun _ => q) h fun _ _ => hq

theorem seqLeft (h : Reads p cs mid P) (hq : Reads q mid next Q) : Reads (p <* q) cs next P :=
  bind (f := fun a => q >>= fun _ => Pure.pure a) h fun _ ha => bind hq fun _ _ => pure ha

theorem orElse {p' : Parser α} (h : Reads p cs next P) : Reads (p <|> p') cs next P := by
  intro o
  obtain ⟨a, o', hp, ha⟩ := h o
  refine ⟨a, o', ?_, ha⟩
  rw [orElse_apply, hp]
  rfl

theorem orElse' {p' : Parser α} (hp : Idle p cs) (h : Reads p' cs next P) :
    Reads (p <|> p') cs next P := by
  intro o
  obtain ⟨a, o', hp', ha⟩ := h o
  refine ⟨a, o', ?_, ha⟩
  rw [orElse_apply, hp o, hp']
  rfl

theorem opt (h : Reads p cs next P) : Reads (optional p) cs next fun x => ∃ a, x = some a ∧ P a :=
  orElse (map h fun a ha => ⟨a, rfl, ha⟩)

theorem guarded {c : Prop} [Decidable c] (hc : c) : Reads (guard c) cs cs fun _ => True := by
  rw [guard_eq_pure hc]
  exact pure trivial

end Reads

namespace Idle

variable {α β : Type} {p : Parser α} {q : Parser β} {cs mid : List Char} {P : α → Prop}

theorem bind {f : α → Parser β} (h : Idle p cs) : Idle (p >>= f) cs :=
  fun o => bind_apply_none f (h o)

/-- What follows a first part fails where that part ends. -/
theorem bind' {f : α → Parser β} (h : Reads p cs mid P) (hf : ∀ a, P a → Idle (f a) mid) :
    Idle (p >>= f) cs := by
  intro o
  obtain ⟨a, o', hp, ha⟩ := h o
  rw [bind_apply f hp, hf a ha o']

theorem map {f : α → β} (h : Idle p cs) : Idle (f <$> p) cs :=
  bind (f := fun a => Pure.pure (f a)) h

theorem seqRight (h : Idle p cs) : Idle (p *> q) cs := bind (f := fun _ => q) h

theorem seqRight' (h : Reads p cs mid P) (hq : Idle q mid) : Idle (p *> q) cs :=
  bind' (f := fun _ => q) h fun _ _ => hq

theorem seqLeft (h : Idle p cs) : Idle (p <* q) cs :=
  bind (f := fun a => q >>= fun _ => Pure.pure a) h

theorem seqLeft' (h : Reads p cs mid P) (hq : Idle q mid) : Idle (p <* q) cs :=
  bind' (f := fun a => q >>= fun _ => Pure.pure a) h fun _ _ => bind hq

theorem orElse {p' : Parser α} (h : Idle p cs) (h' : Idle p' cs) : Idle (p <|> p') cs := by
  intro o
  rw [orElse_apply, h o, h' o]
  rfl

theorem opt (h : Idle p cs) : Reads (optional p) cs cs fun x => x = none :=
  Reads.orElse' (map h) (Reads.pure rfl)

theorem guarded {c : Prop} [Decidable c] (hc : ¬ c) : Idle (guard c) cs := by
  rw [guard_eq_failure hc]
  exact fun _ => rfl

end Idle

/-- Rounds of `q`, each of which takes something. -/
inductive Rounds {β : Type} (q : Parser β) : Cursor → List β → Cursor → Prop
  | nil (s : Cursor) : Rounds q s [] s
  | cons {s t u : Cursor} {b : β} {bs : List β} (first : q s = some (b, t))
      (takes : t.rest.length < s.rest.length) (others : Rounds q t bs u) : Rounds q s (b :: bs) u

theorem Rounds.snoc {u : Cursor} {bs : List β} {b : β} (h : Rounds q s bs t)
    (last : q t = some (b, u))
    (takes : u.rest.length < t.rest.length) : Rounds q s (bs ++ [b]) u := by
  induction h with
  | nil t => exact .cons last takes (.nil u)
  | cons first takes' _ ih => exact .cons first takes' (ih last takes)

theorem Rounds.manyFrom_eq {bs : List β} (h : Rounds q s bs t) (stop : q t = none) :
    manyFrom q s = (bs, t) := by
  induction h with
  | nil t => rw [manyFrom, stop]
  | cons first takes _ ih =>
    rw [manyFrom, first]
    simp [takes, ih stop]

/-- Rounds of `q` lead from `cs` to `next`, and their values satisfy `P`. -/
def Series {β : Type} (q : Parser β) (cs next : List Char) (P : List β → Prop) : Prop :=
  ∀ o, ∃ bs o', Rounds q ⟨o, cs⟩ bs ⟨o', next⟩ ∧ P bs

namespace Series

variable {β : Type} {q : Parser β} {cs mid next : List Char} {Q : β → Prop} {P R : List β → Prop}

theorem nil (h : P []) : Series q cs cs P := fun o => ⟨[], o, .nil _, h⟩

theorem cons (h : Reads q cs mid Q) (hlt : mid.length < cs.length) (hs : Series q mid next P)
    (hR : ∀ b bs, Q b → P bs → R (b :: bs)) : Series q cs next R := by
  intro o
  obtain ⟨b, o', hb, hQ⟩ := h o
  obtain ⟨bs, o'', hbs, hP⟩ := hs o'
  exact ⟨b :: bs, o'', .cons hb hlt hbs, hR b bs hQ hP⟩

theorem many (h : Series q cs next P) (hq : Idle q next) : Reads (many q) cs next P := by
  intro o
  obtain ⟨bs, o', hbs, hP⟩ := h o
  exact ⟨bs, o', congrArg some (hbs.manyFrom_eq (hq o')), hP⟩

end Series

theorem Idle.many (h : Idle q cs) : Reads (many q) cs cs fun bs => bs = [] :=
  Series.many (P := fun bs => bs = []) (.nil rfl) h

/-- A value of `p` and rounds of `q` lead from `cs` to `next`. Joined by `f` from the left, they
satisfy `P`. -/
def Spine {α β : Type} (p : Parser α) (q : Parser β) (f : α → β → α) (cs next : List Char)
    (P : α → Prop) : Prop :=
  ∀ o, ∃ a s bs o', p ⟨o, cs⟩ = some (a, s) ∧ Rounds q s bs ⟨o', next⟩ ∧ P (bs.foldl f a)

namespace Spine

variable {α β : Type} {p : Parser α} {q : Parser β} {f : α → β → α} {cs mid next : List Char}
  {P : α → Prop} {Q : β → Prop} {R : α → Prop}

theorem of_reads (h : Reads p cs next P) : Spine p q f cs next P := by
  intro o
  obtain ⟨a, o', hp, ha⟩ := h o
  exact ⟨a, _, [], o', hp, .nil _, ha⟩

theorem mono (h : Spine p q f cs next P) (hP : ∀ a, P a → R a) : Spine p q f cs next R := by
  intro o
  obtain ⟨a, s, bs, o', hp, hbs, ha⟩ := h o
  exact ⟨a, s, bs, o', hp, hbs, hP _ ha⟩

theorem snoc (h : Spine p q f cs mid P) (hq : Reads q mid next Q) (hlt : next.length < mid.length)
    (hR : ∀ a b, P a → Q b → R (f a b)) : Spine p q f cs next R := by
  intro o
  obtain ⟨a, s, bs, o', hp, hbs, ha⟩ := h o
  obtain ⟨b, o'', hb, hQ⟩ := hq o'
  refine ⟨a, s, bs ++ [b], o'', hp, hbs.snoc hb hlt, ?_⟩
  rw [List.foldl_append]
  exact hR _ b ha hQ

theorem many (h : Spine p q f cs next P) (hq : Idle q next) :
    Reads (p >>= fun a => Parser.many q >>= fun bs => Pure.pure (bs.foldl f a)) cs next P := by
  intro o
  obtain ⟨a, s, bs, o', hp, hbs, ha⟩ := h o
  have hm : Parser.many q s = some (bs, ⟨o', next⟩) := congrArg some (hbs.manyFrom_eq (hq o'))
  refine ⟨_, o', ?_, ha⟩
  rw [Parser.bind_apply _ hp, Parser.bind_apply _ hm]
  rfl

end Spine

theorem Spine.chain {α β : Type} {p : Parser α} {op : Parser β} {join : α → β → α → α}
    {cs next : List Char} {P : α → Prop}
    (h : Spine p (do return (← op, ← p)) (fun x st => join x st.1 st.2) cs next P)
    (hop : Idle op next) : Reads (chain p op join) cs next P :=
  h.many (.bind hop)

theorem Reads.sepBy1 {sep : Parser β} {mid next : List Char} {Q R : List α → Prop}
    (h : Reads p cs mid P) (hs : Series (sep *> p) mid next Q) (hi : Idle (sep *> p) next)
    (hR : ∀ a as, P a → Q as → R (a :: as)) :
    Reads (sepBy1 p sep) cs next R :=
  h.bind fun a ha => (hs.many hi).bind fun as has => .pure (hR a as ha has)

theorem Idle.sepBy1 {α β : Type} {p : Parser α} {sep : Parser β} {cs : List Char} (h : Idle p cs) :
    Idle (sepBy1 p sep) cs := .bind h

/-- Every value that `p` reads at the text `cs` satisfies `P`. -/
def YieldsAt {α : Type} (p : Parser α) (cs : List Char) (P : α → Prop) : Prop :=
  ∀ o a t, p ⟨o, cs⟩ = some (a, t) → P a

theorem Yields.at (h : Yields p P) (cs : List Char) : YieldsAt p cs P :=
  fun o a t ha => h ⟨o, cs⟩ a t ha

theorem Idle.yieldsAt (h : Idle p cs) (P : α → Prop) : YieldsAt p cs P := by
  intro o a t ha
  rw [h o] at ha
  cases ha

theorem Reads.yieldsAt {next : List Char} (h : Reads p cs next P) : YieldsAt p cs P := by
  intro o a t ha
  obtain ⟨b, o', hb, hP⟩ := h o
  rw [hb] at ha
  obtain ⟨rfl, -⟩ := result_inj ha
  exact hP

namespace YieldsAt

variable {α β : Type} {p p' : Parser α} {q : Parser β} {cs mid : List Char} {P : α → Prop}
  {Q : β → Prop}

theorem mono {P' : α → Prop} (h : YieldsAt p cs P) (hP : ∀ a, P a → P' a) : YieldsAt p cs P' :=
  fun o a t ha => hP a (h o a t ha)

theorem bind {f : α → Parser β} (h : Reads p cs mid P) (hf : ∀ a, P a → YieldsAt (f a) mid Q) :
    YieldsAt (p >>= f) cs Q := by
  intro o b t hb
  obtain ⟨a, o', hp, ha⟩ := h o
  rw [bind_apply f hp] at hb
  exact hf a ha o' b t hb

theorem bind' {f : α → Parser β} (h : YieldsAt p cs P) (hf : ∀ a, P a → Yields (f a) Q) :
    YieldsAt (p >>= f) cs Q := by
  intro o b t hb
  obtain ⟨a, s, ha, hb⟩ := bind_eq_some hb
  exact hf a (h o a s ha) s b t hb

theorem seqRight (h : Reads p cs mid P) (hq : YieldsAt q mid Q) : YieldsAt (p *> q) cs Q :=
  bind (f := fun _ => q) h fun _ _ => hq

theorem seqLeft (h : YieldsAt p cs P) : YieldsAt (p <* q) cs P :=
  bind' (f := fun a => q >>= fun _ => Pure.pure a) h fun _ ha => .bind (.any q) fun _ _ => .pure ha

theorem orElse (h : YieldsAt p cs P) (h' : YieldsAt p' cs P) : YieldsAt (p <|> p') cs P := by
  intro o a t ha
  rw [orElse_apply] at ha
  cases hp : p ⟨o, cs⟩ with
  | some r =>
    obtain rfl : r = (a, t) := by simpa [hp] using ha
    exact h o a t hp
  | none => exact h' o a t (by simpa [hp] using ha)

theorem opt (h : YieldsAt p cs P) : YieldsAt (optional p) cs fun x => ∀ a ∈ x, P a :=
  orElse (bind' (f := fun a => Pure.pure (some a)) h fun a ha => .pure (by simpa using ha))
    ((Yields.pure (by simp)).at cs)

/-- Only the first round of a loop is read at the text where the loop begins. -/
theorem many (h : YieldsAt p cs P) : YieldsAt (many p) cs fun as => ∀ a ∈ as.head?, P a := by
  intro o as t ha
  rw [← (result_inj ha).1, manyFrom]
  split
  case h_1 => simp
  case h_2 a s hp =>
    split
    case isTrue => simpa using h o a s hp
    case isFalse => simp

theorem sepBy1 (h : YieldsAt p cs P) : YieldsAt (sepBy1 p q) cs fun as => ∀ a ∈ as.head?, P a :=
  bind' h fun a ha => .after fun _ => .pure (by simpa using ha)

end YieldsAt

end GoFun
