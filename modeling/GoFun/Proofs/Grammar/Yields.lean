import GoFun.Grammar.Token

/-!
# What parsers yield

`Yields p P` says that every value that `p` reads satisfies `P`. `Keeps I p P` says so of places
that satisfy `I`, and that `p` leads from them to such places again. There is one lemma for each way
to put parsers together, so that a fact about a rule follows the rule.
-/
namespace GoFun

open Parser

variable {α γ : Type} {s : Cursor} {c : Prop}

def Yields {α : Type} (p : Parser α) (P : α → Prop) : Prop := ∀ s a s', p s = some (a, s') → P a

theorem Parser.bind_eq_some {β : Type} {p : Parser α} {f : α → Parser β} {s' : Cursor} {b : β}
    (h : (p >>= f) s = some (b, s')) : ∃ a t, p s = some (a, t) ∧ f a t = some (b, s') := by
  obtain ⟨⟨a, t⟩, hp, hf⟩ := Option.bind_eq_some_iff.1 h
  exact ⟨a, t, hp, hf⟩

theorem Parser.guard_eq_pure [Decidable c] (h : c) : (guard c : Parser Unit) = pure () := if_pos h

theorem Parser.guard_eq_failure [Decidable c] (h : ¬ c) : (guard c : Parser Unit) = failure :=
  if_neg h

theorem Parser.orElse_apply (p q : Parser α) (s : Cursor) : (p <|> q) s = (p s <|> q s) := rfl

theorem Parser.orElse_eq_some {p q : Parser α} {x : α × Cursor} (h : (p <|> q) s = some x) :
    p s = some x ∨ p s = none ∧ q s = some x := by
  rw [orElse_apply] at h
  cases hp : p s with
  | some r => exact .inl (by simpa [hp] using h)
  | none => exact .inr ⟨rfl, by simpa [hp] using h⟩

theorem Parser.give_eq_some {β : Type} {p : Parser α} {F : α → β} {t : Cursor} {b : β}
    (h : (p >>= fun a => pure (F a)) s = some (b, t)) : ∃ a, p s = some (a, t) ∧ F a = b := by
  obtain ⟨a, u, ha, h⟩ := bind_eq_some h
  obtain ⟨hb, rfl⟩ := result_inj h
  exact ⟨a, ha, hb⟩

theorem Parser.optional_cases {p : Parser α} {o : Option α} {t : Cursor}
    (h : optional p s = some (o, t)) :
    (∃ a, p s = some (a, t) ∧ some a = o) ∨ none = o ∧ s = t := by
  rcases orElse_eq_some h with h | ⟨-, h⟩
  · exact .inl (give_eq_some h)
  · exact .inr (result_inj h)

theorem Parser.firstM_eq_some {f : γ → Parser α} {cs : List γ} {x : α × Cursor}
    (h : cs.firstM f s = some x) :
    ∃ c ∈ cs, f c s = some x := by
  induction cs with
  | nil => cases h
  | cons c cs ih =>
    rcases orElse_eq_some h with h | ⟨-, h⟩
    · exact ⟨c, by simp, h⟩
    · obtain ⟨d, hd, h⟩ := ih h
      exact ⟨d, by simp [hd], h⟩

def Keeps {α : Type} (I : Cursor → Prop) (p : Parser α) (P : α → Prop) : Prop :=
  ∀ s a t, I s → p s = some (a, t) → I t ∧ P a

namespace Keeps

variable {α β : Type} {I : Cursor → Prop} {P : α → Prop} {Q : β → Prop} {p : Parser α}
  {q : Parser β}

theorem mono {P' : α → Prop} (h : Keeps I p P) (hP : ∀ a, P a → P' a) : Keeps I p P' := by
  intro s a t hs ha
  obtain ⟨ht, h⟩ := h s a t hs ha
  exact ⟨ht, hP a h⟩

theorem pure {a : α} (h : P a) : Keeps I (Pure.pure a) P := by
  intro s a' t hs ha
  obtain ⟨rfl, rfl⟩ := result_inj ha
  exact ⟨hs, h⟩

theorem bind {f : α → Parser β} (h : Keeps I p P) (hf : ∀ a, P a → Keeps I (f a) Q) :
    Keeps I (p >>= f) Q := by
  intro s b t hs hb
  obtain ⟨a, u, ha, hb⟩ := bind_eq_some hb
  obtain ⟨hu, ha⟩ := h s a u hs ha
  exact hf a ha u b t hu hb

theorem orElse {p' : Parser α} (h : Keeps I p P) (h' : Keeps I p' P) : Keeps I (p <|> p') P := by
  intro s a t hs ha
  rcases orElse_eq_some ha with ha | ⟨-, ha⟩
  · exact h s a t hs ha
  · exact h' s a t hs ha

theorem seqRight (h : Keeps I p P) (hq : Keeps I q Q) : Keeps I (p *> q) Q :=
  bind (f := fun _ => q) h fun _ _ => hq

theorem seqLeft (h : Keeps I p P) (hq : Keeps I q Q) : Keeps I (p <* q) P :=
  bind (f := fun a => q >>= fun _ => Pure.pure a) h fun _ ha => bind hq fun _ _ => pure ha

theorem opt (h : Keeps I p P) : Keeps I (optional p) fun o => ∀ a ∈ o, P a :=
  orElse (bind (f := fun a => Pure.pure (some a)) h fun a ha => pure (by simpa using ha))
    (pure (by simp))

theorem guarded [Decidable c] : Keeps I (guard c) fun _ => c := by
  by_cases hc : c
  · rw [guard_eq_pure hc]
    exact pure hc
  · rw [guard_eq_failure hc]
    exact fun _ _ _ _ h => by cases h

theorem many (h : Keeps I p P) : Keeps I (many p) fun as => ∀ a ∈ as, P a := by
  have hm : ∀ s, I s → I (manyFrom p s).2 ∧ ∀ a ∈ (manyFrom p s).1, P a := by
    intro s
    fun_induction manyFrom p s with
    | case1 s hp | case3 s a next hp hlt => exact fun hs => ⟨hs, by simp⟩
    | case2 s a next hp hlt as last hrest ih =>
      intro hs
      obtain ⟨hnext, ha⟩ := h s a next hs hp
      rw [hrest] at ih
      obtain ⟨hlast, has⟩ := ih hnext
      exact ⟨hlast, List.forall_mem_cons.2 ⟨ha, has⟩⟩
  intro s as t hs ha
  have hfrom : manyFrom p s = (as, t) := Option.some.inj ha
  have hkeeps := hm s hs
  rwa [hfrom] at hkeeps

theorem sepBy1 (h : Keeps I p P) (hq : Keeps I q Q) :
    Keeps I (sepBy1 p q) fun as => as ≠ [] ∧ ∀ a ∈ as, P a :=
  bind h fun _ ha => bind (many (seqRight hq h)) fun _ has =>
    pure ⟨by simp, List.forall_mem_cons.2 ⟨ha, has⟩⟩

theorem sepBy (h : Keeps I p P) (hq : Keeps I q Q) : Keeps I (sepBy p q) fun as => ∀ a ∈ as, P a :=
  orElse ((sepBy1 h hq).mono fun _ ha => ha.2) (pure (by simp))

theorem sepEndBy (h : Keeps I p P) (hq : Keeps I q Q) :
    Keeps I (sepEndBy p q) fun as => ∀ a ∈ as, P a :=
  orElse (seqLeft ((sepBy1 h hq).mono fun _ ha => ha.2) hq.opt) (pure (by simp))

theorem firstM {f : γ → Parser α} (cs : List γ) (h : ∀ c ∈ cs, Keeps I (f c) P) :
    Keeps I (cs.firstM f) P := by
  intro s a t hs ha
  obtain ⟨c, hc, ha⟩ := firstM_eq_some ha
  exact h c hc s a t hs ha

theorem yields (h : Keeps (fun _ => True) p P) : Yields p P :=
  fun s a t ha => (h s a t trivial ha).2

end Keeps

namespace Yields

variable {α β : Type} {P : α → Prop} {Q : β → Prop} {p : Parser α} {q : Parser β}

theorem keeps (h : Yields p P) : Keeps (fun _ => True) p P :=
  fun s a t _ ha => ⟨trivial, h s a t ha⟩

theorem any (p : Parser α) : Yields p fun _ => True := fun _ _ _ _ => trivial

theorem mono {P' : α → Prop} (h : Yields p P) (hP : ∀ a, P a → P' a) : Yields p P' :=
  fun s a s' ha => hP a (h s a s' ha)

theorem and {P' : α → Prop} (h : Yields p P) (h' : Yields p P') : Yields p fun a => P a ∧ P' a :=
  fun s a s' ha => ⟨h s a s' ha, h' s a s' ha⟩

theorem pure {a : α} (h : P a) : Yields (Pure.pure a) P := (Keeps.pure h).yields

theorem failure : Yields (Alternative.failure : Parser α) P := by
  intro s a s' ha
  cases ha

theorem bind {f : α → Parser β} (h : Yields p P) (hf : ∀ a, P a → Yields (f a) Q) :
    Yields (p >>= f) Q :=
  (h.keeps.bind fun a ha => (hf a ha).keeps).yields

theorem after {f : α → Parser β} (hf : ∀ a, Yields (f a) Q) : Yields (p >>= f) Q :=
  (any p).bind fun a _ => hf a

theorem orElse {p' : Parser α} (h : Yields p P) (h' : Yields p' P) : Yields (p <|> p') P :=
  (h.keeps.orElse h'.keeps).yields

theorem seqRight (h : Yields q Q) : Yields (p *> q) Q := ((any p).keeps.seqRight h.keeps).yields

theorem seqLeft (h : Yields p P) : Yields (p <* q) P := (h.keeps.seqLeft (any q).keeps).yields

theorem opt (h : Yields p P) : Yields (optional p) fun o => ∀ a ∈ o, P a := h.keeps.opt.yields

theorem guarded [Decidable c] : Yields (guard c) fun _ => c := Keeps.guarded.yields

theorem many (h : Yields p P) : Yields (many p) fun as => ∀ a ∈ as, P a := h.keeps.many.yields

theorem sepBy1 (h : Yields p P) : Yields (sepBy1 p q) fun as => as ≠ [] ∧ ∀ a ∈ as, P a :=
  (h.keeps.sepBy1 (any q).keeps).yields

theorem sepBy (h : Yields p P) : Yields (sepBy p q) fun as => ∀ a ∈ as, P a :=
  (h.keeps.sepBy (any q).keeps).yields

theorem sepEndBy (h : Yields p P) : Yields (sepEndBy p q) fun as => ∀ a ∈ as, P a :=
  (h.keeps.sepEndBy (any q).keeps).yields

/-- Joining keeps a property of the operands when every single step does. -/
theorem chain {join : α → β → α → α} {R : α → Prop} (h : Yields p P) (hq : Yields q Q)
    (hR : ∀ a, P a → R a) (hj : ∀ x o y, R x → Q o → P y → R (join x o y)) :
    Yields (chain p q join) R := by
  refine bind h fun x hx => bind (many (P := fun st => Q st.1 ∧ P st.2) ?_) fun steps hs => pure ?_
  · exact bind hq fun o ho => bind h fun y hy => pure ⟨ho, hy⟩
  · replace hx := hR x hx
    induction steps generalizing x with
    | nil => exact hx
    | cons st steps ih =>
      obtain ⟨ho, hy⟩ := hs st (by simp)
      exact ih (join x st.1 st.2) (fun st' hm => hs st' (by simp [hm])) (hj x st.1 st.2 hx ho hy)

theorem firstM {f : γ → Parser α} (cs : List γ) (h : ∀ c ∈ cs, Yields (f c) P) :
    Yields (cs.firstM f) P :=
  (Keeps.firstM cs fun c hc => (h c hc).keeps).yields

theorem lexeme (l : Lexer) :
    Yields (Parser.lexeme l) fun piece => ∃ cs rest, l cs = some (piece.2, rest) := by
  intro s a s' ha
  unfold Parser.lexeme at ha
  split at ha
  case h_1 piece rest hl =>
    obtain ⟨rfl, -⟩ := result_inj ha
    exact ⟨_, _, hl⟩
  case h_2 => cases ha

end Yields

end GoFun
