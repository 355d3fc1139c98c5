import GoFun.Proofs.Grammar.Trail

/-!
# Two runs in step

A rule of the grammar is run on two texts side by side. A `Lockstep` says which places of the two
texts correspond, at which depth of brackets, and how offsets of the first become those of the
second. `Tracks` says that two parsers do the same from corresponding places.

The first text may go on where the second one ends. Outside of all brackets the first run may get
past that end, where nothing is known of the second one, unless the parser is `tight`: then it stood
at that end already, and the second run fails.
-/
namespace GoFun

open Parser

variable {t u u' t' : Cursor}

class Movable (α : Type) where
  move : (Nat → Nat) → α → α

open Movable (move)

instance : Movable Nat := ⟨fun f => f⟩
instance : Movable Unit := ⟨fun _ x => x⟩
instance {α : Type} [Movable α] : Movable (Option α) := ⟨fun f => Option.map (move f)⟩
instance {α : Type} [Movable α] : Movable (List α) := ⟨fun f => List.map (move f)⟩
instance {α β : Type} [Movable α] [Movable β] : Movable (α × β) :=
  ⟨fun f x => (move f x.1, move f x.2)⟩

structure Lockstep where
  shift : Nat → Nat
  At : Nat → Cursor → Cursor → Prop
  /-- How much of the first text is left where the second one ends. -/
  left : Nat
  shorter : ∀ {n m : Nat} {u u' t t' : Cursor}, At n u u' → At m t t' →
    (t.rest.length < u.rest.length ↔ t'.rest.length < u'.rest.length)

namespace Lockstep

variable (S : Lockstep)

/-- The first run has got past the end of the second text. -/
def Past (d : Nat) (t : Cursor) : Prop := d = 0 ∧ t.rest.length < S.left

variable {S}

theorem Past.of_le {d : Nat} (h : S.Past d t) (hu : u.rest.length ≤ t.rest.length) : S.Past d u :=
  ⟨h.1, Nat.lt_of_le_of_lt hu h.2⟩

theorem length_le {n m : Nat} (hu : S.At n u u') (ht : S.At m t t')
    (h : t.rest.length ≤ u.rest.length) :
    t'.rest.length ≤ u'.rest.length :=
  Nat.not_lt.1 fun hlt => Nat.not_lt.2 h ((S.shorter ht hu).2 hlt)

/-- How a second run that began at `u'` may end when a first run has ended in a certain way. -/
def Outcome {α : Type} [Movable α] (S : Lockstep) (d m : Nat) (tight : Bool) (u' : Cursor) :
    Option (α × Cursor) → Option (α × Cursor) → Prop
  | none, x => x = none
  | some (a, t), x => (∃ t', x = some (move S.shift a, t') ∧ S.At (d + m) t t') ∨
      S.Past d t ∧ (tight = true → u'.rest = [] ∧ x = none)

end Lockstep

/-- The parsers `p` and `p'` run in step from the depth `d + n` to the depth `d + m`, on second
texts of less than `bound` characters. What `p` reads takes at least `take` characters. -/
structure Tracks {α : Type} [Movable α] (S : Lockstep) (d take bound n m : Nat) (tight : Bool)
    (p p' : Parser α) :
    Prop where
  tidy : ∀ {s a t}, Trimmed s → p s = some (a, t) → Trimmed t ∧ t.rest.length + take ≤ s.rest.length
  runs : ∀ {u u'}, S.At (d + n) u u' → Trimmed u → u'.rest.length < bound →
    S.Outcome d m tight u' (p u) (p' u')

/-- Both runs end at the depth where they began. -/
abbrev Level {α : Type} [Movable α] (S : Lockstep) (d take bound : Nat) (p p' : Parser α) : Prop :=
  Tracks S d take bound 0 0 false p p'

theorem Parser.optional_eq_some {α : Type} (p : Parser α) (s : Cursor) :
    ∃ o t, optional p s = some (o, t) := by
  unfold optional
  rw [orElse_apply]
  cases hp : (some <$> p) s with
  | none => exact ⟨none, s, rfl⟩
  | some x => exact ⟨x.1, x.2, rfl⟩

namespace Tracks

open Lockstep

variable {α β : Type} [Movable α] [Movable β] {S : Lockstep} {d take q bound n m l : Nat}
  {c b : Bool} {p p' r r' : Parser α} {k j : α → Parser β}
variable {γ : Type}

theorem outcome_inside {u' : Cursor} {x x' : Option (α × Cursor)}
    (h : S.Outcome (d + 1) m c u' x x') (hl : d + 1 + m = l + n) : S.Outcome l n true u' x x' := by
  match x, h with
  | none, h => exact h
  | some _, .inl h => exact .inl (hl ▸ h)
  | some _, .inr ⟨⟨hd, _⟩, _⟩ => exact absurd hd (Nat.succ_ne_zero d)

theorem tight (h : Tracks S (d + 1) take bound n m c p p') :
    Tracks S (d + 1) take bound n m true p p' :=
  ⟨h.tidy, fun hu ht hb => outcome_inside (h.runs hu ht hb) rfl⟩

theorem lift (h : Tracks S (d + 1) take bound 0 0 c p p') : Tracks S d take bound 1 1 true p p' :=
  ⟨h.tidy, fun hu ht hb => outcome_inside (h.runs hu ht hb) rfl⟩

theorem le (h : Tracks S d take bound n m c p p') {take₁ bound₁ : Nat} (ht : take₁ ≤ take)
    (hb : bound₁ ≤ bound) :
    Tracks S d take₁ bound₁ n m c p p' where
  tidy hs ha := by
    obtain ⟨h₁, h₂⟩ := h.tidy hs ha
    exact ⟨h₁, by omega⟩
  runs hu ht hlt := h.runs hu ht (Nat.lt_of_lt_of_le hlt hb)

theorem zero (h : Tracks S d take bound n m c p p') : Tracks S d 0 bound n m c p p' :=
  h.le (Nat.zero_le _) (Nat.le_refl _)

theorem less (h : Tracks S d take (bound + 1) n m c p p') : Tracks S d take bound n m c p p' :=
  h.le (Nat.le_refl _) (Nat.le_succ _)

theorem vacuous (h : Tracks S d take bound n m c p p') (r' : Parser α) :
    Tracks S d take 0 n m c p r' :=
  ⟨h.tidy, fun _ _ hlt => absurd hlt (Nat.not_lt_zero _)⟩

theorem pure {a a' : α} (h : move S.shift a = a') :
    Tracks S d 0 bound n n c (Pure.pure a) (Pure.pure a') where
  tidy hs ha := by
    obtain ⟨-, rfl⟩ := result_inj ha
    exact ⟨hs, Nat.le_refl _⟩
  runs {u u'} hu _ _ := .inl ⟨u', by rw [h]; rfl, hu⟩

theorem Outcome.loose {x x' : Option (α × Cursor)} (h : S.Outcome d m c t' x x') :
    S.Outcome d m false u' x x' := by
  match x with
  | none => exact h
  | some (a, t) =>
    rcases h with h | ⟨hpast, -⟩
    · exact .inl h
    · exact .inr ⟨hpast, by simp⟩

/-- One parser and then another one. A first run that is past the end must not come back: either the
second run has failed there, or what follows cannot fail. -/
theorem bind_of {bound' : Nat} (hp : Tracks S d take bound' n m c p p')
    (hk : ∀ a, Tracks S d q bound m l b (k a) (j (move S.shift a)))
    (hb : ∀ {u u' t t'}, S.At (d + n) u u' → S.At (d + m) t t' → t.rest.length + take ≤
      u.rest.length → u'.rest.length < bound' → t'.rest.length < bound)
    (hpast : c = true ∨ ∀ a s, k a s ≠ none) :
    Tracks S d take bound' n l false (p >>= k) (p' >>= j) where
  tidy hs hx := by
    obtain ⟨a, v, ha, hx⟩ := bind_eq_some hx
    obtain ⟨hv, hle⟩ := hp.tidy hs ha
    obtain ⟨ht, hle'⟩ := (hk a).tidy hv hx
    exact ⟨ht, by omega⟩
  runs {u u'} hu htrim hlt := by
    have hrun := hp.runs hu htrim hlt
    cases hpu : p u with
    | none =>
      rw [hpu] at hrun
      rw [bind_apply_none _ hpu]
      exact bind_apply_none _ hrun
    | some x =>
      obtain ⟨a, t⟩ := x
      obtain ⟨ht, hle⟩ := hp.tidy htrim hpu
      rw [hpu] at hrun
      rw [bind_apply _ hpu]
      rcases hrun with ⟨t', hp', hat⟩ | ⟨hpst, htight⟩
      · rw [bind_apply _ hp']
        exact Outcome.loose ((hk a).runs hat ht (hb hu hat hle hlt))
      · cases hkt : k a t with
        | none =>
          rcases hpast with hc | htotal
          · exact bind_apply_none _ (htight hc).2
          · exact absurd hkt (htotal a t)
        | some y =>
          obtain ⟨x, v⟩ := y
          have hv := ((hk a).tidy ht hkt).2
          exact .inr ⟨hpst.of_le (by omega), by simp⟩

theorem step_le {take : Nat} (hu : S.At n u u') (ht : S.At m t t')
    (h : t.rest.length + take ≤ u.rest.length)
    (hb : u'.rest.length < bound) : t'.rest.length < bound :=
  Nat.lt_of_le_of_lt (length_le hu ht (by omega)) hb

theorem step_lt (hu : S.At n u u') (ht : S.At m t t') (h : t.rest.length + 1 ≤ u.rest.length)
    (hb : u'.rest.length < bound + 1) : t'.rest.length < bound := by
  have := (S.shorter hu ht).1 h
  omega

theorem andThen (hp : Tracks S d take bound n m true p p')
    (hk : ∀ a, Tracks S d q bound m l b (k a) (j (move S.shift a))) :
    Tracks S d take bound n l false (p >>= k) (p' >>= j) :=
  bind_of hp hk step_le (.inl rfl)

theorem andThen₁ (hp : Tracks S d 1 (bound + 1) n m true p p')
    (hk : ∀ a, Tracks S d q bound m l b (k a) (j (move S.shift a))) :
    Tracks S d 1 (bound + 1) n l false (p >>= k) (p' >>= j) :=
  bind_of hp hk step_lt (.inl rfl)

theorem andTry (hp : Tracks S d take bound n m c p p')
    (hk : ∀ a, Tracks S d q bound m l b (k a) (j (move S.shift a))) (htotal : ∀ a s, k a s ≠ none) :
    Tracks S d take bound n l false (p >>= k) (p' >>= j) :=
  bind_of hp hk step_le (.inr htotal)

theorem andTry₁ (hp : Tracks S d 1 (bound + 1) n m c p p')
    (hk : ∀ a, Tracks S d q bound m l b (k a) (j (move S.shift a))) (htotal : ∀ a s, k a s ≠ none) :
    Tracks S d 1 (bound + 1) n l false (p >>= k) (p' >>= j) :=
  bind_of hp hk step_lt (.inr htotal)

theorem bind (hp : Tracks S (d + 1) take bound n m c p p')
    (hk : ∀ a, Tracks S (d + 1) q bound m l b (k a) (j (move S.shift a))) :
    Tracks S (d + 1) take bound n l false (p >>= k) (p' >>= j) := hp.tight.andThen hk

theorem bind₁ (hp : Tracks S (d + 1) 1 (bound + 1) n m c p p')
    (hk : ∀ a, Tracks S (d + 1) q bound m l b (k a) (j (move S.shift a))) :
    Tracks S (d + 1) 1 (bound + 1) n l false (p >>= k) (p' >>= j) := hp.tight.andThen₁ hk

theorem orElse (hp : Tracks S d take bound n m c p p') (hr : Tracks S d take bound n m b r r') :
    Tracks S d take bound n m false (p <|> r) (p' <|> r') where
  tidy hs hx := by
    rcases orElse_eq_some hx with hx | ⟨-, hx⟩
    · exact hp.tidy hs hx
    · exact hr.tidy hs hx
  runs {u u'} hu ht hlt := by
    have hrun := hp.runs hu ht hlt
    rw [orElse_apply, orElse_apply]
    cases hpu : p u with
    | none =>
      rw [hpu] at hrun
      have hp' : p' u' = none := hrun
      rw [hp']
      exact Outcome.loose (hr.runs hu ht hlt)
    | some x =>
      obtain ⟨a, t⟩ := x
      rw [hpu] at hrun
      rcases hrun with ⟨t', hp', hat⟩ | ⟨hpst, -⟩
      · rw [hp']
        exact .inl ⟨t', rfl, hat⟩
      · exact .inr ⟨hpst, by simp⟩

theorem finish (h : Tracks S d take bound n m c p p')
    (hk : ∀ a, ∃ x, k a = Pure.pure x ∧ j (move S.shift a) = Pure.pure (move S.shift x)) :
    Tracks S d take bound n m false (p >>= k) (p' >>= j) := by
  refine h.andTry (q := 0) (b := false) (fun a => ?_) fun a s hn => ?_
  · obtain ⟨x, hx, hx'⟩ := hk a
    rw [hx, hx']
    exact pure rfl
  · obtain ⟨x, hx, -⟩ := hk a
    rw [hx] at hn
    cases hn

theorem give {f g : α → β} (h : Tracks S d take bound n m c p p')
    (hf : ∀ a, move S.shift (f a) = g (move S.shift a)) :
    Tracks S d take bound n m false (p >>= fun a => Pure.pure (f a))
      (p' >>= fun a => Pure.pure (g a)) :=
  h.finish fun a => ⟨f a, rfl, by rw [hf]⟩

theorem guarded {e e' : Prop} [Decidable e] [Decidable e'] (h : e ↔ e') :
    Tracks S d 0 bound n n true (guard e) (guard e') := by
  by_cases he : e
  · rw [guard_eq_pure he, guard_eq_pure (h.1 he)]
    exact pure (c := true) rfl
  · have he' : ¬ e' := fun h' => he (h.2 h')
    rw [guard_eq_failure he, guard_eq_failure he']
    exact { tidy := fun _ h => (by cases h), runs := fun _ _ _ => rfl }

theorem map {f g : α → β} (h : Tracks S d take bound n m c p p')
    (hf : ∀ a, move S.shift (f a) = g (move S.shift a)) :
    Tracks S d take bound n m false (f <$> p) (g <$> p') := h.give hf

theorem opt (h : Tracks S d take bound n n c p p') :
    Tracks S d 0 bound n n false (optional p) (optional p') :=
  orElse (c := false) (b := false) (map (f := some) (g := some) h fun _ => rfl).zero (pure rfl)

theorem firstM {f g : γ → Parser α} (cs : List γ)
    (h : ∀ x ∈ cs, Tracks S d take bound n m c (f x) (g x)) :
    Tracks S d take bound n m false (cs.firstM f) (cs.firstM g) := by
  induction cs with
  | nil => exact { tidy := fun _ h => (nomatch h), runs := fun _ _ _ => rfl }
  | cons x cs ih => exact orElse (h x (by simp)) (ih fun y hy => h y (by simp [hy]))

theorem tidy_manyFrom (h : Tracks S d take bound 0 0 c p p') (s : Cursor) (hs : Trimmed s) :
    Trimmed (manyFrom p s).2 ∧ (manyFrom p s).2.rest.length ≤ s.rest.length := by
  fun_induction manyFrom p s with
  | case1 s hp | case3 s a next hp hlt => exact ⟨hs, Nat.le_refl _⟩
  | case2 s a next hp hlt as last hrest ih =>
    rw [hrest] at ih
    obtain ⟨hl, hle⟩ := ih (h.tidy hs hp).1
    exact ⟨hl, by simp only at hle ⊢; omega⟩

/-- Rounds go on in step. If they are tight and the first run gets past the end, the second one has
stopped there. -/
theorem manyFrom_runs (h : Tracks S d 1 bound 0 0 c p p') (hu : S.At d u u') (ht : Trimmed u)
    (hlt : u'.rest.length < bound) :
    (∃ t', manyFrom p' u' = (move S.shift (manyFrom p u).1, t') ∧ S.At d (manyFrom p u).2 t') ∨
      S.Past d (manyFrom p u).2 ∧ (c = true → (manyFrom p' u').2.rest = []) := by
  fun_induction manyFrom p u generalizing u' with
  | case1 u hp =>
    have hrun := h.runs hu ht hlt
    rw [hp] at hrun
    have hp' : p' u' = none := hrun
    exact .inl ⟨u', by rw [manyFrom, hp']; rfl, hu⟩
  | case2 u a next hp hless as last hrest ih =>
    have hrun := h.runs hu ht hlt
    have hnext := (h.tidy ht hp).1
    rw [hrest] at ih
    rw [hp] at hrun
    rcases hrun with ⟨t', hp', hat⟩ | ⟨hpast, htight⟩
    · have hlt' := Nat.lt_of_le_of_lt (length_le hu hat (Nat.le_of_lt hless)) hlt
      have hround :
          manyFrom p' u' = (move S.shift a :: (manyFrom p' t').1, (manyFrom p' t').2) := by
        rw [manyFrom, hp']
        simp only [(S.shorter hu hat).1 hless, if_true]
      rw [hround]
      rcases ih hat hnext hlt' with ⟨v', hv', hav⟩ | ⟨hpast, hstop⟩
      · exact .inl ⟨v', by rw [hv']; rfl, hav⟩
      · exact .inr ⟨hpast, hstop⟩
    · refine .inr ⟨hpast.of_le ?_, fun hc => ?_⟩
      · have hle := (h.tidy_manyFrom next hnext).2
        rwa [hrest] at hle
      · obtain ⟨hnil, hp'⟩ := htight hc
        rw [manyFrom, hp']
        exact hnil
  | case3 u a next hp hless =>
    have hle := (h.tidy ht hp).2
    omega

theorem many (h : Tracks S d 1 bound 0 0 c p p') : Level S d 0 bound (many p) (many p') where
  tidy {s as t} hs ha := by
    obtain ⟨rfl, rfl⟩ := result_inj ha
    exact h.tidy_manyFrom s hs
  runs {u u'} hu ht hlt := by
    rcases h.manyFrom_runs hu ht hlt with ⟨t', hm, hat⟩ | ⟨hpast, -⟩
    · exact .inl ⟨t', congrArg some hm, hat⟩
    · exact .inr ⟨hpast, by simp⟩

/-- Tight rounds and then something that fails at the end of the second text. -/
theorem manyThen (h : Tracks S d 1 bound 0 0 true p p') {k j : List α → Parser β}
    (hk : ∀ as, Tracks S d q bound 0 m b (k as) (j (move S.shift as)))
    (hnil : ∀ as o, j as ⟨o, []⟩ = none) :
    Tracks S d q bound 0 m false (Parser.many p >>= k) (Parser.many p' >>= j) where
  tidy {s x t} hs hx := by
    obtain ⟨as, v, ha, hx⟩ := Parser.bind_eq_some hx
    obtain ⟨hv, hle⟩ := h.many.tidy hs ha
    obtain ⟨ht, hle'⟩ := (hk as).tidy hv hx
    exact ⟨ht, by omega⟩
  runs {u u'} hu ht hlt := by
    obtain ⟨hv, hle⟩ := h.tidy_manyFrom u ht
    have hfirst : (Parser.many p >>= k) u = k (manyFrom p u).1 (manyFrom p u).2 := rfl
    have hsecond : (Parser.many p' >>= j) u' = j (manyFrom p' u').1 (manyFrom p' u').2 := rfl
    rw [hfirst, hsecond]
    rcases h.manyFrom_runs hu ht hlt with ⟨t', hm, hat⟩ | ⟨hpast, hstop⟩
    · rw [hm]
      exact Outcome.loose ((hk _).runs hat hv (Nat.lt_of_le_of_lt (length_le hu hat hle) hlt))
    · cases hx : k (manyFrom p u).1 (manyFrom p u).2 with
      | none =>
        have hend : (manyFrom p' u').2 = ⟨(manyFrom p' u').2.offset, []⟩ := by rw [← hstop rfl]
        rw [hend]
        exact hnil _ _
      | some x =>
        have hle' := ((hk _).tidy hv hx).2
        exact .inr ⟨hpast.of_le (by omega), by simp⟩

theorem thenOpt [Movable γ] {r r' : Parser γ} {k j : α → Option γ → Parser β}
    (hp : Tracks S d 1 (bound + 1) n m c p p') (hr : Tracks S d q bound m m b r r')
    (hk : ∀ a o, ∃ x, k a o = Pure.pure x ∧ j (move S.shift a) (move S.shift o) =
      Pure.pure (move S.shift x)) :
    Tracks S d 1 (bound + 1) n m false (p >>= fun a => optional r >>= k a)
      (p' >>= fun a => optional r' >>= j a) := by
  refine hp.andTry₁ (fun a => hr.opt.finish (hk a)) fun a s h => ?_
  obtain ⟨o, t, ho⟩ := optional_eq_some r s
  obtain ⟨x, hx, -⟩ := hk a o
  rw [bind_apply _ ho, hx] at h
  cases h

theorem thenMany [Movable γ] {r r' : Parser γ} {f g : α → List γ → β}
    (hp : Tracks S d 1 (bound + 1) n 0 c p p') (hr : Tracks S d 1 bound 0 0 b r r')
    (hf : ∀ a as, move S.shift (f a as) = g (move S.shift a) (move S.shift as)) :
    Tracks S d 1 (bound + 1) n 0 false
      (p >>= fun a => Parser.many r >>= fun as => Pure.pure (f a as))
      (p' >>= fun a => Parser.many r' >>= fun as => Pure.pure (g a as)) :=
  hp.andTry₁ (fun a => hr.many.give (hf a)) fun _ _ h => by cases h

theorem chain {op op' : Parser β} {join join' : α → β → α → α}
    (h : Tracks S d take bound 0 0 c p p') (hop : Tracks S d 1 bound 0 0 true op op')
    (hjoin : ∀ x o y, move S.shift (join x o y) =
      join' (move S.shift x) (move S.shift o) (move S.shift y)) :
    Level S d take bound (chain p op join) (chain p' op' join') := by
  have hround : Level S d 1 bound (do return (← op, ← p)) (do return (← op', ← p')) :=
    hop.andThen fun o => h.give fun y => rfl
  have hfold : ∀ (steps : List (β × α)) (x : α),
      move S.shift (steps.foldl (fun x step => join x step.1 step.2) x) =
        (move S.shift steps).foldl (fun x step => join' x step.1 step.2) (move S.shift x) := by
    intro steps
    induction steps with
    | nil => exact fun _ => rfl
    | cons step steps ih => exact fun x => (ih _).trans (by rw [hjoin]; rfl)
  exact h.andTry (fun x => hround.many.give fun steps => hfold steps x) fun _ _ h => by cases h

section Lists

variable {sep sep' : Parser β} (hp : Tracks S (d + 1) take bound 0 0 c p p')
  (hsep : Tracks S (d + 1) 1 bound 0 0 b sep sep')

include hp hsep

theorem sepBy1 : Level S (d + 1) take bound (sepBy1 p sep) (sepBy1 p' sep') := by
  have hround : Level S (d + 1) 1 bound (sep *> p) (sep' *> p') :=
    bind (k := fun _ => p) (j := fun _ => p') hsep fun _ => hp
  exact hp.bind fun a => hround.many.give fun as => rfl

theorem sepBy : Level S (d + 1) 0 bound (sepBy p sep) (sepBy p' sep') :=
  (sepBy1 hp hsep).zero.orElse (pure (c := false) rfl)

theorem sepEndBy : Level S (d + 1) 0 bound (sepEndBy p sep) (sepEndBy p' sep') := by
  refine orElse (c := false) ?_ (pure (c := false) rfl)
  exact bind (k := fun as => optional sep >>= fun _ => Pure.pure as)
    (j := fun as => optional sep' >>= fun _ => Pure.pure as)
    (sepBy1 hp hsep).zero fun as => hsep.opt.give fun _ => rfl

end Lists

section Sequences

variable {r r' : Parser β}

theorem seqRight (hp : Tracks S (d + 1) take bound n m c p p')
    (hr : Tracks S (d + 1) q bound m l b r r') :
    Tracks S (d + 1) take bound n l false (p *> r) (p' *> r') :=
  bind (k := fun _ => r) (j := fun _ => r') hp fun _ => hr

theorem seqLeft (hp : Tracks S (d + 1) take bound n m c p p')
    (hr : Tracks S (d + 1) q bound m l b r r') :
    Tracks S (d + 1) take bound n l false (p <* r) (p' <* r') :=
  bind (k := fun a => r >>= fun _ => Pure.pure a) (j := fun a => r' >>= fun _ => Pure.pure a) hp
    fun _ =>
    hr.give fun _ => rfl

end Sequences

end Tracks

end GoFun
