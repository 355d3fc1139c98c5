import GoFun.Proofs.Lex.Piece

/-!
# Pieces of a text that is cut off

A text that is cut off behind one of its pieces still has that piece. This is not clear for numbers,
since a lexer looks ahead: of `1e+` only the first character is a number. So `Clips` says of a lexer
both that it finds the same piece in a text that is cut off behind it, and that it finds none where
there was none before.
-/
namespace GoFun.Lex

open Lexer

variable {cs v t r p : List Char}

structure Clips (l : Lexer) : Prop where
  takes : Takes l
  cut : ∀ t r v, l (t ++ (r ++ v)) = some (t, r ++ v) → l (t ++ r) = some (t, r)
  fade : ∀ cs v, l (cs ++ v) = none → l cs = none

/-- Where the piece goes on behind the cut, nothing is left over in front of it. -/
def Spent (l : Lexer) : Prop :=
  ∀ cs v t r, l (cs ++ v) = some (t, r) → r.length < v.length → ∀ t' r', l cs = some (t', r') →
    r' = []

/-- A piece ends in front of a cut, or goes on behind it. -/
theorem Takes.cases {l : Lexer} (h : Takes l) (hl : l (cs ++ v) = some (t, r)) :
    (∃ r', cs = t ++ r' ∧ r = r' ++ v) ∨ r.length < v.length := by
  have ht := h _ _ _ hl
  rcases Nat.lt_or_ge r.length v.length with hlt | hle
  · exact .inr hlt
  · rcases List.append_eq_append_iff.1 ht with ⟨x, rfl, rfl⟩ | ⟨x, rfl, rfl⟩
    · exact .inl ⟨x, rfl, rfl⟩
    · simp only [List.length_append] at hle
      obtain rfl : x = [] := List.eq_nil_of_length_eq_zero (by omega)
      exact .inl ⟨[], by simp, by simp⟩

theorem one_beyond {p : Char → Bool} (h : one p (cs ++ v) = some (t, r))
    (hr : r.length < v.length) : cs = [] := by
  obtain ⟨c, -, hcs, -⟩ := one_eq_some.1 h
  have := congrArg List.length hcs
  simp only [List.length_append, List.length_cons] at this
  exact List.eq_nil_of_length_eq_zero (by omega)

theorem spent_one (p : Char → Bool) : Spent (one p) := by
  intro cs v t r h hr t' r' h'
  rw [one_beyond h hr] at h'
  cases h'

theorem spent_opt_one (p : Char → Bool) : Spent (opt (one p)) := by
  intro cs v t r h hr t' r' h'
  rcases opt_eq_some.1 h with h | ⟨-, -, rfl⟩
  · rw [one_beyond h hr] at h'
    obtain ⟨-, rfl⟩ := Prod.mk.inj (Option.some.inj h')
    rfl
  · simp only [List.length_append] at hr
    omega

theorem spent_text (s : String) : Spent (text s) := by
  intro cs v t r h hr t' r' h'
  obtain ⟨hcs, -⟩ := text_eq_some.1 h
  obtain ⟨rfl, -⟩ := text_eq_some.1 h'
  have := congrArg List.length hcs
  simp only [List.length_append] at this
  omega

namespace Clips

variable {a b : Lexer}

theorem one (p : Char → Bool) : Clips (one p) where
  takes := takes_one p
  cut t r v h := by
    obtain ⟨c, hc, -, rfl⟩ := one_eq_some.1 h
    exact one_eq_some.2 ⟨c, hc, rfl, rfl⟩
  fade cs v h := by
    cases cs with
    | nil => rfl
    | cons c cs => simpa [Lexer.one] using h

theorem text (s : String) : Clips (text s) where
  takes := takes_text s
  cut t r v h := by
    obtain ⟨-, rfl⟩ := text_eq_some.1 h
    exact text_eq_some.2 ⟨rfl, rfl⟩
  fade cs v h := by
    cases ht : Lexer.text s cs with
    | none => rfl
    | some x =>
      obtain ⟨rfl, -⟩ := text_eq_some.1 ht
      rw [List.append_assoc, text_eq_some.2 ⟨rfl, rfl⟩] at h
      cases h

theorem run (p : Char → Bool) : Clips (run p) where
  takes := takes_run p
  cut t r v h := by
    obtain ⟨ht, hr⟩ := result_inj h
    have hall : ∀ c ∈ t, p c = true := fun c hc => by
      rw [← ht] at hc
      exact List.all_eq_true.1 List.all_takeWhile c hc
    have hstop : Stops p r := by
      have hs := stops_dropWhile p (t ++ (r ++ v))
      rw [hr] at hs
      cases r with
      | nil => exact stops_nil p
      | cons c r => simpa using hs
    exact run_append_stops hall hstop
  fade cs v h := by cases h

theorem append (ha : Clips a) (hb : Clips b) (h : (∀ cs, b cs ≠ none) ∨ Spent a ∧ b [] = none) :
    Clips (a ++ b) where
  takes := ha.takes.append hb.takes
  cut t r v h := by
    obtain ⟨t₁, c, t₂, h₁, h₂, rfl⟩ := append_eq_some.1 h
    obtain rfl := hb.takes _ _ _ h₂
    rw [List.append_assoc, ← List.append_assoc t₂] at h₁
    rw [List.append_assoc]
    exact append_eq_some.2 ⟨t₁, _, t₂, ha.cut _ _ _ h₁, hb.cut _ _ _ h₂, rfl⟩
  fade cs v hn := by
    cases hx : (a ++ b) cs with
    | none => rfl
    | some x =>
      obtain ⟨t₁, c, t₂, h₁, h₂, -⟩ := append_eq_some.1 hx
      cases ha' : a (cs ++ v) with
      | none => rw [ha.fade _ _ ha'] at h₁; cases h₁
      | some y =>
        obtain ⟨t, r⟩ := y
        have hb' : b r = none := by
          cases hb' : b r with
          | none => rfl
          | some z => rw [append_eq_some.2 ⟨t, r, z.1, ha', hb', rfl⟩] at hn; cases hn
        rcases h with htotal | ⟨hspent, hnil⟩
        · exact absurd hb' (htotal r)
        · rcases ha.takes.cases ha' with ⟨r', rfl, rfl⟩ | hlt
          · rw [List.append_assoc] at ha'
            obtain ⟨-, rfl⟩ := Prod.mk.inj (Option.some.inj ((ha.cut _ _ _ ha').symm.trans h₁))
            rw [hb.fade _ _ hb'] at h₂
            cases h₂
          · rw [hspent _ _ _ _ ha' hlt _ _ h₁, hnil] at h₂
            cases h₂

theorem orElse (ha : Clips a) (hb : Clips b) : Clips (a <|> b) where
  takes := ha.takes.orElse hb.takes
  cut t r v h := by
    rcases orElse_eq_some.1 h with h | ⟨hn, h⟩
    · exact orElse_eq_some.2 (.inl (ha.cut _ _ _ h))
    · rw [← List.append_assoc] at hn
      exact orElse_eq_some.2 (.inr ⟨ha.fade _ _ hn, hb.cut _ _ _ h⟩)
  fade cs v h := by
    have h' : (a (cs ++ v)).or (b (cs ++ v)) = none := by
      change (a (cs ++ v) <|> b (cs ++ v)) = none at h
      simpa using h
    rw [Option.or_eq_none_iff] at h'
    change (a cs <|> b cs) = none
    simp [ha.fade _ _ h'.1, hb.fade _ _ h'.2]

theorem opt (ha : Clips a) : Clips (opt a) where
  takes := ha.takes.opt
  cut t r v h := by
    rcases opt_eq_some.1 h with h | ⟨hn, rfl, -⟩
    · exact opt_eq_some.2 (.inl (ha.cut _ _ _ h))
    · exact opt_eq_some.2 (.inr ⟨ha.fade _ _ hn, rfl, rfl⟩)
  fade cs v h := by
    unfold Lexer.opt at h
    cases ha' : a (cs ++ v) <;> simp [ha'] at h

theorem check (ha : Clips a) {p : List Char → Bool} (hp : ∀ t u, p t = true → p (t ++ u) = true) :
    Clips (a.check p) where
  takes := ha.takes.check p
  cut t r v h := by
    obtain ⟨h, hpt⟩ := Option.filter_eq_some_iff.1 h
    exact Option.filter_eq_some_iff.2 ⟨ha.cut _ _ _ h, hpt⟩
  fade cs v hn := by
    cases hx : a.check p cs with
    | none => rfl
    | some x =>
      obtain ⟨t, r⟩ := x
      obtain ⟨hx, hpt⟩ := Option.filter_eq_some_iff.1 hx
      cases ha' : a (cs ++ v) with
      | none => rw [ha.fade _ _ ha'] at hx; cases hx
      | some y =>
        obtain ⟨t', r'⟩ := y
        have hpt' : p t' = true := by
          obtain rfl := ha.takes _ _ _ hx
          rcases ha.takes.cases ha' with ⟨r'', he, rfl⟩ | hlt
          · rw [he, List.append_assoc] at ha'
            have hcut := ha.cut _ _ _ ha'
            rw [← he, hx] at hcut
            obtain ⟨rfl, -⟩ := result_inj hcut
            exact hpt
          · -- the piece goes on behind the cut, so it begins with all that stands before it
            obtain ⟨u, hu⟩ : ∃ u, t' = (t ++ r) ++ u := by
              rcases List.append_eq_append_iff.1 (ha.takes _ _ _ ha') with ⟨u, he, rfl⟩
                | ⟨u, rfl, -⟩
              · simp only [List.length_append] at hlt
                omega
              · exact ⟨u, rfl⟩
            rw [hu, List.append_assoc]
            exact hp _ _ hpt
        have hsome : a.check p (cs ++ v) = some (t', r') := Option.filter_eq_some_iff.2 ⟨ha', hpt'⟩
        rw [hsome] at hn
        cases hn

end Clips

theorem Spent.append {a b : Lexer} (ha : Spent a) (hb : Spent b) (hca : Clips a) (htb : Takes b) :
    Spent (a ++ b) := by
  intro cs v t r h hr t' r' h'
  obtain ⟨t₁, c, t₂, h₁, h₂, -⟩ := append_eq_some.1 h
  obtain ⟨t₁', c', t₂', h₁', h₂', -⟩ := append_eq_some.1 h'
  rcases hca.takes.cases h₁ with ⟨c'', rfl, rfl⟩ | hlt
  · rw [List.append_assoc] at h₁
    obtain ⟨-, rfl⟩ := Prod.mk.inj (Option.some.inj ((hca.cut _ _ _ h₁).symm.trans h₁'))
    exact hb _ _ _ _ h₂ hr _ _ h₂'
  · rw [ha _ _ _ _ h₁ hlt _ _ h₁'] at h₂'
    exact (List.append_eq_nil_iff.1 (htb _ _ _ h₂')).2

theorem run_ne_none (p : Char → Bool) (cs : List Char) : run p cs ≠ none := by simp [run]

theorem opt_ne_none (a : Lexer) (cs : List Char) : opt a cs ≠ none := by
  unfold opt
  cases a cs <;> simp

theorem clips_exponentOf (s : String) : Clips (oneOf s ++ opt (oneOf "+-") ++ digit ++ digits) := by
  have hsign : Clips (oneOf s ++ opt (oneOf "+-")) :=
    .append (.one _) (.opt (.one _)) (.inl (opt_ne_none _))
  have hspent : Spent (oneOf s ++ opt (oneOf "+-")) :=
    (spent_one _).append (spent_opt_one _) (.one _) (takes_one _).opt
  exact .append (.append hsign (.one _) (.inr ⟨hspent, rfl⟩)) (.run _) (.inl (run_ne_none _))

theorem clips_number : Clips number := by
  have htext : ∀ (s t : String), Clips (text s ++ oneOf t) := fun s t =>
    .append (.text s) (.one _) (.inr ⟨spent_text s, rfl⟩)
  have hfraction : ∀ p, Clips (text "." ++ run p) :=
    fun p => .append (.text _) (.run p) (.inl (run_ne_none p))
  have hhex : Clips hexNumber := by
    refine .check ?_ fun t u h => ?_
    · exact .append (.append (.append (htext "0" "xX") (.run _) (.inl (run_ne_none _)))
        (hfraction _).opt (.inl (opt_ne_none _))) (clips_exponentOf "pP").opt (.inl (opt_ne_none _))
    · rw [List.any_eq_true] at h ⊢
      obtain ⟨c, hc, hd⟩ := h
      exact ⟨c, (List.drop_append ▸ List.mem_append_left _ hc), hd⟩
  have hradix : Clips radixNumber := by
    have hspent : Spent (text "0" ++ oneOf "oObB") :=
      (spent_text _).append (spent_one _) (.text _) (takes_one _)
    exact .append (.append (htext "0" "oObB") (.one _) (.inr ⟨hspent, rfl⟩)) (.run _)
      (.inl (run_ne_none _))
  have hdecimal : Clips decimalNumber :=
    .append (.append (.append (.one _) (.run _) (.inl (run_ne_none _))) (hfraction _).opt
      (.inl (opt_ne_none _))) (clips_exponentOf "eE").opt (.inl (opt_ne_none _))
  have hpoint : Clips fractionNumber := by
    have hdigit : Clips (text "." ++ digit) := .append (.text _) (.one _) (.inr ⟨spent_text _, rfl⟩)
    exact .append (.append hdigit (.run _) (.inl (run_ne_none _))) (clips_exponentOf "eE").opt
      (.inl (opt_ne_none _))
  exact .append (hhex.orElse (hradix.orElse (hdecimal.orElse hpoint))) (Clips.text "i").opt
    (.inl (opt_ne_none _))

theorem throughClose_extend {s rest : List Char} (v : List Char)
    (h : throughClose cs = some (s, rest)) :
    throughClose (cs ++ v) = some (s, rest ++ v) := by
  fun_induction throughClose cs generalizing s with
  | case1 => cases h
  | case2 cs =>
    obtain ⟨rfl, rfl⟩ := result_inj h
    rfl
  | case3 c cs hne ih =>
    obtain ⟨⟨t, r⟩, ht, he⟩ := Option.map_eq_some_iff.1 h
    obtain ⟨rfl, rfl⟩ := Prod.mk.inj he
    rw [List.cons_append, throughClose, ih ht]
    · rfl
    · intro cs' hc hcs'
      cases cs with
      | nil => cases ht
      | cons d cs =>
        obtain ⟨rfl, -⟩ := List.cons.inj hcs'
        exact hne cs hc rfl

theorem clips_throughClose : Clips throughClose where
  takes _ _ _ h := throughClose_append h
  cut t r v h := by
    generalize hcs : t ++ (r ++ v) = cs at h
    fun_induction throughClose cs generalizing t with
    | case1 => cases h
    | case2 cs =>
      obtain ⟨rfl, -⟩ := result_inj h
      rfl
    | case3 c cs hne ih =>
      obtain ⟨⟨t', r'⟩, ht, he⟩ := Option.map_eq_some_iff.1 h
      obtain ⟨rfl, rfl⟩ := Prod.mk.inj he
      have htail : t' ++ (r ++ v) = cs := by simpa using hcs
      rw [List.cons_append, throughClose, ih t' htail ht]
      · rfl
      · intro cs' hc hcs'
        exact hne (cs' ++ v) hc (by rw [← htail, ← List.append_assoc, hcs', List.cons_append])
  fade cs v h := by
    cases hx : throughClose cs with
    | none => rfl
    | some x => rw [throughClose_extend v hx] at h; cases h

theorem clips_comment : Clips comment := by
  rw [comment_eq]
  exact .orElse (.append (.text _) (.run _) (.inl (run_ne_none _)))
    (.append (.text _) clips_throughClose (.inr ⟨spent_text _, rfl⟩))

theorem lexer_eq_none_of_next_sign (h : next cs = some (.sign, p, r)) {j : Kind} (hj : j ≠ .sign) :
    j.lexer cs = none := by
  cases hx : j.lexer cs with
  | none => rfl
  | some x =>
    have hnext : next cs = some (j, x) := by
      by_cases hd : j = .dots
      · subst hd
        obtain ⟨rfl, ht⟩ := text_eq_some.1 hx
        rw [next_dots, ← ht]
      · exact next_of_lexer (by simp [Kind.isPlain, hd, hj]) hx
    rw [h] at hnext
    exact absurd (result_inj hnext).1.symm hj

/-- The next piece of a text is the next one, too, where the text is cut off behind it. -/
theorem next_clip {k : Kind} {w : List Char} (h : next (p ++ (w ++ v)) = some (k, p, w ++ v)) :
    next (p ++ w) = some (k, p, w) := by
  have hl := lexer_of_next h
  cases k with
  | blank => exact next_of_lexer rfl ((Clips.one _).cut _ _ _ hl)
  | comment => exact next_of_lexer rfl (clips_comment.cut _ _ _ hl)
  | word => exact next_of_lexer rfl ((Clips.append (.one _) (.run _) (.inl (run_ne_none _))).cut _ _ _ hl)
  | number => exact next_of_lexer rfl (clips_number.cut _ _ _ hl)
  | string => exact next_of_lexer rfl (rereads_string (fun _ => false) _ _ _ hl w fun _ _ => rfl)
  | char => exact next_of_lexer rfl (rereads_char (fun _ => false) _ _ _ hl w fun _ _ => rfl)
  | dots =>
    obtain ⟨-, rfl⟩ := text_eq_some.1 hl
    exact next_dots w
  | sign =>
    obtain ⟨c, hc, -, rfl⟩ := one_eq_some.1 hl
    have hnone : ∀ j ≠ Kind.sign, j.lexer (c :: w ++ v) = none :=
      fun j hj => lexer_eq_none_of_next_sign h hj
    exact next_sign_of_none hc (clips_comment.fade _ _ (hnone .comment (by decide)))
      (clips_number.fade _ _ (hnone .number (by decide)))
      ((Clips.text _).fade _ _ (hnone .dots (by decide)))

end GoFun.Lex
