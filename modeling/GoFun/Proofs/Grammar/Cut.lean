import Mathlib.Data.Option.Basic
import GoFun.Proofs.Grammar.Span
import GoFun.Proofs.Lex.Clip

/-!
# Reading a text that is cut off

What is read as an expression ends with a solid piece. Where the text is cut off behind that piece,
the tokens in front of the cut are the same, so the rules run in step on the text and on the part of
it. At the cut the second run stands at the end of its text, and the first one may go on.
-/
namespace GoFun

open Parser Grammar Movable Lex List

variable {k : Kind} {blank : Char → Bool}

theorem Way.length_lt {w s : Cursor} {n : Nat} (h : Way w n s) : w.rest.length < s.rest.length := by
  induction h with
  | last hn _ _ he =>
    obtain ⟨hne, rfl⟩ := next_append hn
    have := length_pos_iff.2 hne
    simp only [he, length_append]
    omega
  | piece hn _ _ ih =>
    obtain ⟨-, rfl⟩ := next_append hn
    rw [length_append]
    exact Nat.lt_of_lt_of_le ih (Nat.le_add_left ..)

/-- The place `v` is on the way to `w`. The place `v'` is the same one in the text that begins at
the offset `o` and is cut off at `w`. -/
structure OnWay (o : Nat) (w : Cursor) (n : Nat) (v v' : Cursor) : Prop where
  way : Way w n v
  rest : v.rest = v'.rest ++ w.rest
  offset : v.offset = v'.offset + o

namespace Lex.Turns

variable {k : Kind} {p : List Char} {n m : Nat}

theorem eq_of_level (h : Turns k p n m)
    (hl : ∀ c ∈ p, k = .sign → isOpening c = false ∧ isClosing c = false) : m = n := by
  cases h with
  | opening h => simp [h] at hl
  | closing h => simp [h] at hl
  | level => rfl

theorem eq_of_opening {c : Char} (h : Turns .sign [c] n m) (hc : isOpening c = true)
    (hc' : isClosing c = false) : m = n + 1 := by
  cases h with
  | opening => rfl
  | closing h => simp [h] at hc'
  | level h => simp [hc] at h

theorem eq_of_closing {c : Char} (h : Turns .sign [c] n m) (hc : isClosing c = true)
    (hc' : isOpening c = false) : n = m + 1 := by
  cases h with
  | opening h => simp [h] at hc'
  | closing => rfl
  | level h => simp [hc] at h

end Lex.Turns

namespace OnWay

variable {o n : Nat} {w v v' : Cursor}
variable {p r : List Char}

theorem length_eq (h : OnWay o w n v v') : v.rest.length = v'.rest.length + w.rest.length := by
  rw [h.rest, length_append]

theorem ne_nil (h : OnWay o w n v v') : v'.rest ≠ [] := fun hn => by
  have := h.way.length_lt
  have := h.length_eq
  simp only [hn, length_nil] at this
  omega

/-- The next piece of the whole text is the next one of the part, and either it is the last one
there or the way goes on behind it. -/
theorem piece (h : OnWay o w n v v') (hn : Lex.next v.rest = some (k, p, r)) :
    ∃ r' m, Lex.next v'.rest = some (k, p, r') ∧ Turns k p n m ∧
      (OnWay o w m ⟨v.offset + utf8Length p, r⟩ ⟨v'.offset + utf8Length p, r'⟩ ∨
        isSolid k p = true ∧ m = 0 ∧ r' = [] ∧ w = ⟨v.offset + utf8Length p, r⟩) := by
  obtain ⟨hway, hrest, hoffset⟩ := h
  -- in both cases the piece ends in front of the cut
  have hclip : ∀ r', r = r' ++ w.rest → Lex.next v'.rest = some (k, p, r') := by
    rintro r' rfl
    have happ := (next_append hn).2
    rw [hrest, ← append_assoc] at happ
    have hv' := append_cancel_right happ
    rw [← hv']
    refine next_clip (v := w.rest) ?_
    rw [← append_assoc, happ, ← hrest, hn]
  cases hway with
  | last hn' ht hs he =>
    obtain ⟨rfl, hx⟩ := Prod.mk.inj (Option.some.inj (hn.symm.trans hn'))
    obtain ⟨rfl, rfl⟩ := Prod.mk.inj hx
    exact ⟨[], 0, hclip [] (by rw [he]; rfl), ht, .inr ⟨hs, rfl, rfl, he⟩⟩
  | piece hn' ht hway =>
    obtain ⟨rfl, hx⟩ := Prod.mk.inj (Option.some.inj (hn.symm.trans hn'))
    obtain ⟨rfl, rfl⟩ := Prod.mk.inj hx
    have hlt := hway.length_lt
    obtain ⟨r', hr'⟩ : ∃ r', r = r' ++ w.rest := by
      have happ := (next_append hn).2
      rw [hrest] at happ
      rcases append_eq_append_iff.1 happ with ⟨x, -, hx⟩ | ⟨x, -, hx⟩
      · exact ⟨x, hx⟩
      · have := congrArg List.length hx
        simp only [length_append] at this hlt
        exact ⟨[], by rw [hx, eq_nil_of_length_eq_zero (l := x) (by omega)]; rfl⟩
    refine ⟨r', _, hclip r' hr', ht, .inl ⟨hway, hr', ?_⟩⟩
    simp only at hoffset ⊢
    omega

theorem go (h : OnWay o w n v v') (hn : Lex.next v.rest = some (k, p, r))
    (hs : isSolid k p = false) :
    ∃ r' m, Lex.next v'.rest = some (k, p, r') ∧ Turns k p n m ∧
      OnWay o w m ⟨v.offset + utf8Length p, r⟩ ⟨v'.offset + utf8Length p, r'⟩ := by
  obtain ⟨r', m, hn', ht, hon | ⟨hs', -⟩⟩ := h.piece hn
  · exact ⟨r', m, hn', ht, hon⟩
  · rw [hs] at hs'
    cases hs'

theorem level (h : OnWay o w n v v') (hn : Lex.next v.rest = some (k, p, r))
    (hs : isSolid k p = false) (hl : ∀ c ∈ p, k = .sign → isOpening c = false ∧ isClosing c =
      false) :
    ∃ r', Lex.next v'.rest = some (k, p, r') ∧
      OnWay o w n ⟨v.offset + utf8Length p, r⟩ ⟨v'.offset + utf8Length p, r'⟩ := by
  obtain ⟨r', m, hn', ht, hon⟩ := h.go hn hs
  rw [ht.eq_of_level hl] at hon
  exact ⟨r', hn', hon⟩

theorem layout (hb : blank = isBlank ∨ blank = isBlankOrNewline) (h : OnWay o w n v v') :
    OnWay o w n ⟨v.offset + utf8Length (layout blank v.rest).1, (layout blank v.rest).2⟩
      ⟨v'.offset + utf8Length (layout blank v'.rest).1, (layout blank v'.rest).2⟩ := by
  have hle : ∀ c, blank c = true → isBlankOrNewline c = true := by
    rcases hb with rfl | rfl
    · intro c hc
      simp [isBlankOrNewline, hc]
    · exact fun _ h => h
  have hslash : blank '/' = false := by rcases hb with rfl | rfl <;> decide
  obtain ⟨i, cs⟩ := v
  obtain ⟨j, cs'⟩ := v'
  simp only
  fun_induction layout blank cs generalizing i j cs' with
  | case1 => exact absurd h.way.length_lt (by simp)
  | case2 c tail hc s rest hl ih =>
    have hn : Lex.next (c :: tail) = some (.blank, [c], tail) :=
      next_of_lexer rfl (one_eq_some.2 ⟨c, hle c hc, rfl, rfl⟩)
    obtain ⟨r', hn', hon⟩ := h.level hn rfl (by simp)
    obtain rfl : c :: r' = cs' := (next_append hn').2
    rw [layout_blank hc]
    have hon' := ih _ _ _ hon
    simpa [hl, utf8Length, Nat.add_assoc] using hon'
  | case3 c tail hc s rest hcm hlt t last hl ih =>
    obtain ⟨r', hn', hon⟩ := h.level (next_of_lexer (k := .comment) rfl hcm) rfl (by simp)
    rw [layout_comment hslash (lexer_of_next hn')]
    have hon' := ih _ _ _ hon
    simpa [hl, utf8Length, Nat.add_assoc] using hon'
  | case4 c tail hc hcm =>
    cases cs' with
    | nil => exact absurd rfl h.ne_nil
    | cons d cs' =>
      obtain ⟨rfl, htail⟩ := List.cons.inj h.rest
      have hcm' : comment (c :: cs') = none :=
        clips_comment.fade _ w.rest (by rw [← h.rest]; exact hcm)
      rw [layout_stop (by simpa using hc) hcm']
      simpa [utf8Length] using h

end OnWay

/-! ### Runs that end alike -/

/-- Both runs fail, or they give the same value up to its positions and end at places in the
relation `R`. -/
inductive Agree {α : Type} [Movable α] (f : Nat → Nat) (R : Cursor → Cursor → Prop) :
    Option (α × Cursor) → Option (α × Cursor) → Prop
  | fail : Agree f R none none
  | value {a : α} {t t' : Cursor} (h : R t t') : Agree f R (some (a, t)) (some (move f a, t'))

namespace Agree

variable {α β : Type} [Movable α] [Movable β] {f : Nat → Nat} {R Q : Cursor → Cursor → Prop}
  {v v' : Cursor} {p p' q q' : Parser α}

theorem mono {x x' : Option (α × Cursor)} (h : Agree f R x x') (hRQ : ∀ t t', R t t' → Q t t') :
    Agree f Q x x' := by
  cases h with
  | fail => exact .fail
  | value h => exact .value (hRQ _ _ h)

theorem eq_none {x' : Option (α × Cursor)} (h : Agree f R none x') : x' = none := by
  cases h
  rfl

theorem eq_some {x' : Option (α × Cursor)} {a : α} {t : Cursor} (h : Agree f R (some (a, t)) x') :
    ∃ t', x' = some (move f a, t') ∧ R t t' := by
  cases h with
  | value h => exact ⟨_, rfl, h⟩

theorem bind {k l : α → Parser β} (h : Agree f R (p v) (p' v'))
    (hk : ∀ a t t', R t t' → Agree f Q (k a t) (l (move f a) t')) :
    Agree f Q ((p >>= k) v) ((p' >>= l) v') := by
  change Agree f Q ((p v).bind fun x => k x.1 x.2) ((p' v').bind fun x => l x.1 x.2)
  generalize p v = x, p' v' = x' at h
  cases h with
  | fail => exact .fail
  | value h => exact hk _ _ _ h

theorem orElse (h : Agree f R (p v) (p' v')) (h' : Agree f R (q v) (q' v')) :
    Agree f R ((p <|> q) v) ((p' <|> q') v') := by
  rw [orElse_apply, orElse_apply]
  generalize p v = x, p' v' = x' at h
  cases h with
  | fail => simpa using h'
  | value h => exact .value h

theorem firstM {γ : Type} {g g' : γ → Parser α} (xs : List γ)
    (h : ∀ x ∈ xs, Agree f R (g x v) (g' x v')) :
    Agree f R (xs.firstM g v) (xs.firstM g' v') := by
  induction xs with
  | nil => exact .fail
  | cons x xs ih => exact orElse (h x (by simp)) (ih fun y hy => h y (by simp [hy]))

theorem lexeme {l : Lexer} {k k' : Nat × List Char → Parser α}
    (hnone : l v.rest = none → l v'.rest = none)
    (hsome : ∀ piece r, l v.rest = some (piece, r) → ∃ r', l v'.rest = some (piece, r') ∧
      Agree f R (k (v.offset, piece) ⟨v.offset + utf8Length piece, r⟩)
        (k' (v'.offset, piece) ⟨v'.offset + utf8Length piece, r'⟩)) :
    Agree f R ((Parser.lexeme l >>= k) v) ((Parser.lexeme l >>= k') v') := by
  cases hl : l v.rest with
  | none =>
    have h : Parser.lexeme l v = none := by simp [Parser.lexeme, hl]
    have h' : Parser.lexeme l v' = none := by simp [Parser.lexeme, hnone hl]
    rw [Parser.bind_apply_none _ h, Parser.bind_apply_none _ h']
    exact .fail
  | some x =>
    obtain ⟨r', hl', hagree⟩ := hsome x.1 x.2 hl
    have h : Parser.lexeme l v =
        some ((v.offset, x.1), ⟨v.offset + utf8Length x.1, x.2⟩) := by simp [Parser.lexeme, hl]
    have h' : Parser.lexeme l v' = some ((v'.offset, x.1), ⟨v'.offset + utf8Length x.1, r'⟩) := by
      simp [Parser.lexeme, hl']
    rw [Parser.bind_apply _ h, Parser.bind_apply _ h']
    exact hagree

end Agree

/-- On the way, and behind all layout. -/
def OnWayTrimmed (o : Nat) (w : Cursor) (n : Nat) (v v' : Cursor) : Prop :=
  OnWay o w n v v' ∧ Trimmed v

/-- The text `sym` leads along the way, from the depth `n` to the depth `m`. -/
def Steps (o : Nat) (w : Cursor) (n m : Nat) (sym : String) : Prop :=
  ∀ v v' r, OnWayTrimmed o w n v v' → v.rest = sym.toList ++ r → ∃ r', v'.rest = sym.toList ++ r' ∧
    OnWay o w m ⟨v.offset + utf8Length sym.toList, r⟩ ⟨v'.offset + utf8Length sym.toList, r'⟩

section Tokens

variable {o n m : Nat} {w v v' : Cursor} {α : Type} [Movable α]
variable {sym : String} {R : Cursor → Cursor → Prop}

theorem steps_symbol (hsym : isSymbol sym = true) : Steps o w n n sym := by
  have hsign : ∀ (c : Char) (v v' : Cursor) (r : List Char), OnWay o w n v v' → v.rest = c :: r →
      (isPlainSign c = true ∨ c = '/') → comment (c :: r) = none →
      ∃ r', v'.rest = c :: r' ∧ OnWay o w n ⟨v.offset + utf8Length [c], r⟩
        ⟨v'.offset + utf8Length [c], r'⟩ := by
    intro c v v' r h hr hc hcm
    obtain ⟨hs, hopen, hclose, hdot⟩ : Lex.isSign c = true ∧ isOpening c = false ∧
        isClosing c = false ∧ c ≠ '.' := by
      rcases hc with hc | rfl
      · obtain ⟨hs, hopen, hclose, -, hdot⟩ := of_isPlainSign hc
        exact ⟨hs, hopen, hclose, hdot⟩
      · decide
    have hn : Lex.next v.rest = some (.sign, [c], r) := by
      rw [hr]
      exact next_sign hs hcm fun h => absurd h hdot
    obtain ⟨r', hn', hon⟩ := h.level hn (by simp [isSolid, hclose]) (by simp [hopen, hclose])
    exact ⟨r', (next_append hn').2.symm, hon⟩
  have hsigns : ∀ (cs : List Char), cs.all isPlainSign = true → ∀ (v v' : Cursor) (r : List Char),
      OnWay o w n v v' → v.rest = cs ++ r → ∃ r', v'.rest = cs ++ r' ∧
        OnWay o w n ⟨v.offset + utf8Length cs, r⟩ ⟨v'.offset + utf8Length cs, r'⟩ := by
    intro cs
    induction cs with
    | nil =>
      rintro - ⟨i, _⟩ ⟨j, cs'⟩ r h rfl
      exact ⟨cs', rfl, by simpa [utf8Length] using h⟩
    | cons c cs ih =>
      intro hall v v' r h hr
      simp only [all_cons, Bool.and_eq_true] at hall
      obtain ⟨r', hv', hon⟩ := hsign c v v' (cs ++ r) h hr (.inl hall.1)
        (comment_eq_none (of_isPlainSign hall.1).2.2.2.1)
      obtain ⟨r'', hr', hon'⟩ := ih hall.2 _ _ r hon rfl
      obtain rfl : r' = cs ++ r'' := hr'
      exact ⟨r'', hv', by simpa [utf8Length, Nat.add_assoc] using hon'⟩
  rintro v v' r ⟨h, hv⟩ hr
  unfold isSymbol at hsym
  split at hsym
  case h_1 => cases hsym
  case h_2 c cs he =>
    simp only [Bool.and_eq_true, Bool.or_eq_true, beq_iff_eq] at hsym
    rw [he] at hr ⊢
    have hcm := hv.comment_eq_none
    rw [hr] at hcm
    obtain ⟨r', hv', hon⟩ := hsign c v v' (cs ++ r) h hr hsym.1 hcm
    obtain ⟨r'', hr', hon'⟩ := hsigns cs hsym.2 _ _ r hon rfl
    obtain rfl : r' = cs ++ r'' := hr'
    exact ⟨r'', hv', by simpa [utf8Length, Nat.add_assoc] using hon'⟩

theorem steps_opening {sym : String} (hsym : sym ∈ ["(", "[", "\x7b"]) :
    Steps o w n (n + 1) sym := by
  obtain ⟨c, hc, hopen, hclose⟩ := isBracket_of_opening hsym
  rintro v v' r ⟨h, -⟩ hr
  rw [hc.text] at hr ⊢
  have hn : Lex.next v.rest = some (.sign, [c], r) := by
    rw [hr]
    exact hc.next r
  obtain ⟨r', m, hn', ht, hon⟩ := h.go hn (by simp [isSolid, hclose])
  rw [ht.eq_of_opening hopen hclose] at hon
  exact ⟨r', (next_append hn').2.symm, hon⟩

theorem steps_dots : Steps o w n n "..." := by
  rintro v v' r ⟨h, -⟩ hr
  have hn : Lex.next v.rest = some (.dots, "...".toList, r) := by rw [hr, next_dots]
  obtain ⟨r', hn', hon⟩ := h.level hn rfl (by simp)
  exact ⟨r', (next_append hn').2.symm, hon⟩

theorem agree_text (hsym : Steps o w n m sym) (h : OnWayTrimmed o w n v v')
    {k k' : Nat × List Char → Parser α}
    (hk : ∀ u u', OnWay o w m u u' → Agree (· - o) R (k (v.offset, sym.toList) u)
      (k' (v'.offset, sym.toList) u')) :
    Agree (· - o) R ((lexeme (Lexer.text sym) >>= k) v) ((lexeme (Lexer.text sym) >>= k') v') := by
  refine .lexeme (fun hn => (Clips.text sym).fade _ w.rest (by rw [← h.1.rest]; exact hn))
    fun piece r hs => ?_
  obtain ⟨hr, rfl⟩ := text_eq_some.1 hs
  obtain ⟨r', hr', hon⟩ := hsym v v' r h hr
  exact ⟨r', text_eq_some.2 ⟨hr', rfl⟩, hk _ _ hon⟩

theorem agree_skip (hb : blank = isBlank ∨ blank = isBlankOrNewline) (h : OnWay o w n v v')
    {k l : Unit → Parser α} (hk : ∀ u u', OnWayTrimmed o w n u u' →
      Agree (· - o) R (k () u) (l () u')) :
    Agree (· - o) R ((skip blank >>= k) v) ((skip blank >>= l) v') :=
  hk _ _ ⟨h.layout hb, Skips.trimmed ⟨blank, hb, rfl⟩⟩

theorem agree_notNext (chars : String) (h : OnWay o w n v v') {k k' : Unit → Parser α}
    (hk : Agree (· - o) R (k () v) (k' () v')) :
    Agree (· - o) R ((notNext chars >>= k) v) ((notNext chars >>= k') v') := by
  have hhead : v.rest.head? = v'.rest.head? := by
    obtain ⟨c, cs, hc⟩ := exists_cons_of_ne_nil h.ne_nil
    rw [h.rest, hc]
    rfl
  by_cases hn : (v'.rest.head?.any (chars.toList.contains ·)) = true
  · have h₁ : notNext chars v = none := by simp only [notNext, hhead, hn, if_true]
    have h₂ : notNext chars v' = none := by simp only [notNext, hn, if_true]
    rw [bind_apply_none _ h₁, bind_apply_none _ h₂]
    exact .fail
  · have h₁ : notNext chars v =
        some ((), v) := by simp only [notNext, hhead, hn, if_false, Bool.false_eq_true]
    have h₂ : notNext chars v' =
        some ((), v') := by simp only [notNext, hn, if_false, Bool.false_eq_true]
    rw [bind_apply _ h₁, bind_apply _ h₂]
    exact hk

theorem agree_pure {R : Cursor → Cursor → Prop} {a a' : α} (h : R v v') (ha : a' = move (· - o) a) :
    Agree (· - o) R ((pure a : Parser α) v) ((pure a' : Parser α) v') := by
  subst ha
  exact .value h

theorem OnWay.pos_eq (h : OnWay o w n v v') :
    (some v'.offset : Pos) = move (· - o) (some v.offset : Pos) := by
  change _ = some (v.offset - o)
  rw [h.offset, Nat.add_sub_cancel]

theorem agree_token (hsym : Steps o w n m sym) (h : OnWayTrimmed o w n v v') :
    Agree (· - o) (OnWayTrimmed o w m) (token sym v) (token sym v') :=
  agree_text hsym h fun _ _ hu => agree_skip (.inl rfl) hu fun _ _ ht => agree_pure ht h.1.pos_eq

theorem agree_tokenNl (hsym : Steps o w n m sym) (h : OnWayTrimmed o w n v v') :
    Agree (· - o) (OnWayTrimmed o w m) (tokenNl sym v) (tokenNl sym v') :=
  agree_text hsym h fun _ _ hu => agree_skip (.inr rfl) hu fun _ _ ht => agree_pure ht h.1.pos_eq

theorem agree_operatorOf (level : List (BinaryOp × String)) (h : OnWayTrimmed o w n v v') :
    Agree (· - o) (OnWayTrimmed o w n) (operatorOf level v) (operatorOf level v') := by
  refine .firstM level fun x _ =>
    agree_text (steps_symbol (by cases x.1 <;> decide)) h fun u u' hu =>
    agree_notNext _ hu (agree_skip (.inr rfl) hu fun _ _ ht => agree_pure ht ?_)
  exact congrArg (·, x.1) h.1.pos_eq

theorem agree_labelColon (h : OnWayTrimmed o w n v v') :
    Agree (· - o) (OnWayTrimmed o w n) (labelColon v) (labelColon v') :=
  agree_text (steps_symbol (by decide)) h fun _ _ hu =>
    agree_notNext _ hu (agree_skip (.inr rfl) hu fun _ _ ht => agree_pure ht h.1.pos_eq)

theorem agree_tokenOf {spelling : α → String} {choices : List α}
    (hb : blank = isBlank ∨ blank = isBlankOrNewline)
    (hmove : ∀ (f : Nat → Nat) (a : α), move f a = a)
    (hsym : ∀ a ∈ choices, isSymbol (spelling a) = true) (h : OnWayTrimmed o w n v v') :
    Agree (· - o) (OnWayTrimmed o w n) ((tokenOf spelling choices <* skip blank) v)
      ((tokenOf spelling choices <* skip blank) v') := by
  have htoken :
      Agree (· - o) (OnWay o w n) (tokenOf spelling choices v) (tokenOf spelling choices v') := by
    refine .firstM choices fun a ha => agree_text (steps_symbol (hsym a ha)) h fun _ _ hu =>
      agree_pure hu ?_
    exact Prod.ext h.1.pos_eq (hmove _ a).symm
  exact Agree.bind (k := fun a => skip blank >>= fun _ => pure a)
    (l := fun a => skip blank >>= fun _ => pure a) htoken
    fun a u u' hu => agree_skip hb hu fun _ _ ht => agree_pure ht rfl

/-- A word, a number or a quoted literal. Behind it the way goes on, or it was the last piece. -/
theorem agree_lexeme (hkind : k.isPlain = true)
    (hfade : ∀ cs rest, k.lexer (cs ++ rest) = none → k.lexer cs = none) (h : OnWay o w n v v')
    {f f' : Nat × List Char → Parser α}
    (hk : ∀ piece u u', OnWay o w n u u' → Agree (· - o) R (f (v.offset, piece) u)
      (f' (v'.offset, piece) u'))
    (hlast : ∀ piece u', isSolid k piece = true → n = 0 → u'.rest = [] →
      Agree (· - o) R (f (v.offset, piece) w) (f' (v'.offset, piece) u')) :
    Agree (· - o) R ((lexeme k.lexer >>= f) v) ((lexeme k.lexer >>= f') v') := by
  refine .lexeme (fun hn => hfade _ w.rest (by rw [← h.rest]; exact hn)) fun piece r hs => ?_
  obtain ⟨r', m, hn', ht, hon⟩ := h.piece (next_of_lexer hkind hs)
  have hm : m = n := by
    refine ht.eq_of_level fun _ _ he => ?_
    subst he
    cases hkind
  refine ⟨r', lexer_of_next hn', ?_⟩
  rcases hon with hon | ⟨hsolid, hzero, rfl, hw⟩
  · rw [hm] at hon
    exact hk piece _ _ hon
  · rw [← hw]
    exact hlast piece _ hsolid (hm.symm.trans hzero) rfl

theorem fade_word (cs rest : List Char) (h : word (cs ++ rest) = none) : word cs = none :=
  (Clips.append (.one _) (.run _) (.inl (run_ne_none _))).fade cs rest h

theorem Lex.Rereads.fade {l : Lexer} (h : Rereads l fun _ => false) (ht : Takes l)
    (cs rest : List Char) (hn : l (cs ++ rest) = none) : l cs = none := by
  cases hl : l cs with
  | none => rfl
  | some x =>
    obtain ⟨piece, r⟩ := x
    have hlong := h cs piece r hl (r ++ rest) fun _ _ => rfl
    rw [← append_assoc, ht _ _ _ hl, hn] at hlong
    cases hlong

theorem agree_keyword {word : String} (hword : word ∈ keywords) (h : OnWayTrimmed o w n v v') :
    Agree (· - o) (OnWayTrimmed o w n) (keyword word v) (keyword word v') := by
  refine agree_lexeme (k := .word) rfl fade_word h.1 (fun piece u u' hu => ?_) fun piece u' hsolid _
    _ => ?_
  · by_cases hp : String.ofList piece = word
    · simp only [guard_eq_pure hp, pure_bind]
      exact agree_skip (.inl rfl) hu fun _ _ ht => agree_pure ht h.1.pos_eq
    · simp only [guard_eq_failure hp]
      exact .fail
  · -- the last piece is no keyword
    have hp : String.ofList piece ≠ word := by
      rintro rfl
      simp [isSolid, hword] at hsolid
    simp only [guard_eq_failure hp]
    exact .fail

theorem agree_chanDir (h : OnWayTrimmed o w n v v') :
    Agree (· - o) (OnWayTrimmed o w n) (chanDir v) (chanDir v') := by
  have hchan : ∀ {v v'}, OnWayTrimmed o w n v v' →
      Agree (· - o) (OnWayTrimmed o w n) (keyword "chan" v) (keyword "chan" v') :=
        agree_keyword (by decide)
  have harrow : ∀ {v v'}, OnWayTrimmed o w n v v' →
      Agree (· - o) (OnWayTrimmed o w n) (token "<-" v) (token "<-" v') :=
        agree_token (steps_symbol (by decide))
  have hseq : ∀ {p q : Parser Pos}, Agree (· - o) (OnWayTrimmed o w n) (p v) (p v') →
      (∀ {v v'}, OnWayTrimmed o w n v v' → Agree (· - o) (OnWayTrimmed o w n) (q v) (q v')) →
      Agree (· - o) (OnWayTrimmed o w n) ((p <* q) v) ((p <* q) v') := fun {p q} hp hq =>
    Agree.bind (k := fun a => q >>= fun _ => pure a) (l := fun a => q >>= fun _ => pure a) hp
      fun _ _ _ hu => (hq hu).bind fun _ _ _ ht => agree_pure ht rfl
  exact .orElse ((hseq (hchan h) harrow).bind fun _ _ _ ht => agree_pure ht rfl)
    (.orElse ((hchan h).bind fun _ _ _ ht => agree_pure ht rfl)
      ((hseq (harrow h) hchan).bind fun _ _ _ ht => agree_pure ht rfl))

theorem agree_separator (h : OnWayTrimmed o w n v v') :
    Agree (· - o) (OnWayTrimmed o w n) (separator v) (separator v') := by
  refine agree_skip (.inl rfl) h.1 fun u u' hu => .lexeme
    (fun hn => (Clips.one _).fade _ w.rest (by rw [← hu.1.rest]; exact hn)) fun piece r hs => ?_
  obtain ⟨c, hc, hr, rfl⟩ := one_eq_some.1 hs
  have hn : ∃ k, Lex.next u.rest = some (k, [c], r) ∧ isSolid k [c] = false ∧
      ∀ d ∈ [c], k = .sign → isOpening d = false ∧ isClosing d = false := by
    rw [hr]
    have hc' : c = ';' ∨ c = '\n' := by simpa using hc
    rcases hc' with rfl | rfl
    · exact ⟨.sign, next_sign (by decide) (comment_eq_none (by decide)) fun h =>
        absurd h (by decide), by decide, by simp; decide⟩
    · have hblank : Lexer.one isBlankOrNewline ('\n' :: r) = some (['\n'], r) :=
        one_eq_some.2 ⟨'\n', by decide, rfl, rfl⟩
      exact ⟨.blank, next_of_lexer rfl hblank, rfl, by simp⟩
  obtain ⟨k, hn, hsolid, hlevel⟩ := hn
  obtain ⟨r', hn', hon⟩ := hu.1.level hn hsolid hlevel
  exact ⟨r', one_eq_some.2 ⟨c, hc, (next_append hn').2.symm, rfl⟩,
    agree_skip (α := Unit) (k := pure) (l := pure) (.inr rfl) hon fun _ _ ht => agree_pure ht rfl⟩

end Tokens

/-! ### The lockstep -/

/-- The text from the offset `o` on, cut off at `w`. Behind `w` there are blanks up to `t`. -/
def cut (o : Nat) (w t : Cursor) (hw : blanks w = some ((), t)) : Lockstep where
  shift := (· - o)
  At n v v' := OnWay o w n v v' ∨ n = 0 ∧ v = t ∧ v'.rest = []
  left := t.rest.length
  shorter := by
    have hle : t.rest.length ≤ w.rest.length := Skips.length_le ⟨_, .inl rfl, hw⟩
    rintro n m u u' v v' (hu | ⟨-, rfl, hu⟩) (hv | ⟨-, rfl, hv⟩)
    · rw [hu.length_eq, hv.length_eq]
      omega
    · have := hu.way.length_lt
      have := hu.length_eq
      rw [hv, List.length_nil]
      omega
    · have := hv.way.length_lt
      rw [hu, List.length_nil]
      omega
    · rw [hu, hv, List.length_nil]
      omega

section Lockstep

variable {o d n m bound : Nat} {w t : Cursor} {hw : blanks w = some ((), t)} {α : Type} [Movable α]
  {p : Parser α}

theorem Agree.outcome {x x' : Option (α × Cursor)} {tight : Bool} {u' : Cursor}
    (h : Agree (· - o) ((cut o w t hw).At (d + m)) x x') :
    (cut o w t hw).Outcome d m tight u' x x' := by
  cases h with
  | fail => exact rfl
  | value h => exact .inl ⟨_, rfl, h⟩

omit [Movable α] in
theorem Tidy.idle_nil (h : Tidy 1 p) : Idle p [] :=
  fun o => Option.eq_none_iff_forall_ne_some.2 fun x hx => by
  have hle := (h ⟨o, []⟩ x.1 x.2 (trim_nil _) hx).2
  simp at hle

/-- A token runs in step: on the way it does the same in both texts, and at the end of the second
text it fails there. -/
theorem tracks_of_agree (htidy : Tidy 1 p)
    (h : ∀ v v', OnWayTrimmed o w (d + n) v v' → Agree (· - o) ((cut o w t hw).At (d + m)) (p v)
      (p v')) :
    Tracks (cut o w t hw) d 1 bound n m true p p where
  tidy hs ha := htidy _ _ _ hs ha
  runs {u u'} hu htrim _ := by
    rcases hu with hu | ⟨hz, rfl, hu'⟩
    · exact (h u u' ⟨hu, htrim⟩).outcome
    · have hn : p u' = none := by
        rw [show u' = ⟨u'.offset, []⟩ by rw [← hu']]
        exact htidy.idle_nil _
      cases hp : p u with
      | none => exact hn
      | some x =>
        have hle := (htidy u x.1 x.2 htrim hp).2
        exact .inr ⟨⟨by omega, hle⟩, fun _ => ⟨hu', hn⟩⟩

theorem tracks_of_trimmed (htidy : Tidy 1 p)
    (h : ∀ v v', OnWayTrimmed o w (d + n) v v' → Agree (· - o) (OnWayTrimmed o w (d + m)) (p v)
      (p v')) :
    Tracks (cut o w t hw) d 1 bound n m true p p :=
  tracks_of_agree htidy fun v v' hv => (h v v' hv).mono fun _ _ ht => .inl ht.1

theorem agree_blanks_last {u' : Cursor} {a a' : α} (hu' : u'.rest = []) (ha : a' = move (· - o) a) :
    Agree (· - o) ((cut o w t hw).At 0) ((blanks >>= fun _ => pure a) w)
      ((blanks >>= fun _ => pure a') u') := by
  have hskip : blanks u' = some ((), u') := by
    change some ((), (⟨_, _⟩ : Cursor)) = _
    rw [hu', show layout isBlank [] = ([], []) by simp [layout],
      show u' = ⟨u'.offset, []⟩ by rw [← hu']]
    rfl
  rw [bind_apply _ hw, bind_apply _ hskip]
  exact agree_pure (.inr ⟨rfl, rfl, hu'⟩) ha

theorem tracks_close {sym : String} (hsym : sym ∈ [")", "]", "\x7d"]) :
    Tracks (cut o w t hw) d 1 bound 1 0 true (token sym) (token sym) := by
  obtain ⟨c, hc, hclose, hopen⟩ := isBracket_of_closing hsym
  refine tracks_of_agree (tidy_token (by simp [hc.text])) fun v v' ⟨hv, _⟩ => .lexeme
    (fun hn => (Clips.text sym).fade _ w.rest (by rw [← hv.rest]; exact hn)) fun piece r hs => ?_
  obtain ⟨hr, rfl⟩ := text_eq_some.1 hs
  rw [hc.text] at hr ⊢
  have hn : Lex.next v.rest = some (.sign, [c], r) := by
    rw [hr]
    exact hc.next r
  obtain ⟨r', m, hn', ht, hon⟩ := hv.piece hn
  have hm := ht.eq_of_closing hclose hopen
  refine ⟨r', text_eq_some.2 ⟨by rw [hc.text]; exact (next_append hn').2.symm, hc.text.symm⟩, ?_⟩
  obtain rfl : m = d := by omega
  rcases hon with hon | ⟨-, rfl, rfl, hlast⟩
  · exact agree_skip (.inl rfl) hon fun _ _ ht => agree_pure (.inl ht.1) hv.pos_eq
  · rw [← hlast]
    exact agree_blanks_last rfl hv.pos_eq

theorem tracks_ident : Tracks (cut o w t hw) d 1 bound 0 0 true ident ident := by
  refine tracks_of_agree tidy_ident fun v v' ⟨hv, _⟩ =>
    agree_lexeme (k := .word) rfl fade_word hv (fun piece u u' hu => ?_) fun piece u' hsolid hzero
      hu' => ?_
  all_goals
    by_cases hp : String.ofList piece ∉ keywords
    · simp only [guard_eq_pure hp, pure_bind]
      have hid : (⟨some v'.offset, String.ofList piece, none⟩ : Ident) =
          move (· - o) (⟨some v.offset, String.ofList piece, none⟩ : Ident) :=
        congrArg (Ident.mk · _ _) hv.pos_eq
      first
        | exact agree_skip (.inl rfl) hu fun _ _ ht => agree_pure (.inl ht.1) hid
        | (simp only [hzero]; exact agree_blanks_last hu' hid)
    · simp only [guard_eq_failure hp]
      exact .fail

theorem tracks_literal : Tracks (cut o w t hw) d 1 bound 0 0 true literal literal := by
  refine tracks_of_agree tidy_literal fun v v' ⟨hv, _⟩ => ?_
  have hlit : ∀ (k : Kind) (kind : List Char → LitKind), k.isPlain = true →
      (∀ cs rest, k.lexer (cs ++ rest) = none → k.lexer cs = none) →
      Agree (· - o) ((cut o w t hw).At (d + 0)) (literalOf kind k.lexer v)
        (literalOf kind k.lexer v') := by
    intro k kind hk hfade
    have hmove : ∀ piece, (⟨some v'.offset, kind piece, String.ofList piece⟩ : Literal) =
        move (· - o) (⟨some v.offset, kind piece, String.ofList piece⟩ : Literal) :=
      fun piece => congrArg (Literal.mk · _ _) hv.pos_eq
    refine agree_lexeme hk hfade hv (fun piece u u' hu => ?_) fun piece u' _ hzero hu' => ?_
    · exact agree_skip (.inl rfl) hu fun _ _ ht => agree_pure (.inl ht.1) (hmove piece)
    · simp only [hzero]
      exact agree_blanks_last hu' (hmove piece)
  exact .orElse (hlit .number _ rfl clips_number.fade)
    (.orElse (hlit .string _ rfl ((rereads_string _).fade (Kind.takes .string)))
      (hlit .char _ rfl ((rereads_char _).fade (Kind.takes .char))))

/-- A dot is a piece by itself in both texts or in none. Where it is none, both runs fail. -/
theorem tracks_dot {q : Nat} {c : Bool} {dot : Parser Pos} {k j : Pos → Parser α}
    (hdot : dot = token "." ∨ dot = tokenNl ".")
    (hk : ∀ a, Tracks (cut o w t hw) d q bound 0 m c (k a) (j (move (· - o) a)))
    (hks : ∀ a s x t, k a s = some (x, t) → Stops (fun c => isDigit c || c == '.') s.rest)
    (hjs : ∀ a s x t, j a s = some (x, t) → Stops (fun c => isDigit c || c == '.') s.rest) :
    Tracks (cut o w t hw) d 1 (bound + 1) 0 m false (dot >>= k) (dot >>= j) := by
  have hspells : ∀ s a t, dot s = some (a, t) → Spells "." s t := by
    rcases hdot with rfl | rfl
    · exact fun _ _ _ h => (token_eq_some h).2
    · exact fun _ _ _ h => (tokenNl_eq_some h).2
  have htidy : Tidy 1 dot := .of_spells (w := fun _ => ".") (fun _ => by decide) hspells
  have htakes : ∀ {s x t}, Trimmed s → (dot >>= k) s = some (x, t) → Trimmed t ∧
      t.rest.length + 1 ≤ s.rest.length := by
    intro s x t hs hx
    obtain ⟨a, u, ha, hx⟩ := bind_eq_some hx
    obtain ⟨hu, hle⟩ := htidy s a u hs ha
    obtain ⟨ht, hle'⟩ := (hk a).tidy hu hx
    exact ⟨ht, by omega⟩
  refine ⟨htakes, fun {u u'} hu htrim hlt => ?_⟩
  rcases hu with hu | ⟨hz, rfl, hu'⟩
  · by_cases hn : ∃ r, Lex.next u.rest = some (.sign, ['.'], r)
    · obtain ⟨r, hn⟩ := hn
      obtain ⟨r', hn', hon⟩ := hu.level hn (by decide) (by simp; decide)
      have hagree : ∀ {blank : Char → Bool}, (blank = isBlank ∨ blank = isBlankOrNewline) →
          Agree (· - o) (OnWayTrimmed o w d)
          ((lexeme (Lexer.text ".") >>= fun x => skip blank >>= fun _ => pure (some x.1)) u)
            ((lexeme (Lexer.text ".") >>= fun x => skip blank >>= fun _ => pure (some x.1)) u') :=
              fun hb => by
        refine .lexeme (fun hnone => (Clips.text _).fade _ w.rest (by rw [← hu.rest]; exact hnone))
          fun piece r₁ hs => ?_
        obtain ⟨hr, rfl⟩ := text_eq_some.1 hs
        obtain rfl : r₁ = r := (append_cancel_left ((next_append hn).2.trans hr)).symm
        exact ⟨r', text_eq_some.2 ⟨(next_append hn').2.symm, rfl⟩,
          agree_skip hb hon fun _ _ ht => agree_pure ht hu.pos_eq⟩
      have hdots : Agree (· - o) (OnWayTrimmed o w d) (dot u) (dot u') := by
        rcases hdot with rfl | rfl
        · exact hagree (.inl rfl)
        · exact hagree (.inr rfl)
      cases hd : dot u with
      | none =>
        rw [hd] at hdots
        rw [bind_apply_none _ hd]
        exact bind_apply_none _ hdots.eq_none
      | some x =>
        obtain ⟨a, v⟩ := x
        rw [hd] at hdots
        obtain ⟨v', hd', hv⟩ := hdots.eq_some
        rw [bind_apply _ hd, bind_apply _ hd']
        have hat₀ : (cut o w t hw).At (d + 0) u u' := .inl hu
        have hat : (cut o w t hw).At (d + 0) v v' := .inl hv.1
        exact Tracks.Outcome.loose ((hk a).runs hat hv.2
          (Tracks.step_lt hat₀ hat (htidy u a v htrim hd).2 hlt))
    · have hfirst : (dot >>= k) u = none := Option.eq_none_iff_forall_ne_some.2 fun x hx => hn <| by
        obtain ⟨a, v, ha, hx⟩ := bind_eq_some hx
        obtain ⟨r, -, hr, -⟩ := (hspells u a v ha).next_dot (hks a v _ _ hx)
        exact ⟨r, hr⟩
      have hsecond : (dot >>= j) u' = none :=
        Option.eq_none_iff_forall_ne_some.2 fun x hx => hn <| by
        obtain ⟨a, v, ha, hx⟩ := bind_eq_some hx
        obtain ⟨r, -, hr, -⟩ := (hspells u' a v ha).next_dot (hjs a v _ _ hx)
        obtain ⟨kind, piece, r₁, hnext⟩ : ∃ kind piece r,
            Lex.next u.rest = some (kind, piece, r) := by
          cases hu.way with
          | last h => exact ⟨_, _, _, h⟩
          | piece h => exact ⟨_, _, _, h⟩
        obtain ⟨r', -, hn', -⟩ := hu.piece hnext
        obtain ⟨rfl, he⟩ := Prod.mk.inj (Option.some.inj (hr.symm.trans hn'))
        obtain ⟨rfl, -⟩ := Prod.mk.inj he
        exact ⟨r₁, hnext⟩
      rw [hfirst]
      exact hsecond
  · have hn : (dot >>= j) u' = none := by
      rw [show u' = ⟨u'.offset, []⟩ by rw [← hu']]
      exact bind_apply_none _ (htidy.idle_nil _)
    cases hx : (dot >>= k) u with
    | none => exact hn
    | some x =>
      have hle := (htakes htrim hx).2
      exact .inr ⟨⟨by omega, hle⟩, by simp⟩

theorem tracks_blanksNl : Tracks (cut o w t hw) (d + 1) 0 bound 0 0 true blanksNl blanksNl where
  tidy hs ha := tidy_skip (.inr rfl) _ _ _ hs ha
  runs {u u'} hu _ _ := by
    rcases hu with hu | ⟨hz, -⟩
    · exact (agree_skip (α := Unit) (k := pure) (l := pure) (.inr rfl) hu fun _ _ ht =>
        agree_pure (.inl ht.1) rfl).outcome
    · omega

/-- Tokens run in step up to the cut. -/
theorem cut_lawful (hw : blanks w = some ((), t)) : (cut o w t hw).Lawful where
  token h := tracks_of_trimmed (tidy_token (ne_nil_of_isSymbol h)) fun _ _ hv =>
    agree_token (steps_symbol h) hv
  tokenNl h := tracks_of_trimmed (tidy_tokenNl (ne_nil_of_isSymbol h)) fun _ _ hv =>
    agree_tokenNl (steps_symbol h) hv
  opens h := tracks_of_trimmed (tidy_token (by rintro he; simp_all)) fun _ _ hv =>
    agree_token (steps_opening h) hv
  opensNl h := tracks_of_trimmed (tidy_tokenNl (by rintro he; simp_all)) fun _ _ hv =>
    agree_tokenNl (steps_opening h) hv
  closes h := tracks_close h
  keyword h := tracks_of_trimmed (tidy_keyword _) fun _ _ hv => agree_keyword h hv
  ident := tracks_ident
  literal := tracks_literal
  chanDir := tracks_of_trimmed tidy_chanDir fun _ _ hv => agree_chanDir hv
  operator level :=
    tracks_of_trimmed (tidy_operatorOf level) fun _ _ hv => agree_operatorOf level hv
  lead := tracks_of_trimmed tidy_lead fun _ _ hv =>
    agree_tokenOf (.inl rfl) (fun _ _ => rfl) (by decide) hv
  assignOp ops := tracks_of_trimmed (tidy_assignOp ops (.inl rfl)) fun _ _ hv =>
    agree_tokenOf (.inl rfl) (fun _ _ => rfl) (fun op _ => by cases op <;> decide) hv
  assignOpNl ops := tracks_of_trimmed (tidy_assignOp ops (.inr rfl)) fun _ _ hv =>
    agree_tokenOf (.inr rfl) (fun _ _ => rfl) (fun op _ => by cases op <;> decide) hv
  step steps := tracks_of_trimmed (tidy_step steps) fun _ _ hv =>
    agree_tokenOf (.inl rfl) (fun _ _ => rfl) (fun step _ => by cases step <;> decide) hv
  labelColon := tracks_of_trimmed tidy_labelColon fun _ _ hv => agree_labelColon hv
  dots := tracks_of_trimmed (tidy_token (by decide)) fun _ _ hv => agree_token steps_dots hv
  dotsNl := tracks_of_trimmed (tidy_tokenNl (by decide)) fun _ _ hv => agree_tokenNl steps_dots hv
  blanksNl := tracks_blanksNl
  separator := tracks_of_trimmed tidy_separator fun _ _ hv => agree_separator hv
  dot hdot hk hks hjs := tracks_dot hdot hk hks hjs

end Lockstep

end GoFun
