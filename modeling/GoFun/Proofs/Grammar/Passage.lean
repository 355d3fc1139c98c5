import GoFun.Proofs.Grammar.Trail
import GoFun.Proofs.Tree.Token

/-!
# The tokens that parsers take

A parser that succeeds has gone from one token to the next, over layout, comments, commas and
semicolons. `Passes s ts t` says that the tokens `ts` are met in this order on the way from `s` to
`t`. They are the tokens of the tree that is read, in their order, with one exception: a name in a
list of parameters may wait for its type, and a type without a name overtakes it then. `Crosses`
keeps the leaves of the same way beside them.
-/
namespace GoFun

open Parser Lex

variable {s t u : Cursor} {ts us ts' : List Token} {x : Token} {i j : Nat} {ls : List Leaf}
variable {us' before : List Token} {r : List Char}

namespace Lex

/-- What can stand between two tokens, comments aside. -/
def isGap (c : Char) : Bool := isBlankOrNewline c || c == ',' || c == ';'

def isMark (c : Char) : Bool := "+-*%&|^<>=!:.()[]\x7b\x7d".toList.contains c

/-- Operators, brackets, colons and dots. -/
def isOperator (w : String) : Bool := (w != "" && w.toList.all isMark) || w == "/" || w == "/="

end Lex

/-! ### Tokens in a text -/

/-- The token is what is read from its text and the characters behind it. -/
inductive Token.Stands : Token → List Char → Prop
  | name {place : Option Pos} {w : String} {r : List Char}
      (h : Lex.word (w.toList ++ r) = some (w.toList, r))
      (hk : w ∉ Lex.keywords) : Stands ⟨place, w, .name⟩ r
  | literal {place : Option Pos} {w : String} {r : List Char} {k : Lex.Kind}
      (hk : k ∈ [Lex.Kind.number, .string, .char])
      (h : k.lexer (w.toList ++ r) = some (w.toList, r)) : Stands ⟨place, w, .literal⟩ r
  | word {place : Option Pos} {w : String} {r : List Char}
      (h : Lex.word (w.toList ++ r) = some (w.toList, r)) :
      Stands ⟨place, w, .fixed⟩ r
  | sign {place : Option Pos} {w : String} {r : List Char} (hw : Lex.isOperator w = true)
      (hc : Lex.comment (w.toList ++ r) = none) : Stands ⟨place, w, .fixed⟩ r

inductive Passes : Cursor → List Token → Cursor → Prop
  | done (s : Cursor) : Passes s [] s
  | gap {o : Nat} {c : Char} {cs : List Char} {ts : List Token} {t : Cursor}
      (hc : Lex.isGap c = true)
      (h : Passes ⟨o + utf8Length [c], cs⟩ ts t) : Passes ⟨o, c :: cs⟩ ts t
  | comment {o : Nat} {cs p r : List Char} {ts : List Token} {t : Cursor}
      (hc : Lex.comment cs = some (p, r))
      (h : Passes ⟨o + utf8Length p, r⟩ ts t) : Passes ⟨o, cs⟩ ts t
  | token {o : Nat} {x : Token} {r : List Char} {ts : List Token} {t : Cursor}
      (hp : ∀ p ∈ x.place, p = some o)
      (hx : x.Stands r) (h : Passes ⟨o + utf8Length x.text.toList, r⟩ ts t) : Passes
      ⟨o, x.text.toList ++ r⟩ (x :: ts) t

theorem Passes.trans (h : Passes s ts t) (h' : Passes t us u) : Passes s (ts ++ us) u := by
  induction h with
  | done => exact h'
  | gap hc _ ih => exact .gap hc (ih h')
  | comment hc _ ih => exact .comment hc (ih h')
  | token hp hx _ ih => exact .token hp hx (ih h')

theorem Skips.passes (h : Skips u t) : Passes u [] t := by
  obtain ⟨blank, hb, hu⟩ := h
  obtain ⟨-, rfl⟩ := result_inj hu
  have hle : ∀ c, blank c = true → isGap c = true := by
    rcases hb with rfl | rfl
    · intro c hc
      simp [isGap, isBlankOrNewline, hc]
    · intro c hc
      simp [isGap, hc]
  obtain ⟨o, cs⟩ := u
  clear hu
  simp only
  fun_induction layout blank cs generalizing o with
  | case1 => simpa [utf8Length] using Passes.done _
  | case2 c tail hc s rest hl ih =>
    refine .gap (hle c hc) ?_
    simpa [hl, utf8Length, Nat.add_assoc] using ih (o + utf8Length [c])
  | case3 c tail hc s rest hcm hlt t last hl ih =>
    refine .comment hcm ?_
    simpa [hl, utf8Length, Nat.add_assoc] using ih (o + utf8Length s)
  | case4 c tail hc hcm => simpa [utf8Length] using Passes.done _

theorem Passes.stands (h : Passes s ts t) : ∀ x ∈ ts, x.place ≠ some none ∧ ∃ r, x.Stands r := by
  induction h with
  | done => simp
  | gap _ _ ih | comment _ _ ih => exact ih
  | token hp hx _ ih =>
    refine List.forall_mem_cons.2 ⟨⟨fun hn => ?_, _, hx⟩, ih⟩
    exact absurd (hp none hn) (by simp)

theorem Passes.loosen {place : Option Pos} {w : String} {kind : Token.Kind}
    (h : Passes s (⟨place, w, kind⟩ :: ts) t) :
    Passes s (⟨none, w, kind⟩ :: ts) t := by
  generalize hl : (⟨place, w, kind⟩ :: ts : List Token) = l at h
  induction h with
  | done => cases hl
  | gap hc _ ih => exact .gap hc (ih hl)
  | comment hc _ ih => exact .comment hc (ih hl)
  | token hp hx h =>
    obtain ⟨rfl, rfl⟩ := List.cons.inj hl
    refine .token (x := ⟨none, w, kind⟩) (by simp) ?_ h
    cases hx with
    | name hw hk => exact .name hw hk
    | literal hk hw => exact .literal hk hw
    | word hw => exact .word hw
    | sign hw hc => exact .sign hw hc

/-! ### The order of tokens -/

/-- What a tree may list where the text goes on with a name and then with `after`, when it is not
the name: a sign, a keyword, or a name with a sign behind it. -/
inductive Overtakes (after : List Token) : List Token → Prop
  | sign {x : Token} {w : String} {ts : List Token} (hx : x.text = w)
      (hw : Lex.isOperator w = true) :
      Overtakes after (x :: ts)
  | chan {x : Token} {ts : List Token} (hx : x.text = "chan") : Overtakes after (x :: ts)
  | keyword {x y : Token} {v w : String} {ts : List Token} (hx : x.text = v) (hv : v ∈ Lex.keywords)
      (hy : y.text = w) (hw : Lex.isOperator w = true) : Overtakes after (x :: y :: ts)
  | name {x y z : Token} {w : String} {ts us : List Token} (hx : x.kind = .name) (hy : y.text = w)
      (hw : Lex.isOperator w = true) (hz : z.kind = .name) (ha : after = z :: us) : Overtakes after
      (x :: y :: ts)

theorem Overtakes.append {after : List Token} (h : Overtakes after ts) (us vs : List Token) :
    Overtakes (after ++ us) (ts ++ vs) := by
  cases h with
  | sign hx hw => exact .sign hx hw
  | chan hx => exact .chan hx
  | keyword hx hv hy hw => exact .keyword hx hv hy hw
  | name hx hy hw hz ha => exact .name hx hy hw hz (by rw [ha, List.cons_append])

/-- Only a name that overtakes asks for more than itself. -/
theorem Overtakes.of_head {after after' : List Token} (h : Overtakes after ts)
    (ha : ∀ x ∈ ts.head?, x.kind = .name → ∃ z us, after' = z :: us ∧ z.kind = .name) :
    Overtakes after' ts := by
  cases h with
  | sign hx hw => exact .sign hx hw
  | chan hx => exact .chan hx
  | keyword hx hv hy hw => exact .keyword hx hv hy hw
  | name hx hy hw hz _ =>
    obtain ⟨z, us, rfl, hz⟩ := ha _ rfl hx
    exact .name hx hy hw hz rfl

/-- The lists agree up to a name in the first one, which something overtakes in the second one. -/
def Diverges (ts us : List Token) : Prop :=
  ∃ front x after rest, ts = front ++ x :: after ∧ us = front ++ rest ∧ x.kind = .name ∧
    Overtakes after rest

/-- The tokens `ts` of a text are the tokens `us` of a tree. -/
structure Orders (ts us : List Token) : Prop where
  perm : ts.Perm us
  order : ts = us ∨ Diverges ts us

/-- Also, both lists begin with the same token. -/
structure Arranges (ts us : List Token) : Prop extends Orders ts us where
  head : ts.head? = us.head?

theorem Orders.refl (ts : List Token) : Orders ts ts := ⟨.refl ts, .inl rfl⟩

theorem Arranges.refl (ts : List Token) : Arranges ts ts := ⟨.refl ts, rfl⟩

theorem Orders.append (h : Orders ts us) (h' : Orders ts' us') :
    Orders (ts ++ ts') (us ++ us') := by
  refine ⟨h.perm.append h'.perm, ?_⟩
  rcases h.order with rfl | ⟨front, x, after, rest, rfl, rfl, hx, hover⟩
  · rcases h'.order with rfl | ⟨front, x, after, rest, rfl, rfl, hx, hover⟩
    · exact .inl rfl
    · exact .inr ⟨ts ++ front, x, after, rest, by simp, by simp, hx, hover⟩
  · exact .inr ⟨front, x, after ++ ts', rest ++ us', by simp, by simp, hx, hover.append ts' us'⟩

theorem Arranges.append (h : Arranges ts us) (h' : Arranges ts' us') :
    Arranges (ts ++ ts') (us ++ us') :=
  ⟨h.toOrders.append h'.toOrders, by simp only [List.head?_append, h.head, h'.head]⟩

/-- Behind a token that is no name the order is the same. -/
theorem Orders.of_cons (hx : x.kind ≠ .name) (h : Orders (x :: ts) (x :: us)) : Orders ts us := by
  refine ⟨h.perm.cons_inv, ?_⟩
  rcases h.order with h | ⟨front, y, after, rest, ht, hu, hy, hover⟩
  · exact .inl (List.cons.inj h).2
  · cases front with
    | nil =>
      obtain ⟨rfl, -⟩ := List.cons.inj ht
      simp [hx] at hy
    | cons z front =>
      obtain ⟨-, rfl⟩ := List.cons.inj ht
      obtain ⟨-, rfl⟩ := List.cons.inj hu
      exact .inr ⟨front, y, after, rest, rfl, rfl, hy, hover⟩

theorem Arranges.cons (x : Token) (h : Orders ts us) : Arranges (x :: ts) (x :: us) :=
  ⟨(Orders.refl [x]).append h, rfl⟩

/-! ### Parsers along tokens -/

def leavesOf (ts : List Token) : List Leaf :=
  ts.filterMap fun x => if x.kind = .fixed then none else some ⟨x.place.join, x.text⟩

@[simp] theorem leavesOf_append (ts us : List Token) :
    leavesOf (ts ++ us) = leavesOf ts ++ leavesOf us := List.filterMap_append

/-- From `s` to `t` the tokens `ts` are met, and on the trail the leaves `ls`. When there are `m`
brackets to close from `t` on, there are `n` from `s` on. -/
structure Crosses (imports : Bool) (n m : Nat) (s : Cursor) (ts : List Token) (ls : List Leaf)
    (t : Cursor) : Prop where
  trimmed : Trimmed t
  passes : Passes s ts t
  trail (stop : Cursor) (k : Nat) {after : List Leaf} (h : Trail imports stop (k + m) t after) :
    Trail imports stop (k + n) s (ls ++ after)

namespace Crosses

variable {b : Bool} {n m : Nat} {s t u : Cursor} {ts us : List Token} {ls ks : List Leaf}

theorem refl (hs : Trimmed s) : Crosses b n n s [] [] s := ⟨hs, .done s, fun _ _ _ h => h⟩

theorem trans (h : Crosses b i j s ts ls u) (h' : Crosses b (n + j) m u us ks t) :
    Crosses b (n + i) m s (ts ++ us) (ls ++ ks) t := by
  refine ⟨h'.trimmed, h.passes.trans h'.passes, fun stop k after hafter => ?_⟩
  rw [List.append_assoc, ← Nat.add_assoc]
  refine h.trail stop (k + n) ?_
  rw [Nat.add_assoc]
  exact h'.trail stop k hafter

theorem toTrail (h : Crosses b n 0 s ts ls t) : Trail b t n s ls := by simpa using h.trail t 0 .stop

end Crosses

/-- What `p` reads crosses tokens and leaves that belong to the value as `Q` says. -/
def Spends {α : Type} (imports : Bool) (n m : Nat) (p : Parser α)
    (Q : α → List Token → List Leaf → Prop) : Prop :=
  ∀ s a t, Trimmed s → p s = some (a, t) → ∃ ts ls, Crosses imports n m s ts ls t ∧ Q a ts ls

/-- With the tokens `before` in front, these are the tokens `after` of a tree, and no other leaves
are met. -/
def Completes (before after ts : List Token) (ls : List Leaf) : Prop :=
  ls = leavesOf ts ∧ ∃ us, Arranges ts us ∧ before ++ us = after

/-- The tokens `before` are met already, and with those that `p` meets they are the tokens `after`
of the value. -/
def Consumes {α : Type} (imports : Bool) (n m : Nat) (p : Parser α) (before : List Token)
    (after : α → List Token) : Prop :=
  Spends imports n m p fun a => Completes before (after a)

/-- The tokens that `p` meets are those of the value, and it closes what it opens. -/
abbrev Meets {α : Type} (imports : Bool) (p : Parser α) (tokens : α → List Token) : Prop :=
  Consumes imports 0 0 p [] tokens

/-- The values of a list with the tokens and leaves of each. -/
inductive Each {α : Type} (Q : α → List Token → List Leaf → Prop) :
    List α → List Token → List Leaf → Prop
  | nil : Each Q [] [] []
  | cons {a : α} {as : List α} {ts us : List Token} {ls ks : List Leaf} (h : Q a ts ls)
      (hs : Each Q as us ks) :
      Each Q (a :: as) (ts ++ us) (ls ++ ks)

namespace Spends

variable {α β : Type} {b : Bool} {n m : Nat} {p : Parser α} {q : Parser β}
  {Q : α → List Token → List Leaf → Prop} {R : β → List Token → List Leaf → Prop}

theorem pure {a : α} (h : Q a [] []) : Spends b n n (Pure.pure a) Q := by
  rintro s a' t hs ha
  obtain ⟨rfl, rfl⟩ := result_inj ha
  exact ⟨[], [], .refl hs, h⟩

theorem failure : Spends b n m (Alternative.failure : Parser α) Q := by
  intro s a t hs ha
  cases ha

theorem mono {Q' : α → List Token → List Leaf → Prop} (h : Spends b n m p Q)
    (hQ : ∀ a ts ls, Q a ts ls → Q' a ts ls) :
    Spends b n m p Q' := by
  intro s a t hs ha
  obtain ⟨ts, ls, hcross, hq⟩ := h s a t hs ha
  exact ⟨ts, ls, hcross, hQ a ts ls hq⟩

theorem lift (h : Spends b 0 0 p Q) (n : Nat) : Spends b n n p Q := by
  intro s a t hs ha
  obtain ⟨ts, ls, hcross, hq⟩ := h s a t hs ha
  exact ⟨ts, ls, ⟨hcross.trimmed, hcross.passes, fun stop k _ h => hcross.trail stop (k + n) h⟩, hq⟩

theorem length_le (h : Spends b 0 0 p Q) {a : α} (hs : Trimmed s) (ha : p s = some (a, t)) :
    t.rest.length ≤ s.rest.length := by
  obtain ⟨ts, ls, hcross, -⟩ := h s a t hs ha
  exact hcross.toTrail.suffix.length_le

theorem bind_of {f : α → Parser β} {P : α → Prop} (h : Spends b i j p Q) (hp : Yields p P)
    (hf : ∀ a ts ls, P a → Q a ts ls → Spends b (n + j) m (f a) fun c us ks => R c (ts ++ us)
      (ls ++ ks)) :
    Spends b (n + i) m (p >>= f) R := by
  intro s c t hs hc
  obtain ⟨a, u, ha, hc⟩ := bind_eq_some hc
  obtain ⟨ts, ls, hcross, hq⟩ := h s a u hs ha
  obtain ⟨us, ks, hcross', hr⟩ := hf a ts ls (hp s a u ha) hq u c t hcross.trimmed hc
  exact ⟨ts ++ us, ls ++ ks, hcross.trans hcross', hr⟩

theorem bind {f : α → Parser β} (h : Spends b 0 0 p Q)
    (hf : ∀ a ts ls, Q a ts ls → Spends b n m (f a) fun c us ks => R c (ts ++ us) (ls ++ ks)) :
    Spends b n m (p >>= f) R :=
  bind_of (n := n) h (.any p) fun a ts ls _ => hf a ts ls

theorem orElse {p' : Parser α} (h : Spends b n m p Q) (h' : Spends b n m p' Q) :
    Spends b n m (p <|> p') Q := by
  intro s a t hs ha
  rcases orElse_eq_some ha with ha | ⟨-, ha⟩
  · exact h s a t hs ha
  · exact h' s a t hs ha

theorem firstM {γ : Type} {f : γ → Parser α} (cs : List γ) (h : ∀ c ∈ cs, Spends b n m (f c) Q) :
    Spends b n m (cs.firstM f) Q := by
  intro s a t hs ha
  obtain ⟨c, hc, ha⟩ := firstM_eq_some ha
  exact h c hc s a t hs ha

theorem many (h : Spends b 0 0 p Q) : Spends b 0 0 (many p) (Each Q) := by
  have hm : ∀ s, Trimmed s → ∃ ts ls, Crosses b 0 0 s ts ls (manyFrom p s).2 ∧
      Each Q (manyFrom p s).1 ts ls := by
    intro s
    fun_induction manyFrom p s with
    | case1 s hp | case3 s a next hp hlt => exact fun hs => ⟨[], [], .refl hs, .nil⟩
    | case2 s a next hp hlt as last hrest ih =>
      intro hs
      obtain ⟨ts, ls, hcross, hq⟩ := h s a next hs hp
      rw [hrest] at ih
      obtain ⟨us, ks, hcross', hqs⟩ := ih hcross.trimmed
      exact ⟨ts ++ us, ls ++ ks, hcross.trans hcross', .cons hq hqs⟩
  intro s as t hs ha
  obtain ⟨rfl, rfl⟩ := result_inj ha
  exact hm s hs

/-- Nothing but layout, commas and semicolons. -/
def None (_ : α) (ts : List Token) (ls : List Leaf) : Prop := ts = [] ∧ ls = []

theorem opt (h : Spends b 0 0 p None) : Spends b 0 0 (optional p) None :=
  orElse (bind (f := fun a => Pure.pure (some a)) h fun _ ts ls ⟨ht, hl⟩ =>
    pure ⟨by simp [ht], by simp [hl]⟩) (pure ⟨rfl, rfl⟩)

theorem skip {f : α → Parser β} (h : Spends b 0 0 p None) (hf : ∀ a, Spends b n m (f a) R) :
    Spends b n m (p >>= f) R :=
  bind h fun a ts ls ⟨ht, hl⟩ => (hf a).mono fun _ _ _ hr => by simpa [ht, hl] using hr

theorem seqLeft (h : Spends b 0 0 p Q) (hq : Spends b 0 0 q None) : Spends b 0 0 (p <* q) Q :=
  bind (f := fun a => q >>= fun _ => Pure.pure a) h fun a ts ls ha => skip hq fun _ =>
    pure (by simpa using ha)

theorem sepBy1 (h : Spends b 0 0 p Q) (hq : Spends b 0 0 q None) :
    Spends b 0 0 (sepBy1 p q) (Each Q) :=
  bind h fun a ts ls ha => bind (many (skip (f := fun _ => p) hq fun _ => h)) fun as us ks has =>
    pure (by simpa using Each.cons ha has)

theorem sepEndBy (h : Spends b 0 0 p Q) (hq : Spends b 0 0 q None) :
    Spends b 0 0 (sepEndBy p q) (Each Q) :=
  orElse (seqLeft (sepBy1 h hq) (opt hq)) (pure .nil)

end Spends

theorem Completes.append {before' after : List Token} {ls' : List Leaf}
    (h : Completes [] after ts ls)
    (h' : Completes (before ++ after) before' ts' ls') :
    Completes before before' (ts ++ ts') (ls ++ ls') := by
  obtain ⟨rfl, us, hus, hafter⟩ := h
  obtain ⟨rfl, us', hus', rfl⟩ := h'
  exact ⟨by simp, us ++ us', hus.append hus', by simp [← hafter]⟩

theorem Each.completes {α : Type} {after : α → List Token} {as : List α}
    (h : Each (fun a => Completes [] (after a)) as ts ls) :
    Completes [] (as.flatMap after) ts ls := by
  induction h with
  | nil => exact ⟨rfl, [], .refl [], rfl⟩
  | cons h _ ih =>
    obtain ⟨rfl, us, hus, hone⟩ := h
    obtain ⟨rfl, us', hus', hall⟩ := ih
    exact ⟨by simp, us ++ us', hus.append hus', by simp [← hone, ← hall]⟩

namespace Consumes

variable {α β : Type} {b : Bool} {n m : Nat} {before : List Token} {p : Parser α} {q : Parser β}
  {L : α → List Token} {M : β → List Token}

theorem pure {a : α} (h : before = L a) : Consumes b n n (Pure.pure a) before L :=
  Spends.pure ⟨rfl, [], .refl [], by simpa using h⟩

theorem failure : Consumes b n m (Alternative.failure : Parser α) before L := Spends.failure

theorem bind_of {f : α → Parser β} {P : α → Prop} (h : Consumes b i j p [] L) (hp : Yields p P)
    (hf : ∀ a, P a → Consumes b (n + j) m (f a) (before ++ L a) M) :
    Consumes b (n + i) m (p >>= f) before M :=
  Spends.bind_of h hp fun a _ _ ha hts => (hf a ha).mono fun _ _ _ hus => hts.append hus

theorem bind {f : α → Parser β} (h : Meets b p L)
    (hf : ∀ a, Consumes b n m (f a) (before ++ L a) M) :
    Consumes b n m (p >>= f) before M :=
  bind_of (n := n) h (.any p) fun a _ => hf a

theorem skip {f : α → Parser β} (h : Spends b 0 0 p Spends.None)
    (hf : ∀ a, Consumes b n m (f a) before M) :
    Consumes b n m (p >>= f) before M :=
  Spends.skip h hf

theorem opening {f : α → Parser β} (h : Consumes b 0 1 p [] L)
    (hf : ∀ a, Consumes b (n + 1) m (f a) (before ++ L a) M) :
    Consumes b n m (p >>= f) before M :=
  bind_of (n := n) h (.any p) fun a _ => hf a

theorem give {F : α → β} (h : Meets b p L) (hF : ∀ a, before ++ L a = M (F a)) :
    Consumes b n n (p >>= fun a => Pure.pure (F a)) before M :=
  bind h fun a => pure (hF a)

theorem closing {f : α → Parser β} (h : Consumes b 1 0 p [] L)
    (hf : ∀ a, Consumes b n m (f a) (before ++ L a) M) :
    Consumes b (n + 1) m (p >>= f) before M :=
  bind_of (n := n) h (.any p) fun a _ => hf a

theorem behind (h : Consumes b n m p [] L) (before : List Token) :
    Consumes b n m p before fun a => before ++ L a :=
  h.mono fun _ _ _ hts => by
    obtain ⟨rfl, us, hus, hL⟩ := hts
    exact ⟨rfl, us, hus, congrArg (before ++ ·) hL⟩

theorem seqRight (h : Meets b p fun _ => us) (hq : Meets b q M) :
    Meets b (p *> q) fun c => us ++ M c :=
  bind (f := fun _ => q) h fun _ => hq.behind us

theorem seqLeft (h : Meets b p L) (hq : Spends b 0 0 q Spends.None) : Meets b (p <* q) L :=
  Spends.seqLeft h hq

theorem congr_of {L' : α → List Token} {P : α → Prop} (h : Consumes b n m p before L)
    (hp : Yields p P) (hL : ∀ a, P a → L a = L' a) : Consumes b n m p before L' := by
  intro s a t hs ha
  obtain ⟨ts, ls, hcross, hleaves, us, hus, hbefore⟩ := h s a t hs ha
  exact ⟨ts, ls, hcross, hleaves, us, hus, hbefore.trans (hL a (hp s a t ha))⟩

theorem orElse {p' : Parser α} (h : Consumes b n m p before L) (h' : Consumes b n m p' before L) :
    Consumes b n m (p <|> p') before L :=
  Spends.orElse h h'

theorem map {f : α → β} (h : Meets b p L) (hf : ∀ a, L a = M (f a)) : Meets b (f <$> p) M :=
  bind (f := fun a => Pure.pure (f a)) h fun a => pure (by simpa using hf a)

theorem opt (h : Meets b p L) : Meets b (optional p) fun o => o.toList.flatMap L :=
  orElse (map h fun a => by simp) (pure (by simp))

theorem single {x : α → Token} (h : Consumes b n m p [] fun a => [x a]) :
    Spends b n m p fun a ts ls => ts = [x a] ∧ ls = leavesOf [x a] :=
  h.mono fun a ts ls hts => by
    obtain ⟨rfl, us, hus, rfl⟩ := hts
    obtain rfl := List.perm_singleton.1 hus.perm
    exact ⟨rfl, rfl⟩

theorem many (h : Meets b p L) : Meets b (many p) fun as => as.flatMap L :=
  (Spends.many h).mono fun _ _ _ hts => hts.completes

theorem sepBy1 (h : Meets b p L) (hq : Spends b 0 0 q Spends.None) :
    Meets b (sepBy1 p q) fun as => as.flatMap L :=
  (Spends.sepBy1 h hq).mono fun _ _ _ hts => hts.completes

theorem sepBy (h : Meets b p L) (hq : Spends b 0 0 q Spends.None) :
    Meets b (sepBy p q) fun as => as.flatMap L :=
  orElse (sepBy1 h hq) (pure (by simp))

theorem sepEndBy (h : Meets b p L) (hq : Spends b 0 0 q Spends.None) :
    Meets b (sepEndBy p q) fun as => as.flatMap L :=
  (Spends.sepEndBy h hq).mono fun _ _ _ hts => hts.completes

/-- Joining puts the tokens of the operator between those of its operands. -/
theorem chain {join : α → β → α → α} (h : Meets b p L) (hq : Meets b q M)
    (hj : ∀ x o y, L (join x o y) = L x ++ M o ++ L y) : Meets b (chain p q join) L := by
  have hstep : Meets b (do return (← q, ← p)) fun (x : β × α) => M x.1 ++ L x.2 :=
    bind hq fun _ => bind h fun _ => pure (by simp)
  have hfold : ∀ (steps : List (β × α)) (x : α),
      L (steps.foldl (fun x step => join x step.1 step.2) x) = L x ++ steps.flatMap fun x =>
        M x.1 ++ L x.2 := by
    intro steps
    induction steps with
    | nil => simp
    | cons step steps ih => intro x; simp [ih, hj]
  exact bind h fun x => bind (many hstep) fun steps => pure (hfold steps x).symm

end Consumes

/-! ### Single tokens -/

theorem Passes.of_text (hr : x.text.toList ++ r = s.rest) (hp : ∀ p ∈ x.place, p = some s.offset)
    (hx : x.Stands r) :
    Passes s [x] ⟨s.offset + utf8Length x.text.toList, r⟩ := by
  obtain ⟨o, cs⟩ := s
  obtain rfl : x.text.toList ++ r = cs := hr
  exact .token hp hx (.done _)

theorem Passes.piece {k : Kind} (h : k.lexer s.rest = some (x.text.toList, r))
    (hp : ∀ p ∈ x.place, p = some s.offset)
    (hx : k.lexer (x.text.toList ++ r) = some (x.text.toList, r) → x.Stands r) :
    Passes s [x] ⟨s.offset + utf8Length x.text.toList, r⟩ := by
  have hr := Kind.takes k _ _ _ h
  exact .of_text hr hp (hx (by rwa [hr]))

theorem Passes.sign {place : Option Pos} {w : String} (hw : isOperator w = true) (hs : Trimmed s)
    (hr : s.rest = w.toList ++ u.rest) (ho : u.offset = s.offset + utf8Length w.toList)
    (hp : ∀ p ∈ place, p = some s.offset) : Passes s [⟨place, w, .fixed⟩] u := by
  have hpass : Passes s [⟨place, w, .fixed⟩] ⟨s.offset + utf8Length w.toList, u.rest⟩ :=
    .of_text hr.symm hp (.sign hw (by rw [← hr, hs.comment_eq_none]))
  rwa [← ho] at hpass

/-- The operators and colons that are neither brackets nor dots. -/
def Lex.isLevelSign (w : String) : Bool := isOperator w && isSymbol w

section Single

variable {α : Type} {b : Bool} {n m : Nat} {p : Parser α} {place : α → Option Pos}
variable {sym : String}

theorem Skips.crosses (h : Skips u t) (hp : Passes s ts u)
    (ht : ∀ stop k after, Trail b stop (k + m) u after → Trail b stop (k + n) s (ls ++ after)) :
    Crosses b n m s ts ls t :=
  ⟨h.trimmed, by simpa using hp.trans h.passes, fun stop k _ hafter => ht stop k _ (h.trail hafter)⟩

theorem Consumes.of_skips {L : α → List Token}
    (h : ∀ s a t, Trimmed s → p s = some (a, t) → ∃ u, Skips u t ∧
      Passes s (L a) u ∧ ∀ stop k after, Trail b stop (k + m) u after →
      Trail b stop (k + n) s (leavesOf (L a) ++ after)) :
    Consumes b n m p [] L := by
  intro s a t hs ha
  obtain ⟨u, hu, hpass, htrail⟩ := h s a t hs ha
  exact ⟨L a, _, hu.crosses hpass htrail, rfl, L a, .refl _, rfl⟩

theorem Spends.of_gap (c : Char) (hsym : sym.toList = [c]) (hc : (isGap c && isSymbol sym) = true)
    (hp : ∀ s a t, p s = some (a, t) → Spells sym s t) : Spends b 0 0 p None := by
  intro s a t hs ha
  obtain ⟨u, hr, ho, hu⟩ := hp s a t ha
  obtain ⟨hgap, hsymbol⟩ := (Bool.and_eq_true _ _).mp hc
  refine ⟨[], [], hu.crosses ?_ fun stop k after hafter => hafter.symbol hsymbol hs hr ho, rfl, rfl⟩
  obtain ⟨o, cs⟩ := s
  obtain ⟨o', r⟩ := u
  obtain rfl : cs = c :: r := by simpa [hsym] using hr
  obtain rfl : o' = o + utf8Length [c] := by simpa [hsym] using ho
  exact .gap hgap (.done _)

theorem Consumes.of_sign {w : α → String}
    (hp : ∀ s a t, p s = some (a, t) → (∀ x ∈ place a, x = some s.offset) ∧
      isLevelSign (w a) = true ∧ Spells (w a) s t) :
      Meets b p fun a => [⟨place a, w a, .fixed⟩] := by
  refine .of_skips fun s a t hs ha => ?_
  obtain ⟨hplace, hw, u, hr, ho, hu⟩ := hp s a t ha
  obtain ⟨hw, hsymbol⟩ := (Bool.and_eq_true _ _).mp hw
  exact ⟨u, hu, .sign hw hs hr ho hplace, fun stop k after hafter => hafter.symbol hsymbol hs hr ho⟩

/-- The one sign `c`, which is a bracket. -/
structure IsBracket (sym : String) (c : Char) : Prop where
  text : sym.toList = [c]
  operator : isOperator sym = true
  size : utf8Length [c] = 1
  next (r : List Char) : Lex.next (c :: r) = some (.sign, [c], r)

theorem IsBracket.of_sign {c : Char} (htext : sym.toList = [c])
    (h : isOperator sym = true ∧ utf8Length [c] = 1)
    (hc : Lex.isSign c = true ∧ c ≠ '/' ∧ c ≠ '.') : IsBracket sym c :=
  ⟨htext, h.1, h.2, fun _ => next_sign hc.1 (comment_eq_none hc.2.1) fun h => absurd h hc.2.2⟩

theorem isBracket_of_opening {sym : String} (hsym : sym ∈ ["(", "[", "\x7b"]) :
    ∃ c, IsBracket sym c ∧ isOpening c = true ∧ isClosing c = false := by
  simp only [List.mem_cons, List.not_mem_nil, or_false] at hsym
  rcases hsym with rfl | rfl | rfl <;> exact ⟨_, .of_sign rfl (by decide) (by decide), by decide⟩

theorem isBracket_of_closing {sym : String} (hsym : sym ∈ [")", "]", "\x7d"]) :
    ∃ c, IsBracket sym c ∧ isClosing c = true ∧ isOpening c = false := by
  simp only [List.mem_cons, List.not_mem_nil, or_false] at hsym
  rcases hsym with rfl | rfl | rfl <;> exact ⟨_, .of_sign rfl (by decide) (by decide), by decide⟩

theorem Consumes.of_bracket {c : Char} (hc : IsBracket sym c)
    (hturn : ∀ k, Turns .sign [c] (k + n) (k + m))
    (hp : ∀ s a t, p s = some (a, t) → (∀ x ∈ place a, x = some s.offset) ∧ Spells sym s t) :
    Consumes b n m p [] fun a => [⟨place a, sym, .fixed⟩] := by
  refine .of_skips fun s a t hs ha => ?_
  obtain ⟨hplace, u, hr, ho, hu⟩ := hp s a t ha
  refine ⟨u, hu, .sign hc.operator hs hr ho hplace, fun stop k after hafter => ?_⟩
  obtain ⟨o, cs⟩ := s
  obtain ⟨o', r⟩ := u
  obtain rfl : cs = c :: r := by simpa [hc.text] using hr
  obtain rfl : o' = o + utf8Length [c] := by simpa [hc.text] using ho
  exact .piece (hc.next r) (hturn k) hafter

theorem Consumes.of_opening {sym : String} (hsym : sym ∈ ["(", "[", "\x7b"])
    (hp : ∀ s a t, p s = some (a, t) → (∀ x ∈ place a, x = some s.offset) ∧ Spells sym s t) :
    Consumes b 0 1 p [] fun a => [⟨place a, sym, .fixed⟩] := by
  obtain ⟨c, hc, hopen, -⟩ := isBracket_of_opening hsym
  exact .of_bracket hc (fun _ => .opening hopen) hp

theorem Consumes.of_closing {sym : String} (hsym : sym ∈ [")", "]", "\x7d"])
    (hp : ∀ s a t, p s = some (a, t) → (∀ x ∈ place a, x = some s.offset) ∧ Spells sym s t) :
    Consumes b 1 0 p [] fun a => [⟨place a, sym, .fixed⟩] := by
  obtain ⟨c, hc, hclose, -⟩ := isBracket_of_closing hsym
  exact .of_bracket hc (fun _ => .closing hclose) hp

/-- A dot before anything that begins with neither a digit nor a dot. -/
theorem Consumes.dot {dot : Parser Pos} {f : Pos → Parser α} {L : α → List Token}
    (hdot : ∀ s a t, dot s = some (a, t) → Spells "." s t)
    (hstop : ∀ a s x t, f a s = some (x, t) → Stops (fun d => isDigit d || d == '.') s.rest)
    (hf : ∀ a, Consumes b n m (f a) (before ++ [.loose "."]) L) :
    Consumes b n m (dot >>= f) before L := by
  intro s x t hs hx
  obtain ⟨a, v, ha, hfa⟩ := bind_eq_some hx
  obtain ⟨r, hr, hnext, hu⟩ := (hdot s a v ha).next_dot (hstop a v x t hfa)
  have hcross : Crosses b 0 0 s [.loose "."] [] v :=
    hu.crosses (.sign (by decide) hs hr rfl (by simp)) fun stop k after hafter =>
      .piece hnext (turns_dot _) hafter
  obtain ⟨ts, ls, hcross', hts⟩ := hf a v x t hu.trimmed hfa
  exact ⟨_, _, hcross.trans (n := n) hcross', .append ⟨rfl, _, .refl _, rfl⟩ hts⟩

end Single

end GoFun

namespace GoFun.Grammar

open Parser Token

variable {b : Bool}

theorem spends_comma : Spends b 0 0 (tokenNl ",") Spends.None :=
  .of_gap ',' rfl (by decide) fun _ _ _ ha => (tokenNl_eq_some ha).2

theorem spends_inlineComma : Spends b 0 0 (token ",") Spends.None :=
  .of_gap ',' rfl (by decide) fun _ _ _ ha => (token_eq_some ha).2

theorem spends_semicolon : Spends b 0 0 (token ";") Spends.None :=
  .of_gap ';' rfl (by decide) fun _ _ _ ha => (token_eq_some ha).2

theorem spends_blanksNl : Spends b 0 0 blanksNl Spends.None := fun s _ t _ ha =>
  have hskips : Skips s t := ⟨_, .inr rfl, ha⟩
  ⟨[], [], hskips.crosses (.done s) fun _ _ _ h => h, rfl, rfl⟩

theorem spends_separator : Spends b 0 0 separator Spends.None := by
  refine .skip (fun s _ t _ ha => ?_) fun _ s a t hs ha => ?_
  · have hskips : Skips s t := ⟨_, .inl rfl, ha⟩
    exact ⟨[], [], hskips.crosses (.done s) fun _ _ _ h => h, rfl, rfl⟩
  · obtain ⟨x, u, hx, ht⟩ := bind_eq_some ha
    obtain ⟨r, hr, -, rfl⟩ := lexeme_eq_some hx
    obtain ⟨c, hc, hs', hx⟩ := Lex.one_eq_some.1 hr
    rw [hx] at ht
    have hskips : Skips ⟨s.offset + utf8Length [c], r⟩ t := ⟨_, .inr rfl, ht⟩
    obtain ⟨o, cs⟩ := s
    obtain rfl : cs = c :: r := hs'
    have hc' : c = ';' ∨ c = '\n' := by simpa using hc
    rcases hc' with rfl | rfl
    · exact ⟨[], [], hskips.crosses (.gap (by decide) (.done _)) fun _ _ _ h =>
        .plainSigns [';'] (by decide) h, rfl, rfl⟩
    · refine ⟨[], [], hskips.crosses (.gap (by decide) (.done _)) fun _ _ _ h => ?_, rfl, rfl⟩
      exact .piece (Lex.next_of_lexer (k := .blank) rfl
        (Lex.one_eq_some.2 ⟨'\n', by decide, rfl, rfl⟩)) (.level (by simp)) h

theorem spends_guard (c : Prop) [Decidable c] : Spends b 0 0 (guard c) Spends.None :=
  fun s a t hs ha => by
  obtain ⟨-, rfl⟩ := guard_eq_some ha
  exact ⟨[], [], .refl hs, rfl, rfl⟩

section Signs

variable {w : String}

theorem consumes_token (hw : Lex.isLevelSign w = true) : Meets b (token w) fun p => [placed p w] :=
  .of_sign fun _ _ _ ha => ⟨by simp [(token_eq_some ha).1], hw, (token_eq_some ha).2⟩

theorem consumes_tokenNl (hw : Lex.isLevelSign w = true) :
    Meets b (tokenNl w) fun p => [placed p w] :=
  .of_sign fun _ _ _ ha => ⟨by simp [(tokenNl_eq_some ha).1], hw, (tokenNl_eq_some ha).2⟩

theorem consumes_looseToken (hw : Lex.isLevelSign w = true) :
    Meets b (token w) fun _ => [loose w] :=
  .of_sign fun _ _ _ ha => ⟨by simp, hw, (token_eq_some ha).2⟩

theorem consumes_looseTokenNl (hw : Lex.isLevelSign w = true) :
    Meets b (tokenNl w) fun _ => [loose w] :=
  .of_sign fun _ _ _ ha => ⟨by simp, hw, (tokenNl_eq_some ha).2⟩

theorem opens_token (hw : w ∈ ["(", "[", "\x7b"]) :
    Consumes b 0 1 (token w) [] fun p => [placed p w] :=
  .of_opening hw fun _ _ _ ha => ⟨by simp [(token_eq_some ha).1], (token_eq_some ha).2⟩

theorem opens_tokenNl (hw : w ∈ ["(", "[", "\x7b"]) :
    Consumes b 0 1 (tokenNl w) [] fun p => [placed p w] :=
  .of_opening hw fun _ _ _ ha => ⟨by simp [(tokenNl_eq_some ha).1], (tokenNl_eq_some ha).2⟩

theorem opens_looseToken (hw : w ∈ ["(", "[", "\x7b"]) :
    Consumes b 0 1 (token w) [] fun _ => [loose w] :=
  .of_opening hw fun _ _ _ ha => ⟨by simp, (token_eq_some ha).2⟩

theorem closes_token (hw : w ∈ [")", "]", "\x7d"]) :
    Consumes b 1 0 (token w) [] fun p => [placed p w] :=
  .of_closing hw fun _ _ _ ha => ⟨by simp [(token_eq_some ha).1], (token_eq_some ha).2⟩

theorem consumes_close {α : Type} {L : α → List Token} {F : Pos → α} {n : Nat} {before : List Token}
    (hw : w ∈ [")", "]", "\x7d"]) (hF : ∀ p, before ++ [placed p w] = L (F p)) :
    Consumes b (n + 1) n (token w >>= fun p => Pure.pure (F p)) before L :=
  .closing (closes_token hw) fun p => .pure (hF p)

theorem closes_looseToken (hw : w ∈ [")", "]", "\x7d"]) :
    Consumes b 1 0 (token w) [] fun _ => [loose w] :=
  .of_closing hw fun _ _ _ ha => ⟨by simp, (token_eq_some ha).2⟩

theorem consumes_dots {p : Parser Pos}
    (hp : ∀ {s t : Cursor} {a : Pos}, p s = some (a, t) → a = some s.offset ∧ Spells "..." s t) :
    Meets b p fun a => [placed a "..."] := by
  refine .of_skips fun s a t hs ha => ?_
  obtain ⟨rfl, u, hr, ho, hu⟩ := hp ha
  refine ⟨u, hu, .sign (by decide) hs hr ho (by simp), fun stop k after hafter => ?_⟩
  obtain ⟨o, cs⟩ := s
  obtain ⟨o', r⟩ := u
  obtain rfl : cs = "...".toList ++ r := hr
  obtain rfl : o' = o + utf8Length "...".toList := ho
  exact .piece (Lex.next_dots r) (.level (by simp)) hafter

end Signs

theorem consumes_word {w : String} (hw : w ∈ Lex.keywords) {place : Pos → Option Pos}
    (hp : ∀ s, ∀ x ∈ place (some s), x = some s) :
    Meets b (keyword w) fun p => [⟨place p, w, .fixed⟩] := by
  refine .of_skips fun s a t hs ha => ?_
  obtain ⟨rfl, r, hr, hu⟩ := keyword_eq_some ha
  refine ⟨_, hu, .piece (k := .word) (x := ⟨_, w, .fixed⟩) hr (hp _) .word,
    fun stop k after hafter => ?_⟩
  have htrail := Trail.piece (Lex.next_of_lexer (k := .word) rfl hr) (.level (by simp)) hafter
  simpa [leafOf, leavesOf, hw] using htrail

theorem consumes_keyword {w : String} (hw : w ∈ Lex.keywords) :
    Meets b (keyword w) fun p => [placed p w] :=
  consumes_word hw (by simp)

theorem consumes_looseKeyword {w : String} (hw : w ∈ Lex.keywords) :
    Meets b (keyword w) fun _ => [loose w] :=
  consumes_word hw (by simp)

theorem consumes_ident : Meets b ident fun id => [id.token] := by
  refine .of_skips fun s x t hs ha => ?_
  obtain ⟨he, hk, r, hr, hu⟩ := ident_eq_some ha
  refine ⟨_, hu, ?_, fun stop k after hafter => ?_⟩
  · rw [he]
    exact .piece (k := .word) (x := Ident.token _) hr (by simp [Ident.token]) fun h => .name h hk
  · have htrail := Trail.piece (Lex.next_of_lexer (k := .word) rfl hr) (.level (by simp)) hafter
    rw [he]
    simpa [leafOf, leavesOf, hk, Ident.token] using htrail

theorem consumes_literalOf {kind : List Char → LitKind} {k : Lex.Kind}
    (hk : k ∈ [Lex.Kind.number, .string, .char]) :
    Meets b (literalOf kind k.lexer) fun l => [l.token] := by
  refine .of_skips fun s l t hs ha => ?_
  obtain ⟨he, r, hr, hu⟩ := literalOf_eq_some ha
  refine ⟨_, hu, ?_, fun stop j after hafter => ?_⟩
  · rw [he]
    exact .piece (x := Literal.token _) hr (by simp [Literal.token]) fun h => .literal hk h
  · simp only [List.mem_cons, List.not_mem_nil, or_false] at hk
    rw [he]
    rcases hk with rfl | rfl | rfl <;>
      simpa [leafOf, leavesOf, Literal.token] using Trail.piece (Lex.next_of_lexer rfl hr)
        (.level (by simp)) hafter

theorem consumes_literal : Meets b literal fun l => [l.token] :=
  .orElse (consumes_literalOf (k := .number) (by simp))
    (.orElse (consumes_literalOf (k := .string) (by simp))
    (consumes_literalOf (k := .char) (by simp)))

theorem consumes_tokenOf {α : Type} {spelling : α → String} {choices : List α} {blank : Char → Bool}
    (hb : blank = Lex.isBlank ∨ blank = Lex.isBlankOrNewline)
    (h : ∀ x ∈ choices, Lex.isLevelSign (spelling x) = true) :
    Meets b (tokenOf spelling choices <* skip blank) fun x => [placed x.1 (spelling x.2)] :=
  .of_sign fun s a t ha => by
    obtain ⟨x, u, hx, ha⟩ := bind_eq_some (f := fun a => skip blank >>= fun _ => pure a) ha
    obtain ⟨rfl, ht⟩ := skip_eq_some ha
    obtain ⟨hp, hmem, hr, ho⟩ := tokenOf_eq_some hx
    exact ⟨by simp [hp], h a.2 hmem, u, hr, ho, _, hb, ht⟩

theorem consumes_operatorOf (level : List (BinaryOp × String)) :
    Meets b (operatorOf level) fun x => [placed x.1 x.2.symbol] :=
  .of_sign fun s x t ha => by
    obtain ⟨hp, hs⟩ := operatorOf_eq_some ha
    exact ⟨by simp [hp], by cases x.2 <;> decide, hs⟩

theorem consumes_labelColon : Meets b labelColon fun p => [placed p ":"] :=
  .of_sign fun _ _ _ ha => ⟨by simp [(labelColon_eq_some ha).1], by decide,
    (labelColon_eq_some ha).2⟩

end GoFun.Grammar
