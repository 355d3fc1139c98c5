import GoFun.Proofs.Printer.Echoed
import GoFun.Proofs.Tree.Weight

/-!
# Tokens of a printed text in their order

A text is printed with certain tokens and read along the tokens of a tree. When these are the same
up to their order, there is no room left for comments, and the order is the same, too: a name that
waits for its type would stand where the print has a sign or a keyword.
-/
namespace GoFun

open Parser Token Lex List

variable {c : Char} {cs : List Char} {ts us : List Token} {s t : Cursor} {w : String}
  {ws : List String}

def Lex.inked (cs : List Char) : Nat := cs.countP (!isGap ·)

@[simp] theorem Lex.inked_append (cs ds : List Char) : inked (cs ++ ds) = inked cs + inked ds :=
  countP_append

theorem Lex.inked_gap (h : isGap c = true) (cs : List Char) : inked (c :: cs) = inked cs := by
  simp [inked, h]

def ink : Weight where
  of w := Lex.inked w.toList
  bracket := by decide

theorem Spaced.inked (h : Spaced cs (ts.map Token.text)) : inked cs = weigh ink ts := by
  generalize hws : ts.map Token.text = ws at h
  induction h generalizing ts with
  | nil => rw [map_eq_nil_iff.1 hws]; rfl
  | gap hc _ ih => rw [inked_gap hc, ih hws]
  | token _ _ _ ih =>
    obtain ⟨x, ts, rfl, rfl, hts⟩ := map_eq_cons_iff.1 hws
    rw [inked_append, ih hts, weigh_cons]
    rfl

/-- The tokens on the way to the end of a text have no more characters than the text. -/
theorem Passes.weigh_le (h : Passes s ts t) (ht : t.rest = []) : weigh ink ts ≤ inked s.rest := by
  induction h with
  | done => exact Nat.zero_le _
  | gap hc _ ih => rw [inked_gap hc]; exact ih ht
  | comment hc _ ih =>
    rw [← (comment_append hc).2, inked_append]
    exact Nat.le_trans (ih ht) (Nat.le_add_left _ _)
  | token _ _ _ ih =>
    rw [weigh_cons, inked_append]
    exact Nat.add_le_add_left (ih ht) _

/-- The tokens stand one behind the other to the end of the text, with gaps between them. -/
inductive Walks : Nat → List Char → List Token → Prop
  | nil (o : Nat) : Walks o [] []
  | gap {o : Nat} {c : Char} {cs : List Char} {ts : List Token} (hc : Lex.isGap c = true)
      (h : Walks (o + utf8Length [c]) cs ts) : Walks o (c :: cs) ts
  | token {o : Nat} {x : Token} {r : List Char} {ts : List Token} (hp : ∀ p ∈ x.place, p = some o)
      (hx : x.Stands r) (h : Walks (o + utf8Length x.text.toList) r ts) : Walks o
      (x.text.toList ++ r) (x :: ts)

theorem Lex.inked_comment {p r : List Char} (h : comment cs = some (p, r)) : 0 < inked p := by
  obtain ⟨c, t, rfl, hc, -⟩ := Kind.comment.opens _ _ _ h
  obtain rfl : c = '/' := by simpa [Kind.opening] using hc
  simp [inked, isGap, isBlankOrNewline, isBlank]

/-- Where the tokens have as many characters as the text there is no comment. -/
theorem Passes.walks (h : Passes s ts t) (ht : t.rest = []) (hink : inked s.rest ≤ weigh ink ts) :
    Walks s.offset s.rest ts := by
  induction h with
  | done s => rw [ht]; exact .nil _
  | gap hc _ ih =>
    rw [inked_gap hc] at hink
    exact .gap hc (ih ht hink)
  | comment hc h =>
    have hle := h.weigh_le ht
    have hpos := inked_comment hc
    rw [← (comment_append hc).2, inked_append] at hink
    simp only at hle
    omega
  | token hp hx _ ih =>
    rw [weigh_cons, inked_append] at hink
    exact .token hp hx (ih ht (Nat.le_of_add_le_add_left hink))

namespace Lex

theorem isGap_eq (c : Char) : isGap c = " \t\r\n,;".toList.contains c := by
  simp only [isGap, isBlankOrNewline, isBlank, String.reduceToList, contains_cons, contains_nil,
    Bool.or_false, Bool.or_assoc]

theorem isGap_of_startsWord (h : Text.startsWord c = true) : isGap c = false := by
  rw [isGap_eq]
  exact contains_eq_false (by decide) c h

theorem not_continuesWord_of_isGap (h : isGap c = true) : Text.continuesWord c = false := by
  rw [isGap_eq] at h
  exact eq_false_of_contains (by decide) c h

theorem head_of_isOperator (h : isOperator w = true) :
    ∃ c cs, w.toList = c :: cs ∧ "+-*%&|^<>=!:.()[]\x7b\x7d/".toList.contains c = true := by
  simp only [isOperator, Bool.or_eq_true, Bool.and_eq_true, bne_iff_ne, beq_iff_eq] at h
  rcases h with (⟨hne, hall⟩ | rfl) | rfl
  · obtain ⟨c, cs, hw⟩ := exists_cons_of_ne_nil (mt String.toList_eq_nil_iff.1 hne)
    rw [hw] at hall
    have hc := all_eq_true.1 hall c mem_cons_self
    refine ⟨c, cs, hw, ?_⟩
    simp only [isMark, contains_iff_mem] at hc ⊢
    exact mem_append_left ['/'] hc
  · exact ⟨'/', [], rfl, by decide⟩
  · exact ⟨'/', ['='], rfl, by decide⟩

theorem opensToken_of_isOperator (h : isOperator w = true) : opensToken w.toList = true := by
  obtain ⟨c, cs, hw, hc⟩ := head_of_isOperator h
  simp [hw, opensToken, eq_false_of_contains (p := isGap) (by decide) c hc]

theorem stops_operator (h : isOperator w = true) (cs : List Char) :
    Stops Text.continuesWord (w.toList ++ cs) := by
  obtain ⟨c, ds, hw, hc⟩ := head_of_isOperator h
  rw [hw, cons_append, stops_cons]
  exact eq_false_of_contains (by decide) c hc

theorem continuesWord_of_startsWord (c : Char) (h : Text.startsWord c = true) :
    Text.continuesWord c = true := by
  simp only [Text.startsWord, Text.continuesWord, Bool.or_eq_true] at h ⊢
  rcases h with h | h
  · exact .inl (.inl h)
  · exact .inr h

end Lex

theorem Token.Stands.opensToken {x : Token} {r : List Char} (h : x.Stands r)
    (hp : x.place ≠ some none) :
    Lex.opensToken x.text.toList = true := by
  by_cases hk : x.kind = .fixed
  · cases h with
    | name | literal => cases hk
    | word h =>
      obtain ⟨c, cs, hw, hc, -⟩ := Lex.Kind.word.opens _ _ _ h
      simp [hw, Lex.opensToken, Lex.isGap_of_startsWord hc]
    | sign hw => exact Lex.opensToken_of_isOperator hw
  · exact Sound.opensToken ⟨hp, r, h⟩ hk

namespace Walks

variable {o : Nat} {cs : List Char} {ts us : List Token}

theorem sound (h : Walks o cs ts) : ∀ x ∈ ts, x.Sound := by
  induction h with
  | nil => simp
  | gap _ _ ih => exact ih
  | token hp hx _ ih => exact forall_mem_cons.2 ⟨⟨fun hn => absurd (hp none hn) (by simp), _, hx⟩, ih⟩

theorem placed (h : Walks o cs ts) : Placed o cs ts := by
  induction h with
  | nil => exact .nil _
  | gap hc _ ih => exact .gap hc ih
  | token hp hx _ ih => exact .token (hx.opensToken fun hn => absurd (hp none hn) (by simp)) hp ih

end Walks

theorem Spaced.of_cons (h : Spaced (c :: cs) ws) (hc : isGap c = true) : Spaced cs ws := by
  generalize hl : c :: cs = l at h
  cases h with
  | nil => cases hl
  | gap _ h =>
    obtain ⟨rfl, rfl⟩ := List.cons.inj hl
    exact h
  | token hw =>
    rw [isGap_of_opensToken hw hl.symm] at hc
    cases hc

theorem Spaced.of_token (h : Spaced (w.toList ++ cs) ws) (hw : opensToken w.toList = true) :
    ∃ v ds vs, ws = v :: vs ∧ w.toList ++ cs = v.toList ++ ds ∧
      endsToken v ds = true ∧ Spaced ds vs := by
  generalize hl : w.toList ++ cs = l at h
  cases h with
  | nil => simp [append_eq_nil_iff.1 hl, opensToken] at hw
  | gap hc =>
    rw [isGap_of_opensToken hw hl] at hc
    cases hc
  | token _ hn h => exact ⟨_, _, _, rfl, rfl, hn, h⟩

theorem Walks.split {o : Nat} {front : List Token} (h : Walks o cs (front ++ ts))
    (hs : Spaced cs (front.map Token.text ++ ws)) : ∃ o' cs', Walks o' cs' ts ∧ Spaced cs' ws := by
  generalize hl : front ++ ts = l at h
  induction h generalizing front with
  | nil =>
    obtain ⟨rfl, rfl⟩ := append_eq_nil_iff.1 hl
    exact ⟨_, [], .nil o, hs⟩
  | gap hc _ ih => exact ih (hs.of_cons hc) hl
  | @token o x r l hp hx h ih =>
    cases front with
    | nil =>
      obtain rfl : ts = x :: l := hl
      exact ⟨o, _, .token hp hx h, hs⟩
    | cons y front =>
      obtain ⟨rfl, rfl⟩ := List.cons.inj hl
      obtain ⟨v, ds, vs, hv, hds, -, hvs⟩ :=
        hs.of_token (hx.opensToken fun hn => absurd (hp none hn) (by simp))
      obtain ⟨rfl, rfl⟩ := List.cons.inj hv
      obtain rfl := append_cancel_left hds
      exact ih hvs rfl

theorem Spaced.stops (h : Spaced cs (w :: ws)) (hw : isOperator w = true) :
    Stops Text.continuesWord cs := by
  generalize hl : w :: ws = l at h
  cases h with
  | nil => cases hl
  | gap hc => exact (stops_cons _ _ _).2 (not_continuesWord_of_isGap hc)
  | token =>
    obtain ⟨rfl, -⟩ := List.cons.inj hl
    exact stops_operator hw _

section Order

variable {o : Nat} {cs : List Char} {x : Token} {after : List Token} {ws : List String}

/-- Where a name is next, the print has a text that begins with its characters. -/
theorem Walks.name_next (h : Walks o cs (x :: after)) (hx : x.kind = .name) (hs : Spaced cs ws) :
    ∃ o' r v ds vs, Lex.word (x.text.toList ++ r) = some (x.text.toList, r) ∧ x.text ∉ keywords ∧
    Walks o' r after ∧
      ws = v :: vs ∧ x.text.toList ++ r = v.toList ++ ds ∧ endsToken v ds = true ∧
      Spaced ds vs := by
  generalize hl : x :: after = l at h
  induction h with
  | nil => cases hl
  | gap hc _ ih => exact ih (hs.of_cons hc) hl
  | token hp hstands h =>
    obtain ⟨rfl, rfl⟩ := List.cons.inj hl
    obtain ⟨v, ds, vs, hv, hds, hend, hvs⟩ :=
      hs.of_token (hstands.opensToken fun hn => absurd (hp none hn) (by simp))
    cases hstands with
    | name hword hkey => exact ⟨_, _, v, ds, vs, hword, hkey, h, hv, hds, hend, hvs⟩
    | literal | word | sign => cases hx

/-- A name does not stand where the print has an operator. -/
theorem Walks.ne_operator (h : Walks o cs (x :: after)) (hx : x.kind = .name)
    (hs : Spaced cs (w :: ws)) :
    isOperator w = false := by
  obtain ⟨o', r, v, ds, vs, hword, -, -, hv, hds, -, -⟩ := h.name_next hx hs
  obtain ⟨rfl, rfl⟩ := List.cons.inj hv
  refine Bool.eq_false_iff.2 fun hw => ?_
  have hnone : word (w.toList ++ ds) = none :=
    opens_word.eq_none ((stops_operator hw ds).mono continuesWord_of_startsWord)
  rw [hds, hnone] at hword
  cases hword

theorem Walks.ne_keyword {v : String} (h : Walks o cs (x :: after)) (hx : x.kind = .name)
    (hs : Spaced cs (v :: ws)) (hv : v ∈ keywords)
    (hend : ∀ ds, endsToken v ds = true → Spaced ds ws → Stops Text.continuesWord ds) : False := by
  obtain ⟨o', r, _, ds, _, hword, hkey, -, hcons, hds, hends, hvs⟩ := h.name_next hx hs
  obtain ⟨rfl, rfl⟩ := List.cons.inj hcons
  have hwords : ∀ v ∈ keywords, word v.toList = some (v.toList, []) := by decide
  rw [hds, Grammar.word_append (hwords v hv) (hend ds hends hvs)] at hword
  obtain ⟨heq, -⟩ := result_inj hword
  exact hkey (String.toList_inj.1 heq ▸ hv)

/-- What a name would be overtaken by is not what the print has. -/
theorem Walks.not_overtakes {rest : List Token} (h : Walks o cs (x :: after)) (hx : x.kind = .name)
    (hs : Spaced cs (rest.map Token.text)) (hrest : ∀ y ∈ rest, y.Sound) :
    ¬ Overtakes after rest := by
  rintro (⟨hy, hw⟩ | hy | ⟨hy, hv, hz, hw⟩ | ⟨hy, hz, hw, hname, rfl⟩)
  · rw [map_cons, hy] at hs
    rw [h.ne_operator hx hs] at hw
    cases hw
  · rw [map_cons, hy] at hs
    refine h.ne_keyword hx hs (by decide) fun ds hends _ => ?_
    cases ds with
    | nil => exact stops_nil _
    | cons c ds => exact (stops_cons _ _ _).2 (by simpa [endsToken] using hends)
  · rw [map_cons, map_cons, hy, hz] at hs
    exact h.ne_keyword hx hs hv fun ds _ hds => hds.stops hw
  · rw [map_cons, map_cons, hz] at hs
    obtain ⟨o', r, v, ds, vs, hword, -, hafter, hv, hds, -, hvs⟩ := h.name_next hx hs
    obtain ⟨rfl, rfl⟩ := List.cons.inj hv
    obtain ⟨-, r₀, hstands⟩ := hrest _ mem_cons_self
    -- The name of the tree is a whole word here, so it is the name that stands here, and an
    -- operator is behind it.
    cases hstands with
    | name hword₀ =>
      rw [hds, rereads_word _ _ _ hword₀ ds (hvs.stops hw)] at hword
      obtain ⟨-, rfl⟩ := result_inj hword
      rw [hafter.ne_operator hname hvs] at hw
      cases hw
    | literal | word | sign => cases hy

end Order

theorem Walks.order {o : Nat} (h : Walks o cs ts) (hs : Spaced cs (us.map Token.text))
    (ho : Orders ts us) : ts = us := by
  rcases ho.order with heq | ⟨front, x, after, rest, rfl, rfl, hx, hover⟩
  · exact heq
  · have hsound : ∀ y ∈ rest, y.Sound :=
      fun y hy => h.sound y (ho.perm.mem_iff.2 (mem_append_right _ hy))
    rw [map_append] at hs
    obtain ⟨o', cs', hwalks, hspaced⟩ := h.split hs
    exact absurd hover (hwalks.not_overtakes hx hspaced hsound)

theorem weigh_perm (w : Weight) (h : ts.Perm us) : weigh w ts = weigh w us := (h.map _).sum_nat

/-- The tokens of a tree that a printed text is read along are where the print has them. -/
theorem Passes.placed (h : Passes s ts t) (ht : t.rest = [])
    (hs : Spaced s.rest (us.map Token.text)) (ho : Orders ts us) :
    Placed s.offset s.rest us := by
  have hwalks := h.walks ht (Nat.le_of_eq (hs.inked.trans (weigh_perm ink ho.perm).symm))
  rw [← hwalks.order hs ho]
  exact hwalks.placed

end GoFun
