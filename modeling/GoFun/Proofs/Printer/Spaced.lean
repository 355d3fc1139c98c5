import GoFun.Proofs.Grammar.Passage
import GoFun.Proofs.Source.Cover
import GoFun.Proofs.Source.Lines

/-!
# Tokens in printed texts

`Spaced cs ws` says that `ws` are the tokens of the printed text `cs`, and `Placed o cs ts` that the
tokens of a tree stand in the text where the tree says, when the text begins at the offset `o`.
`Echo` is for texts that are put together from parts: what follows for each part from the places of
its tokens follows for the whole text from the places of all tokens.
-/
namespace GoFun

open Parser Token Lex List

variable {cs ds : List Char} {o : Nat} {ts : List Token} {m : SourceMap}
variable {w : String} {ws : List String} {c : Char} {x : Token}

namespace Lex

/-- The text begins with something else than a gap. -/
def opensToken (cs : List Char) : Bool := cs.head?.any (!isGap ·)

/-- Only the word `chan` must not be followed by more of a word at once, for it could be taken for a
name. -/
def endsToken (w : String) (cs : List Char) : Bool :=
  w != "chan" || cs.head?.any (!Text.continuesWord ·)

theorem opensToken_append (h : opensToken cs = true) (ds : List Char) :
    opensToken (cs ++ ds) = true := by
  cases cs with
  | nil => cases h
  | cons c cs => exact h

theorem endsToken_append (h : endsToken w cs = true) (ds : List Char) :
    endsToken w (cs ++ ds) = true := by
  cases cs with
  | nil =>
    have hw : (w != "chan") = true := by simpa [endsToken] using h
    simp only [endsToken, hw, Bool.true_or]
  | cons c cs => exact h

end Lex

inductive Spaced : List Char → List String → Prop
  | nil : Spaced [] []
  | gap {c : Char} {cs : List Char} {ws : List String} (hc : Lex.isGap c = true)
      (h : Spaced cs ws) : Spaced (c :: cs) ws
  | token {w : String} {cs : List Char} {ws : List String} (hw : Lex.opensToken w.toList = true)
      (hn : Lex.endsToken w cs = true) (h : Spaced cs ws) : Spaced (w.toList ++ cs) (w :: ws)

theorem Spaced.append {vs : List String} (h : Spaced cs ws) (h' : Spaced ds vs) :
    Spaced (cs ++ ds) (ws ++ vs) := by
  induction h with
  | nil => exact h'
  | gap hc _ ih => exact .gap hc ih
  | token hw hn _ ih =>
    rw [append_assoc, cons_append]
    exact .token hw (endsToken_append hn ds) ih

theorem Spaced.of_gap (h : cs.all isGap = true) : Spaced cs [] := by
  induction cs with
  | nil => exact .nil
  | cons c cs ih =>
    obtain ⟨hc, hcs⟩ := Bool.and_eq_true_iff.1 h
    exact .gap hc (ih hcs)

/-- Checks that `ws` are the tokens of a text. -/
def Lex.spaces : List String → List Char → Bool
  | [], cs => cs.all isGap
  | w :: ws, cs =>
    let rest := cs.dropWhile isGap
    let after := rest.drop w.toList.length
    w.toList.isPrefixOf rest && opensToken w.toList && endsToken w after && spaces ws after

theorem Spaced.of_spaces (h : spaces ws cs = true) : Spaced cs ws := by
  induction ws generalizing cs with
  | nil => exact .of_gap h
  | cons w ws ih =>
    simp only [spaces, Bool.and_eq_true] at h
    obtain ⟨⟨⟨hfront, hopens⟩, hends⟩, hrest⟩ := h
    have htoken : Spaced (cs.dropWhile isGap) (w :: ws) := by
      obtain ⟨r, hr⟩ := isPrefixOf_iff_prefix.1 hfront
      rw [← hr, drop_left] at hends hrest
      rw [← hr]
      exact .token hopens hends (ih hrest)
    have hgap : Spaced (cs.takeWhile isGap) [] := .of_gap all_takeWhile
    simpa using hgap.append htoken

inductive Placed : Nat → List Char → List Token → Prop
  | nil (o : Nat) : Placed o [] []
  | gap {o : Nat} {c : Char} {cs : List Char} {ts : List Token} (hc : Lex.isGap c = true)
      (h : Placed (o + utf8Length [c]) cs ts) : Placed o (c :: cs) ts
  | token {o : Nat} {x : Token} {cs : List Char} {ts : List Token}
      (hx : Lex.opensToken x.text.toList = true)
      (hp : ∀ p ∈ x.place, p = some o) (h : Placed (o + utf8Length x.text.toList) cs ts) :
      Placed o (x.text.toList ++ cs) (x :: ts)

theorem Lex.isGap_of_opensToken (h : opensToken w.toList = true) (he : w.toList ++ cs = c :: ds) :
    isGap c = false := by
  have hopens := opensToken_append h cs
  rw [he] at hopens
  simpa [opensToken] using hopens

theorem Placed.of_cons (h : Placed o (c :: cs) ts) (hc : isGap c = true) :
    Placed (o + utf8Length [c]) cs ts := by
  generalize hl : c :: cs = l at h
  cases h with
  | nil => cases hl
  | gap _ h =>
    obtain ⟨rfl, rfl⟩ := List.cons.inj hl
    exact h
  | token hx =>
    rw [isGap_of_opensToken hx hl.symm] at hc
    cases hc

theorem Placed.of_token (h : Placed o (x.text.toList ++ cs) (x :: ts))
    (hx : opensToken x.text.toList = true) :
    (∀ p ∈ x.place, p = some o) ∧ Placed (o + utf8Length x.text.toList) cs ts := by
  generalize hl : x.text.toList ++ cs = l, hts : x :: ts = us at h
  cases h with
  | nil => cases hts
  | gap hc _ =>
    rw [isGap_of_opensToken hx hl] at hc
    cases hc
  | token _ hp h =>
    obtain ⟨rfl, rfl⟩ := List.cons.inj hts
    obtain rfl := append_cancel_left hl
    exact ⟨hp, h⟩

theorem Placed.split {us : List Token} (h : Placed o (cs ++ ds) (ts ++ us))
    (hs : Spaced cs (ts.map Token.text)) :
    Placed o cs ts ∧ Placed (o + utf8Length cs) ds us := by
  generalize hws : ts.map Token.text = ws at hs
  induction hs generalizing o ts with
  | nil =>
    obtain rfl := map_eq_nil_iff.1 hws
    exact ⟨.nil o, h⟩
  | @gap c cs ws hc _ ih =>
    obtain ⟨hcs, hds⟩ := ih (h.of_cons hc) hws
    rw [Nat.add_assoc, ← utf8Length_append, singleton_append] at hds
    exact ⟨.gap hc hcs, hds⟩
  | @token w cs ws hw _ _ ih =>
    obtain ⟨x, ts, rfl, rfl, rfl⟩ := map_eq_cons_iff.1 hws
    rw [append_assoc] at h
    obtain ⟨hp, h⟩ := h.of_token hw
    obtain ⟨hcs, hds⟩ := ih h rfl
    rw [Nat.add_assoc, ← utf8Length_append] at hds
    exact ⟨.token hw hp hcs, hds⟩

/-- Along the text that begins at `o` the lines of the map go up with the line breaks. -/
def Lines (m : SourceMap) (o : Nat) (cs : List Char) : Prop :=
  ∀ a b, cs = a ++ b → m.line (some (o + utf8Length a)) = m.line (some o) + a.count '\n'

theorem Lines.stop (h : Lines m o cs) :
    m.line (some (o + utf8Length cs)) = m.line (some o) + cs.count '\n' := h cs [] (by simp)

theorem Lines.left (h : Lines m o (cs ++ ds)) : Lines m o cs :=
  fun a b he => h a (b ++ ds) (by rw [he, append_assoc])

theorem Lines.right (h : Lines m o (cs ++ ds)) : Lines m (o + utf8Length cs) ds := by
  intro a b he
  rw [h cs ds rfl, Nat.add_assoc, ← utf8Length_append, h (cs ++ a) b (by rw [he, append_assoc]),
    count_append, Nat.add_assoc]

theorem SourceMap.line_pos (m : SourceMap) (o : Nat) : 0 < m.line (some o) := Nat.succ_pos _

theorem SourceMap.length_startsFrom (o : Nat) (cs : List Char) :
    (startsFrom o cs).length = cs.count '\n' := by
  induction cs generalizing o with
  | nil => rfl
  | cons c cs ih =>
    rw [startsFrom, count_cons]
    split <;> simp_all

theorem SourceMap.lt_of_mem_startsFrom {s : Nat} (h : s ∈ startsFrom o cs) : o < s := by
  induction cs generalizing o with
  | nil => cases h
  | cons c cs ih =>
    have hpos := Char.utf8Size_pos c
    rw [startsFrom] at h
    split at h
    · rcases mem_cons.1 h with rfl | h
      · omega
      · exact Nat.lt_trans (by omega) (ih h)
    · exact Nat.lt_trans (by omega) (ih h)

theorem SourceMap.line_front (name front after : String) :
    (ofText name (front ++ after)).line (some (utf8Length front.toList)) = 1 +
      front.toList.count '\n' := by
  have hzero : (startsFrom 0 after.toList).countP (· ≤ 0) = 0 := by
    refine countP_eq_zero.2 fun s hs => ?_
    simpa using Nat.ne_of_gt (lt_of_mem_startsFrom hs)
  have hadd := line_append name front after 0
  rwa [Nat.zero_add, line_ofText name after, hzero, length_startsFrom] at hadd

theorem Lines.of_text (name front text after : String) :
    Lines (.ofText name (front ++ text ++ after)) (utf8Length front.toList) text.toList := by
  intro a b he
  have htext : text = String.ofList a ++ String.ofList b := by
    rw [← String.toList_inj, String.toList_append, String.toList_ofList, String.toList_ofList, he]
  have hwhole :
      front ++ text ++ after = front ++ String.ofList a ++ (String.ofList b ++ after) := by
    simp only [htext, String.append_assoc]
  have hlong := SourceMap.line_front name (front ++ String.ofList a) (String.ofList b ++ after)
  have hshort := SourceMap.line_front name front (text ++ after)
  rw [← hwhole, String.toList_append, String.toList_ofList, utf8Length_append,
    count_append] at hlong
  rw [← String.append_assoc] at hshort
  rw [hlong, hshort, Nat.add_assoc]

/-- The tokens `ts` are those of the text `t`, and `R` holds of the offsets where the text begins
and ends whenever the tokens are where the text has them. -/
structure Echo (m : SourceMap) (t : String) (ts : List Token) (R : Nat → Nat → Prop) : Prop where
  spaced : Spaced t.toList (ts.map Token.text)
  holds : ∀ o, Lines m o t.toList → Placed o t.toList ts → R o (o + utf8Length t.toList)

namespace Echo

variable {m : SourceMap} {t t' : String} {ts ts' : List Token} {R R' : Nat → Nat → Prop}

theorem mono (h : Echo m t ts R) (hR : ∀ o o', R o o' → R' o o') : Echo m t ts R' :=
  ⟨h.spaced, fun o hl hp => hR _ _ (h.holds o hl hp)⟩

theorem of_eq (h : Echo m t ts R) (ht : t' = t) (hts : ts' = ts) : Echo m t' ts' R := ht ▸ hts ▸ h

/-- Another text for the same, and what follows from it. -/
theorem as (h : Echo m t ts R) (ht : t' = t) (hts : ts' = ts) (hR : ∀ o o', R o o' → R' o o') :
    Echo m t' ts' R' :=
  (h.of_eq ht hts).mono hR

theorem lines (h : Echo m t ts R) :
    Echo m t ts fun o o' => R o o' ∧ m.line (some o') = m.line (some o) + t.toList.count '\n' :=
  ⟨h.spaced, fun o hl hp => ⟨h.holds o hl hp, hl.stop⟩⟩

theorem append (h : Echo m t ts R) (h' : Echo m t' ts' R') :
    Echo m (t ++ t') (ts ++ ts') fun o o'' => ∃ o', R o o' ∧ R' o' o'' where
  spaced := by
    rw [String.toList_append, map_append]
    exact h.spaced.append h'.spaced
  holds o hl hp := by
    rw [String.toList_append] at hl hp ⊢
    obtain ⟨hp, hp'⟩ := hp.split h.spaced
    refine ⟨_, h.holds o hl.left hp, ?_⟩
    rw [utf8Length_append, ← Nat.add_assoc]
    exact h'.holds _ hl.right hp'

theorem empty (m : SourceMap) : Echo m "" [] fun o o' => o' = o := ⟨.nil, fun _ _ _ => rfl⟩

/-- A text without tokens. Lines go up with its line breaks. -/
theorem gap (m : SourceMap) (ht : t.toList.all isGap = true) :
    Echo m t [] fun o o' => m.line (some o') = m.line (some o) + t.toList.count '\n' :=
  ⟨.of_gap ht, fun _ hl _ => hl.stop⟩

theorem token (m : SourceMap) (hx : opensToken x.text.toList = true) (hn : x.text ≠ "chan") :
    Echo m x.text [x] fun o o' => (∀ p ∈ x.place, p = some o) ∧
    o' = o + utf8Length x.text.toList where
  spaced := by
    have hs : Spaced (x.text.toList ++ []) [x.text] := .token hx (by simp [endsToken, hn]) .nil
    simpa using hs
  holds o hl hp := by
    rw [← append_nil x.text.toList] at hp
    exact ⟨(hp.of_token hx).1, rfl⟩

theorem lit (m : SourceMap) (t : String) (ts : List Token) (ws : List String)
    (hws : ts.map Token.text = ws) (ht : spaces ws t.toList = true) :
    Echo m t ts fun o o' => (opensToken t.toList = true → ∀ x ∈ ts.head?, ∀ p ∈ x.place, p =
      some o) ∧
      o' = o + utf8Length t.toList ∧ m.line (some o') = m.line (some o) + t.toList.count '\n' where
  spaced := by
    rw [hws]
    exact .of_spaces ht
  holds o hl hp := by
    refine ⟨fun hopens x hx => ?_, rfl, hl.stop⟩
    obtain ⟨us, rfl⟩ := head?_eq_some_iff.1 hx
    generalize t.toList = cs at hopens hp
    generalize hts : x :: us = ts at hp
    cases hp with
    | nil => cases hts
    | gap hc => simp [opensToken, hc] at hopens
    | token _ hp =>
      obtain ⟨rfl, -⟩ := List.cons.inj hts
      exact hp

theorem word (m : SourceMap) (t : String) (p : Pos) (w : String) (ht : spaces [w] t.toList = true) :
    Echo m t [.placed p w] fun _ _ => True :=
  (lit m t [.placed p w] [w] rfl ht).mono fun _ _ _ => trivial

theorem looseWord (m : SourceMap) (t : String) (w : String) (ht : spaces [w] t.toList = true) :
    Echo m t [.loose w] fun _ _ => True :=
  (lit m t [.loose w] [w] rfl ht).mono fun _ _ _ => trivial

theorem blank (m : SourceMap) : Echo m " " [] fun _ _ => True :=
  (gap m (by decide)).mono fun _ _ _ => trivial

end Echo

/-- Texts one behind the other, with all their tokens. The texts of the last list follow from the
places of the tokens. -/
inductive Echoes (m : SourceMap) : List String → List Token → List String → Prop
  | nil : Echoes m [] [] []
  | cons {t u : String} {ts : List Token} {tl ul : List String} {tsl : List Token}
      (h : Echo m t ts fun _ _ => u = t)
      (hs : Echoes m tl tsl ul) : Echoes m (t :: tl) (ts ++ tsl) (u :: ul)

namespace Echoes

variable {m : SourceMap} {tl ul : List String} {ts : List Token}

theorem join {before after : String} (hb : before.toList.all isGap = true)
    (ha : after.toList.all isGap = true) (h : Echoes m tl ts ul) :
    Echo m (String.join (tl.map fun t => before ++ t ++ after)) ts fun _ _ => ul = tl := by
  induction h with
  | nil => exact (Echo.empty m).mono fun _ _ _ => rfl
  | cons h _ ih =>
    refine ((((Echo.gap m hb).append h).append (.gap m ha)).append ih).as (by simp) (by simp) ?_
    rintro o o' ⟨_, ⟨_, ⟨_, -, rfl⟩, -⟩, rfl⟩
    rfl

theorem intercalate {sep : String} (hsep : sep.toList.all isGap = true) (h : Echoes m tl ts ul) :
    Echo m (sep.intercalate tl) ts fun _ _ => ul = tl := by
  induction h with
  | nil => exact (Echo.empty m).as (by simp) rfl fun _ _ _ => rfl
  | @cons t u ts tl ul tsl h hs ih =>
    cases tl with
    | nil =>
      cases hs
      exact h.as (by simp) (by simp) fun _ _ he => by rw [he]
    | cons t' tl =>
      refine ((h.append (.gap m hsep)).append ih).as (String.intercalate_cons_of_ne_nil (by simp))
        (by simp) ?_
      rintro o o' ⟨_, ⟨_, rfl, -⟩, rfl⟩
      rfl

end Echoes

end GoFun
