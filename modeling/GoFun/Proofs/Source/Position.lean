import GoFun.Proofs.Text.Quoted
import GoFun.Source.Position

/-!
# Positions are shown in one way

The line and the column of an offset determine the offset, and the text of a position determines the
position.
-/
namespace GoFun

variable {m : SourceMap}

/-- The maps that are ever made: the map of a text, and the map of a tree that was not read from
text. -/
inductive SourceMap.Built : SourceMap → Prop where
  | empty : Built .empty
  | ofText (name text : String) : Built (.ofText name text)

namespace SourceMap

theorem Built.start_zero (h : m.Built) : m.starts[0]?.getD 0 = 0 := by
  cases h <;> rfl

theorem startOrder_eq_iff {offset line : Nat} {o : Ordering} (ho : o ≠ .gt) :
    m.startOrder offset line = o ↔
      ∃ start, m.starts[line]? = some start ∧ compare start offset = o := by
  unfold startOrder
  cases m.starts[line]? with
  | none => simpa using ho.symm
  | some start => simp

theorem Built.start_le (h : m.Built) (offset : Nat) :
    m.starts[m.lineIndex offset]?.getD 0 ≤ offset := by
  unfold lineIndex
  split
  case h_1 line hfound =>
    obtain ⟨start, hs, heq⟩ := (startOrder_eq_iff (by decide)).1 (order_of_found hfound)
    rw [hs]
    exact Nat.le_of_eq (Nat.compare_eq_eq.1 heq)
  case h_2 next hvacant =>
    rcases order_of_vacant hvacant with rfl | hlt
    · rw [h.start_zero]
      exact Nat.zero_le offset
    · obtain ⟨start, hs, hlt⟩ := (startOrder_eq_iff (by decide)).1 hlt
      rw [hs]
      exact Nat.le_of_lt (Nat.compare_eq_lt.1 hlt)

theorem Built.position_inj (h : m.Built) {p q : Pos} (hpq : m.position p = m.position q) :
    p = q := by
  cases p with
  | none =>
    cases q with
    | none => rfl
    | some b => exact absurd (congrArg Position.line hpq) nofun
  | some a =>
    cases q with
    | none => exact absurd (congrArg Position.line hpq) nofun
    | some b =>
      have hline : m.lineIndex a = m.lineIndex b := Nat.succ.inj (congrArg Position.line hpq)
      have hcolumn := congrArg Position.column hpq
      have ha := h.start_le a
      have hb := h.start_le b
      simp only [position, hline] at hcolumn ha
      exact congrArg some (by omega)

end SourceMap

namespace Position

variable {p : Position}

theorem text_of_isKnown (h : p.isKnown = true) : p.text =
    (if p.name.isEmpty then "" else p.name ++ ":") ++
      (toString p.line ++ ":" ++ toString p.column) := by
  rw [text, if_pos h]
  split <;> simp [String.append_assoc]

theorem isDigit_of_mem_toString {n : Nat} {c : Char} (h : c ∈ (toString n).toList) :
    c.isDigit = true :=
  Nat.isDigit_of_mem_toDigits (by decide) (by decide) (Nat.toList_repr ▸ h)

theorem notMem_toString (n : Nat) {c : Char} (hc : c.isDigit = false) : c ∉ (toString n).toList :=
  fun h => by
  simp [isDigit_of_mem_toString h] at hc

theorem toString_inj {a b : Nat} (h : (toString a).toList = (toString b).toList) : a = b := by
  have h : Nat.toDigits 10 a = Nat.toDigits 10 b := by
    simpa only [Nat.toString_eq_repr, Nat.toList_repr] using h
  rw [← Nat.ofDigitChars_toDigits (b := 10) (n := a) (by decide) (by decide), h,
    Nat.ofDigitChars_toDigits (by decide) (by decide)]

/-- Known positions in one file are told apart by their text. -/
theorem eq_of_text_eq {q : Position} (hp : p.isKnown = true) (hq : q.isKnown = true)
    (hn : p.name = q.name) (h : p.text = q.text) : p = q := by
  rw [text_of_isKnown hp, text_of_isKnown hq, hn, String.append_right_inj] at h
  have h : (toString p.line).toList ++ ':' :: (toString p.column).toList =
      (toString q.line).toList ++ ':' :: (toString q.column).toList := by
    simpa using congrArg String.toList h
  have hcolon : ∀ n : Nat, ':' ∉ (toString n).toList := fun n => notMem_toString n rfl
  obtain ⟨hl, hc⟩ := Text.eq_and_eq_of_append_cons (hcolon _) (hcolon _) h
  obtain ⟨name, line, column⟩ := p
  obtain rfl : name = q.name := hn
  have hline : line = q.line := toString_inj hl
  have hcolumn : column = q.column := toString_inj hc
  rw [hline, hcolumn]

theorem colon_mem_text (h : p.isKnown = true) : ':' ∈ p.text.toList := by
  rw [text_of_isKnown h]
  simp

theorem newline_notMem_text (h : '\n' ∉ p.name.toList) : '\n' ∉ p.text.toList := by
  have hdigits : ∀ n : Nat, '\n' ∉ (toString n).toList := fun n => notMem_toString n rfl
  by_cases hp : p.isKnown = true
  · rw [text_of_isKnown hp]
    simp only [String.toList_append, List.mem_append, not_or]
    refine ⟨?_, ⟨hdigits _, by decide⟩, hdigits _⟩
    split <;> simp [h]
  · rw [text, if_neg hp]
    decide

theorem getLast?_text (p : Position) : p.text.toList.getLast? ≠ some '\x7b' := by
  by_cases hp : p.isKnown = true
  · have hne : (toString p.column).toList ≠ [] := by simp [Nat.toList_repr, Nat.toDigits_ne_nil]
    obtain ⟨c, hc⟩ : ∃ c, (toString p.column).toList.getLast? = some c :=
      ⟨_, List.getLast?_eq_some_getLast hne⟩
    rw [text_of_isKnown hp, String.toList_append, String.toList_append, List.getLast?_append,
      List.getLast?_append, hc]
    intro h
    obtain rfl : c = '\x7b' := Option.some.inj h
    exact notMem_toString p.column rfl (List.mem_of_getLast? hc)
  · rw [text, if_neg hp]
    decide

end Position

theorem SourceMap.Built.text_inj (h : m.Built) {p q : Pos}
    (hpq : (m.position p).text = (m.position q).text) : p = q := by
  have hdash : ':' ∉ Position.unknown.text.toList := by decide
  refine h.position_inj ?_
  cases p with
  | none =>
    cases q with
    | none => rfl
    | some b => exact absurd (Position.colon_mem_text (p := m.position (some b)) rfl) (hpq ▸ hdash)
  | some a =>
    cases q with
    | none => exact absurd (Position.colon_mem_text (p := m.position (some a)) rfl) (hpq ▸ hdash)
    | some b => exact Position.eq_of_text_eq rfl rfl rfl hpq

end GoFun
