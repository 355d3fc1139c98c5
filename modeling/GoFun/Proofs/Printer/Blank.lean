import GoFun.Proofs.Printer.Plain
import GoFun.Proofs.Source.Read

/-!
# Blanks behind binary operators

An operator printed without blanks may run into the sign that its right operand begins with. The
cutoff keeps the two apart where the operand is that sign with what it applies to. Where the operand
is a product whose first factor has the sign, nothing is kept apart: inside brackets, `a + +b*c`
loses its blanks.
-/
namespace GoFun

open Grammar

attribute [local simp] Phrase.children Expr.children

variable {x : Expr} {op : BinaryOp}
variable {opPos : Pos} {y : Expr} {c : Char} {m : SourceMap} {slot : Slot}

/-- What an operator can be read as together with the character behind it. -/
def runOns : List String := ["++", "--", "&&", "&^", "/*"]

/-- Without a blank, the operator and the text behind it would be read as another token or as a
comment. -/
def runsInto (op : BinaryOp) (text : String) : Bool :=
  runOns.any (·.toList == op.symbol.toList.getLast?.toList ++ text.toList.head?.toList)

/-- The depth of an operator that is printed in a slot, inside the parentheses that it may get. -/
def Slot.inner (slot : Slot) (op : BinaryOp) : Nat :=
  if op.precedence < slot.strength then shallower slot.depth else slot.depth

def Slot.ahead (slot : Slot) (x : Expr) (op : BinaryOp) : Slot where
  strength := op.precedence
  depth := if x.strength == op.precedence then slot.inner op else slot.inner op + 1

def Slot.behind (slot : Slot) (op : BinaryOp) : Slot where
  strength := op.precedence + 1
  depth := slot.inner op + 1

/-- Parentheses around an operator that binds less strongly than its slot asks for. -/
def Slot.around (slot : Slot) (op : BinaryOp) (text : String) : String :=
  if op.precedence < slot.strength then "(" ++ text ++ ")" else text

/-- A nested sum whose right operand is a product, with no operator that is kept apart from its
operand. -/
def Expr.isCrowded (depth : Nat) : Expr → Bool
  | .binary x opPos op y =>
    op.precedence == 4 && y.isBinary && (Expr.binary x opPos op y).mix.apart == 0 && depth != 1
  | _ => false

section Binary

variable (m : SourceMap) (level : Nat) (slot : Slot) (x : Expr) (opPos : Pos) (op : BinaryOp)
  (y : Expr)

theorem Expr.print_binary : (Expr.binary x opPos op y).print m level slot =
    let blank := if op.precedence < cutoff (.binary x opPos op y) slot.depth then " " else ""
    slot.around op (x.print m level (slot.ahead x op) ++ blank ++ op.symbol ++ blank ++
      y.print m level (slot.behind op)) := by
  by_cases h : op.precedence < slot.strength
    <;> simp [Expr.print, Slot.around, Slot.ahead, Slot.behind, Slot.inner, h]

end Binary

/-- A sum with a product on its right loses its blanks where it is nested, unless some operator of
it is kept apart. -/
theorem lt_cutoff_iff_of_product (hy : y.isBinary = true) (hrank : op.precedence < y.rank)
    (hp : op.precedence = 4) (depth : Nat) : op.precedence < cutoff (.binary x opPos op y) depth ↔
      ¬ ((Expr.binary x opPos op y).mix.apart = 0 ∧ depth ≠ 1) := by
  obtain ⟨x', opPos', op', y', rfl⟩ : ∃ x' opPos' op' y', y = .binary x' opPos' op' y' := by
    cases y <;> simp_all [Expr.isBinary]
  have hfive : op'.precedence = 5 := by
    have hlt : op.precedence < op'.precedence := hrank
    have := op'.precedence_lt
    omega
  have hmix : (Expr.binary x opPos op (.binary x' opPos' op' y')).mix.has4 = true ∧
      (Expr.binary x opPos op (.binary x' opPos' op' y')).mix.has5 = true := by
    have hright :
        (Expr.binary x' opPos' op' y').mix.has5 = true := by simp [Expr.mix, Mix.union, hfive]
    constructor
    · simp [Expr.mix, Mix.union, hp]
    · rw [Expr.mix]
      simp [Mix.union, Expr.strength, hp, hfive, hright]
  unfold cutoff
  grind [Expr.apart_mix]

def isSignChar (c : Char) : Bool := "+-^&*".toList.contains c

theorem isSignChar_of_startsOperand (h : startsOperand c = true) : isSignChar c = false :=
  Lex.contains_eq_false (by decide) c h

/-- An expression that needs no operator begins with no sign. -/
def Phrase.Unsigned : Phrase → Prop
  | .expr e => e.Fits 7 → ∀ m level slot, slot.bare = false →
      ∃ c t, (e.print m level slot).toList = c :: t ∧ isSignChar c = false
  | .stmt _ => True

theorem Phrase.Unsigned.suffix (hx : Phrase.Unsigned (.expr x)) (hf : x.Fits 7) {level : Nat}
    (hb : slot.bare = false)
    (cs : List Char) :
    ∃ c t, (x.print m level slot).toList ++ cs = c :: t ∧ isSignChar c = false := by
  obtain ⟨c, t, ht, hc⟩ := hx hf m level slot hb
  exact ⟨c, t ++ cs, by simp [ht], hc⟩

theorem Phrase.Formed.unsigned {n : Phrase} (h : Throughout Phrase.Formed n) : n.Unsigned := by
  induction h with
  | @intro n hformed _ ih =>
    cases n with
    | stmt s => trivial
    | expr e =>
      intro hfits m level slot hbare
      cases e with
      | ident id =>
        obtain ⟨c, t, ht, hc⟩ := IsName.head hformed
        exact ⟨c, t, by simpa [Expr.print] using ht, isSignChar_of_startsOperand
          (by simp [startsOperand, hc])⟩
      | lit l =>
        obtain ⟨c, t, ht, hc⟩ := Literal.IsWritten.head hformed
        exact ⟨c, t, by simpa [Expr.print] using ht, isSignChar_of_startsOperand
          (by simp [startsOperand, hc])⟩
      | paren lparen x rparen =>
        have hx := ih (.expr x) (by simp)
        simp only [Expr.print, hbare, Bool.false_eq_true, if_false]
        split
        case isTrue hp =>
          cases x with
          | paren _ _ _ => exact hx ⟨Nat.le_refl 7, rfl⟩ m level _ rfl
          | _ => simp [Expr.isParen] at hp
        case isFalse => exact ⟨'(', _, by simp; rfl, by decide⟩
      | selector x sel =>
        simp only [Expr.print, String.toList_append, List.append_assoc]
        exact (ih (.expr x) (by simp)).suffix hformed.1 rfl _
      | index x lbrack i rbrack =>
        simp only [Expr.print, String.toList_append, List.append_assoc]
        exact (ih (.expr x) (by simp)).suffix hformed.1 rfl _
      | slice x lbrack low high max rbrack =>
        simp only [Expr.print, String.toList_append, List.append_assoc]
        exact (ih (.expr x) (by simp)).suffix hformed.1 rfl _
      | call f lparen args dots rparen =>
        simp only [Expr.print, String.toList_append, List.append_assoc]
        exact (ih (.expr f) (by simp)).suffix hformed.1 rfl _
      | assertion x lparen t rparen =>
        simp only [Expr.print, String.toList_append, List.append_assoc]
        exact (ih (.expr x) (by simp)).suffix hformed rfl _
      | composite t lbrace elems rbrace =>
        simp only [Expr.print, String.toList_append, List.append_assoc]
        cases t with
        | none => exact absurd hfits.2 (by simp [Expr.role])
        | some t => exact (ih (.expr t) (by simp)).suffix (hformed.1 t rfl) rfl _
      | star starPos x => exact absurd hfits.1 (by simp [Expr.rank])
      | unary opPos op x => exact absurd hfits.1 (by simp [Expr.rank])
      | binary x opPos op y =>
        exact absurd hfits.1 (by have := op.precedence_lt; simp only [Expr.rank]; omega)
      | keyValue key colon value => exact absurd hfits.2 (by simp [Expr.role])
      | ellipsis dots elem => exact absurd hfits.2 (by simp [Expr.role])
      | chan chanPos dir value =>
        obtain ⟨c, t, ht, hc⟩ : ∃ c t, dir.symbol.toList = c :: t ∧ isSignChar c = false := by
          cases dir <;> exact ⟨_, _, rfl, by decide⟩
        exact ⟨c, _, by simp only [Expr.print, String.toList_append, ht]; rfl, hc⟩
      | array _ _ _ => exact ⟨'[', _, by simp [Expr.print]; rfl, by decide⟩
      | map _ _ _ => exact ⟨'m', _, by simp [Expr.print]; rfl, by decide⟩
      | struct _ _ => exact ⟨'s', _, by simp [Expr.print]; rfl, by decide⟩
      | funcLit _ body =>
        obtain ⟨_, _, _⟩ := body
        exact ⟨'f', _, by simp [Expr.print]; rfl, by decide⟩
      | func _ => exact ⟨'f', _, by simp [Expr.print]; rfl, by decide⟩
      | interface _ _ => exact ⟨'i', _, by simp [Expr.print]; rfl, by decide⟩

theorem runsInto_eq_false {text : String} {t : List Char} (ht : text.toList = c :: t)
    (hc : isSignChar c = false) :
    runsInto op text = false := by
  have hall : runOns.all (fun s => s.toList.getLast?.all isSignChar) = true := by decide
  rw [runsInto, List.any_eq_false]
  intro s hs heq
  have hlast := congrArg List.getLast? (eq_of_beq heq)
  simp only [ht, List.head?_cons, Option.toList_some, List.getLast?_append,
    List.getLast?_singleton] at hlast
  have hlast' : s.toList.getLast? = some c := hlast
  simpa [hlast', hc] using List.all_eq_true.1 hall s hs

theorem runsInto_append (op : BinaryOp) {sign : String} (hs : sign ≠ "") (t : String) :
    runsInto op (sign ++ t) = runsInto op sign := by
  cases hl : sign.toList with
  | nil => exact absurd (by simpa using hl) hs
  | cons c cs => simp [runsInto, hl]

theorem clash_star_of_runsInto (hp : ¬ op.precedence < 4) (h : runsInto op "*" = true) (pos : Pos)
    (z : Expr) :
    clash op (.star pos z) = op.precedence := by
  cases op <;> first | rfl | exact absurd (by decide) hp | exact absurd h (by decide)

theorem clash_unary_of_runsInto {u : UnaryOp} (hp : ¬ op.precedence < 4)
    (h : runsInto op u.symbol = true) (pos : Pos)
    (z : Expr) : clash op (.unary pos u z) = op.precedence := by
  cases op <;> cases u <;> first | rfl | exact absurd (by decide) hp | exact absurd h (by decide)

/-- Where an operator would run into its right operand, it has blanks unless its expression is
crowded. -/
theorem lt_cutoff_iff_of_runsInto (hy : Throughout Phrase.Formed (.expr y))
    (hfits : y.Fits (op.precedence + 1)) {level : Nat}
    (h : runsInto op (y.print m level (slot.behind op)) = true) :
    op.precedence < cutoff (.binary x opPos op y) slot.depth ↔
    (Expr.binary x opPos op y).isCrowded slot.depth = false := by
  have hrank : op.precedence < y.rank := hfits.1
  have hlt := op.precedence_lt
  by_cases hweak : op.precedence < 4
  · have hne : ¬ op.precedence = 4 := by omega
    simp [Nat.lt_of_lt_of_le hweak (four_le_cutoff _ slot.depth), Expr.isCrowded, hne]
  by_cases hbinary : y.isBinary = true
  · -- only products bind more strongly, and only than sums
    have hp : op.precedence = 4 := by
      cases y <;> simp [Expr.isBinary] at hbinary
      case binary _ _ op' _ =>
        have : op.precedence < op'.precedence := hrank
        have := op'.precedence_lt
        omega
    rw [lt_cutoff_iff_of_product hbinary hrank hp]
    simp [Expr.isCrowded, hp, hbinary]
  · have hclash : clash op y = op.precedence := by
      have hstrength : ¬ 6 < (slot.behind op).strength := by simp only [Slot.behind]; omega
      cases y with
      | star pos z =>
        rw [Expr.print, if_neg hstrength, runsInto_append op (by decide)] at h
        exact clash_star_of_runsInto hweak h pos z
      | unary pos u z =>
        rw [Expr.print, if_neg hstrength, runsInto_append op (by cases u <;> decide)] at h
        exact clash_unary_of_runsInto hweak h pos z
      | binary _ _ _ _ => exact absurd rfl hbinary
      | _ =>
        obtain ⟨c, t, ht, hc⟩ :=
          Phrase.Formed.unsigned hy ⟨Nat.le_refl 7, hfits.2⟩ m level (slot.behind op) rfl
        exact absurd h (by simp [runsInto_eq_false ht hc])
    simp [lt_cutoff_of_clash slot.depth hclash, Expr.isCrowded, hbinary]

/-- However a binary expression of a source text is printed, there is a blank between its operator
and a right operand that the operator would run into, except in a crowded expression: a nested sum
with a product on its right. -/
theorem SourceUnit.print_blank_iff {name text : String} {u : SourceUnit}
    (hu : read? name text = some u) {x : Expr} {opPos : Pos} {op : BinaryOp} {y : Expr}
    (he : u.file.Has (.expr (.binary x opPos op y))) (m : SourceMap) (level : Nat) (slot : Slot) :
    ∃ blank, (blank = "" ∨ blank = " ") ∧
      (Expr.binary x opPos op y).print m level slot = slot.around op
        (x.print m level (slot.ahead x op) ++ blank ++ op.symbol ++ blank ++
        y.print m level (slot.behind op)) ∧
      (runsInto op (y.print m level (slot.behind op)) = true →
        (blank = " " ↔ (Expr.binary x opPos op y).isCrowded slot.depth = false)) := by
  have hformed := formed_of_has hu he
  have hy := hformed.child (c := .expr y) (by simp [Phrase.children, Expr.children])
  have hfits : y.Fits (op.precedence + 1) := hformed.here.2
  refine ⟨_, by split <;> simp, Expr.print_binary m level slot x opPos op y, fun h => ?_⟩
  rw [← lt_cutoff_iff_of_runsInto hy hfits h]
  split <;> simp [*]

def signsText : String := "package p\nfunc f() \x7b\ng(a + +b*c, d - -e)\n\x7d\n"

def keepsBlanks (m : SourceMap) : Phrase → Bool
  | .expr (.binary x opPos op y) => runsInto op (y.print m 0 (Slot.behind { depth := 2 } op)) &&
      !(Expr.binary x opPos op y).isCrowded 2
  | _ => false

/-- Nested as deep as the sum before it, a difference keeps its blanks in front of a minus. -/
theorem print_blank_difference : ∃ u x opPos op y, SourceUnit.read? "p.go" signsText = some u ∧
    u.file.Has (.expr (.binary x opPos op y)) ∧
    runsInto op (y.print u.map 0 (Slot.behind { depth := 2 } op)) = true ∧
    (Expr.binary x opPos op y).print u.map 0 { depth := 2 } =
      x.print u.map 0 (Slot.ahead { depth := 2 } x op) ++ " " ++ op.symbol ++ " " ++
        y.print u.map 0 (Slot.behind { depth := 2 } op) := by
  have h : (SourceUnit.read? "p.go" signsText).any fun u =>
      (u.file.at? [0, 0, 2]).any (keepsBlanks u.map) := by
    decide +kernel
  obtain ⟨u, hu, h⟩ := (Option.any_eq_true _ _).1 h
  obtain ⟨n, hn, h⟩ := (Option.any_eq_true _ _).1 h
  unfold keepsBlanks at h
  split at h
  case h_1 x opPos op y =>
    obtain ⟨hruns, hcrowded⟩ := Bool.and_eq_true_iff.1 h
    have he := File.has_of_at? hn
    obtain ⟨blank, -, hprint, hblank⟩ := SourceUnit.print_blank_iff hu he u.map 0 { depth := 2 }
    obtain rfl := (hblank hruns).2 (by simpa using hcrowded)
    exact ⟨u, x, opPos, op, y, hu, he, hruns, by simpa [Slot.around] using hprint⟩
  case h_2 => cases h

def gluesSum (m : SourceMap) : Phrase → Bool
  | .expr (.call f lparen (.binary x opPos op y :: args) dots rparen) => runsInto op (y.text m) &&
      (Expr.call f lparen (.binary x opPos op y :: args) dots rparen).text m == "g(a++b*c, d - -e)"
  | _ => false

/-- Printed as the first one of two arguments, a plus stands directly before the plus of its right
operand. -/
theorem print_sum_glued :
    ∃ u f lparen x opPos op y args dots rparen, SourceUnit.read? "p.go" signsText = some u ∧
    u.file.Has (.expr (.call f lparen (.binary x opPos op y :: args) dots rparen)) ∧
    runsInto op (y.text u.map) = true ∧
    (Expr.call f lparen (.binary x opPos op y :: args) dots rparen).text u.map =
      "g(a++b*c, d - -e)" := by
  have h : (SourceUnit.read? "p.go" signsText).any fun u =>
      (u.file.at? [0, 0]).any (gluesSum u.map) := by
    decide +kernel
  obtain ⟨u, hu, h⟩ := (Option.any_eq_true _ _).1 h
  obtain ⟨n, hn, h⟩ := (Option.any_eq_true _ _).1 h
  unfold gluesSum at h
  split at h
  case h_1 =>
    obtain ⟨hruns, htext⟩ := Bool.and_eq_true_iff.1 h
    exact ⟨u, _, _, _, _, _, _, _, _, _, hu, File.has_of_at? hn, hruns, eq_of_beq htext⟩
  case h_2 => cases h

end GoFun
