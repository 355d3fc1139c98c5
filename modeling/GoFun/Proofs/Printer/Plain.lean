import GoFun.Proofs.Grammar.Operand

/-!
# Plain expressions

Not every tree is printed so that it can be read again: `1 .x` loses its blank, and so does `a +
+b*c`. In the plain expressions neither happens. This file says how their texts begin, and that an
operator without blanks around it never runs into its right operand.
-/
namespace GoFun

open Grammar String

attribute [local simp] Phrase.children Expr.children

variable {x e : Expr} {c : Char}
variable {opPos : Pos} {op : BinaryOp} {y : Expr}

def Expr.isNumber : Expr → Bool
  | .lit l => l.isNumber
  | _ => false

def Expr.endsInNumber : Expr → Bool
  | .lit l => l.isNumber
  | .star _ x | .unary _ _ x | .binary _ _ _ x | .keyValue _ _ x => x.endsInNumber
  | _ => false

def Expr.lead? : Expr → Option Lead
  | .star _ _ => some .deref
  | .unary _ op _ => some (.op op)
  | .binary x _ _ _ | .keyValue x _ _ => x.lead?
  | _ => none

def isSign (op : BinaryOp) : Lead → Bool
  | .op .plus => op == .add
  | .op .minus => op == .sub
  | _ => false

/-- A right operand with operators of its own that begins with the sign in front of it. -/
def repeatsSign (op : BinaryOp) (y : Expr) : Bool := y.isBinary && y.lead?.any (isSign op)

def Expr.isPlain : Expr → Bool
  | .ident _ | .lit _ | .paren _ _ _ | .index _ _ _ _ | .slice _ _ _ _ _ _ | .star _ _
  | .unary _ _ _ | .composite _ _ _ _ | .keyValue _ _ _ => true
  | .selector x _ => !x.isNumber
  | .call _ _ args dots _ => dots.isNone || !args.getLast?.any Expr.endsInNumber
  | .binary _ _ op y => !repeatsSign op y
  | _ => false

def Phrase.isPlain : Phrase → Bool
  | .expr e => e.isPlain
  | .stmt _ => false

/-- What the grammar can have made and the printer prints faithfully. -/
def Phrase.Printable (n : Phrase) : Prop := n.isPlain = true ∧ n.Formed

theorem Expr.apart_mix (e : Expr) : e.mix.apart = 0 ∨ 4 ≤ e.mix.apart := by
  cases e with
  | binary x _ op y =>
    have hclash : clash op y = 0 ∨ 4 ≤ clash op y := by unfold clash; grind
    have hx := x.apart_mix
    have hy := y.apart_mix
    simp only [Expr.mix, Mix.union, apply_ite Mix.apart]
    split <;> split <;> omega
  | _ => exact .inl rfl

theorem four_le_cutoff (e : Expr) (depth : Nat) : 4 ≤ cutoff e depth := by
  have h := e.apart_mix
  unfold cutoff
  grind

theorem lt_cutoff_of_clash (depth : Nat) (h : clash op y = op.precedence) :
    op.precedence < cutoff (.binary x opPos op y) depth := by
  have hp := op.precedence_pos
  have happart : op.precedence ≤ (Expr.binary x opPos op y).mix.apart := by
    simp only [Expr.mix, Mix.union]
    omega
  unfold cutoff
  simp only [show 0 < (Expr.binary x opPos op y).mix.apart by omega, if_true]
  omega

def Expr.opens (e : Expr) (c : Char) : Bool :=
  match e.lead? with
  | some l => l.symbol.toList.head? == some c
  | none => startsOperand c || e.role != .plain && c == '\x7b'

theorem Expr.lead?_of_rank (h : 7 ≤ e.rank) (hr : e.role = .plain) : e.lead? = none := by
  cases e with
  | binary x _ op y => exact absurd h (by have := op.precedence_lt; simp only [Expr.rank]; omega)
  | star _ _ => simp [Expr.rank] at h
  | unary _ _ _ => simp [Expr.rank] at h
  | keyValue _ _ _ => simp [Expr.role] at hr
  | _ => rfl

theorem Expr.Fits.endsInNumber (h : e.Fits 7) : e.endsInNumber = e.isNumber := by
  cases e with
  | binary x _ op y => exact absurd h.1 (by have := op.precedence_lt; simp only [Expr.rank]; omega)
  | star _ _ => exact absurd h.1 (by simp [Expr.rank])
  | unary _ _ _ => exact absurd h.1 (by simp [Expr.rank])
  | keyValue _ _ _ => exact absurd h.2 (by simp [Expr.role])
  | _ => rfl

theorem Expr.Fits.startsOperand (h : e.Fits 7) (hc : e.opens c = true) :
    Grammar.startsOperand c = true := by
  simpa [Expr.opens, Expr.lead?_of_rank h.1 h.2, h.2] using hc

theorem Expr.opens_of_lead?_eq (hl : e.lead? = x.lead?) (hr : x.role = .plain ∨ e.role ≠ .plain)
    (hc : x.opens c = true) :
    e.opens c = true := by
  unfold Expr.opens at hc ⊢
  rw [hl]
  grind

/-- Without a blank, an operator does not run into its right operand. -/
theorem blank_or_apart (depth : Nat) (hy : y.Fits (op.precedence + 1))
    (hs : repeatsSign op y = false) :
    op.precedence < cutoff (.binary x opPos op y) depth ∨
      ∀ c, y.opens c = true → (longer op).toList.contains c = false ∧ (op = .quo → c ≠ '*') := by
  by_cases hweak : op.precedence < 4
  · exact .inl (Nat.lt_of_lt_of_le hweak (four_le_cutoff _ depth))
  by_cases hclash : clash op y = op.precedence
  · exact .inl (lt_cutoff_of_clash depth hclash)
  refine .inr fun c hc => ?_
  cases hl : y.lead? with
  | none =>
    have hc : startsOperand c = true := by simpa [Expr.opens, hl, hy.2] using hc
    constructor
    · have hall : ∀ op : BinaryOp, (longer op).toList.all (!startsOperand ·) = true := by
        intro op
        cases op <;> decide
      exact Lex.contains_eq_false (hall op) c hc
    · rintro - rfl
      exact absurd hc (by decide)
  | some l =>
    have hc : l.symbol.toList.head? = some c := by simpa [Expr.opens, hl] using hc
    cases y with
    | star _ z =>
      obtain rfl : .deref = l := Option.some.inj hl
      obtain rfl : '*' = c := Option.some.inj hc
      refine ⟨by cases op <;> rfl, ?_⟩
      rintro rfl
      exact absurd rfl hclash
    | unary _ u z =>
      obtain rfl : .op u = l := Option.some.inj hl
      cases u <;> obtain rfl := Option.some.inj hc <;> cases op <;>
        first | exact absurd rfl hclash | exact absurd (by decide) hweak | decide
    | binary x' _ op' y' =>
      -- Only products and the like bind more strongly than the operator, so it is a sign.
      have hrank : op.precedence < op'.precedence := hy.1
      have hsign : op.precedence = 4 := by
        have := op'.precedence_lt
        omega
      have hne : isSign op l = false := by simpa [repeatsSign, Expr.isBinary, hl] using hs
      cases op <;> simp [BinaryOp.precedence] at hsign <;> cases l with
      | deref => obtain rfl := Option.some.inj hc; decide
      | op u =>
        cases u <;> obtain rfl :=
          Option.some.inj hc <;> first | exact absurd hne (by decide) | decide
    | keyValue _ _ _ => cases hy.2
    | _ => simp [Expr.lead?] at hl

/-- In a slot that asks for no parentheses, the text of an expression begins as `Expr.opens`
says. -/
def Phrase.Begins : Phrase → Prop
  | .expr e => ∀ m level slot, slot.bare = false → slot.strength ≤ e.rank →
      ∃ c t, (e.print m level slot).toList = c :: t ∧ e.opens c = true
  | .stmt _ => True

theorem Phrase.Begins.suffix (hx : Phrase.Begins (.expr x)) (hf : x.Fits 7) (he : e.lead? = none)
    {m : SourceMap} {level : Nat} {slot : Slot} (hb : slot.bare = false) (hs : slot.strength ≤ 7)
    {cs : List Char} :
    ∃ c t, (x.print m level slot).toList ++ cs = c :: t ∧ e.opens c = true := by
  obtain ⟨c, t, ht, hc⟩ := hx m level slot hb (Nat.le_trans hs hf.1)
  exact ⟨c, t ++ cs, by simp [ht], by simp [Expr.opens, he, hf.startsOperand hc]⟩

theorem Phrase.Printable.begins {n : Phrase} (h : Throughout Phrase.Printable n) : n.Begins := by
  induction h with
  | @intro n here _ ih =>
    obtain ⟨hplain, hformed⟩ := here
    cases n with
    | stmt s => trivial
    | expr e =>
      intro m level slot hbare hslot
      cases e with
      | ident id =>
        obtain ⟨c, t, ht, hc⟩ := IsName.head hformed
        exact ⟨c, t, by simpa [Expr.print] using ht, by simp [Expr.opens, Expr.lead?, startsOperand,
          hc]⟩
      | lit l =>
        obtain ⟨c, t, ht, hc⟩ := Literal.IsWritten.head hformed
        exact ⟨c, t, by simpa [Expr.print] using ht, by simp [Expr.opens, Expr.lead?, startsOperand,
          hc]⟩
      | paren lparen x rparen =>
        have hx := ih (.expr x) (by simp)
        simp only [Expr.print, hbare, Bool.false_eq_true, if_false]
        split
        case isTrue hp =>
          cases x with
          | paren _ _ _ => exact hx m level _ rfl (Nat.zero_le _)
          | _ => simp [Expr.isParen] at hp
        case isFalse => exact ⟨'(', _, by simp; rfl, by simp [Expr.opens, Expr.lead?,
          startsOperand]⟩
      | selector x sel =>
        have hx := ih (.expr x) (by simp)
        simp only [Expr.print, toList_append, List.append_assoc]
        exact hx.suffix hformed.1 rfl rfl (Nat.le_refl 7)
      | index x lbrack i rbrack =>
        have hx := ih (.expr x) (by simp)
        simp only [Expr.print, toList_append, List.append_assoc]
        exact hx.suffix hformed.1 rfl rfl (Nat.le_refl 7)
      | slice x lbrack low high max rbrack =>
        have hx := ih (.expr x) (by simp)
        simp only [Expr.print, toList_append, List.append_assoc]
        exact hx.suffix hformed.1 rfl rfl (Nat.le_refl 7)
      | call f lparen args dots rparen =>
        have hx := ih (.expr f) (by simp)
        simp only [Expr.print, toList_append, List.append_assoc]
        exact hx.suffix hformed.1 rfl rfl (Nat.le_refl 7)
      | composite t lbrace elems rbrace =>
        simp only [Expr.print, toList_append, List.append_assoc]
        cases t with
        | none => exact ⟨'\x7b', _, by simp [printExpr?]; rfl, by simp [Expr.opens, Expr.lead?,
          Expr.role]⟩
        | some t =>
          have hx := ih (.expr t) (by simp)
          simp only [printExpr?]
          exact hx.suffix (hformed.1 t rfl) rfl rfl (Nat.le_refl 7)
      | star starPos x =>
        have hs : ¬ 6 < slot.strength := Nat.not_lt.2 hslot
        simp only [Expr.print, hs, if_false, toList_append]
        exact ⟨'*', _, rfl, rfl⟩
      | unary opPos op x =>
        have hs : ¬ 6 < slot.strength := Nat.not_lt.2 hslot
        simp only [Expr.print, hs, if_false, toList_append]
        obtain ⟨c, t, ht⟩ : ∃ c t, op.symbol.toList = c :: t := by cases op <;> exact ⟨_, _, rfl⟩
        exact ⟨c, _, by rw [ht]; rfl, by simp [Expr.opens, Expr.lead?, Lead.symbol, ht]⟩
      | binary x opPos op y =>
        have hx := ih (.expr x) (by simp)
        have hs : ¬ op.precedence < slot.strength := Nat.not_lt.2 hslot
        simp only [Expr.print, hs, decide_false, Bool.false_eq_true, if_false, toList_append,
          List.append_assoc]
        obtain ⟨c, t, ht, hc⟩ := hx m level ⟨op.precedence, _, false⟩ rfl hformed.1.1
        exact ⟨c, _, by rw [ht]; rfl, Expr.opens_of_lead?_eq (by rw [Expr.lead?]) (.inl hformed.1.2)
          hc⟩
      | keyValue key colon value =>
        have hx := ih (.expr key) (by simp)
        obtain ⟨c, t, ht, hc⟩ := hx m level { depth := slot.depth } rfl (Nat.zero_le _)
        refine ⟨c, _, by simp only [Expr.print, toList_append, ht]; rfl, ?_⟩
        exact Expr.opens_of_lead?_eq (by rw [Expr.lead?]) (.inr (by simp [Expr.role])) hc
      | _ => simp [Phrase.isPlain, Expr.isPlain] at hplain

theorem Expr.opens_cases (h : e.opens c = true) :
    startsOperand c = true ∨ startsLead c = true ∨ e.role ≠ .plain ∧ c = '\x7b' := by
  unfold Expr.opens at h
  split at h
  case h_1 l hl =>
    have hstarts : ∀ l : Lead, l.symbol.toList.head?.all startsLead = true := by
      rintro (_ | o)
      · decide
      · cases o <;> decide
    have hall := hstarts l
    rw [eq_of_beq h] at hall
    exact .inr (.inl (by simpa using hall))
  case h_2 => grind

theorem Expr.layout_of_opens (h : e.opens c = true) : Lex.startsLayout c = false := by
  rcases Expr.opens_cases h with h | h | ⟨-, rfl⟩
  · exact Lex.contains_eq_false (by decide) c h
  · exact Lex.contains_eq_false (by decide) c h
  · decide

theorem Phrase.Begins.stops_layout (h : Phrase.Begins (.expr e)) (m : SourceMap) (level : Nat)
    (slot : Slot) (hb : slot.bare = false) (hs : slot.strength ≤ e.rank) (rest : List Char) :
    Lex.Stops Lex.startsLayout ((e.print m level slot).toList ++ rest) := by
  obtain ⟨c, t, ht, hc⟩ := h m level slot hb hs
  rw [ht]
  simpa using Expr.layout_of_opens hc

end GoFun
