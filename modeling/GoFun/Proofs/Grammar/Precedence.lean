import Mathlib.Data.List.TakeWhile
import GoFun.Proofs.Grammar.Widen

/-!
# Chains of operators

A chain is a sequence of operands with binary operators between them. Each level of the grammar
takes the operands as far as its operators and all stronger ones reach, and joins them from the
left. What comes out is the one tree that reads like the chain and has its operators in layers.
-/
namespace GoFun

open Parser Grammar Lex List

variable {e x y : Expr} {op : BinaryOp} {p : Char → Bool}

/-- The operands and operators of a tree from left to right. -/
def Expr.reading : Expr → List (Expr ⊕ BinaryOp)
  | .binary x _ op y => x.reading ++ .inr op :: y.reading
  | e => [.inl e]

/-- An operator on the left binds at least as strongly as the one above it, an operator on the right
binds more strongly. -/
def Expr.Layered : Expr → Prop
  | .binary x _ op y => x.Layered ∧ y.Layered ∧ op.precedence ≤ x.rank ∧ op.precedence < y.rank
  | _ => True

theorem Expr.reading_of_rank (h : 6 ≤ e.rank) : e.reading = [.inl e] := by
  cases e with
  | binary x opPos op y => exact absurd op.precedence_lt (by simpa [Expr.rank] using h)
  | _ => rfl

theorem Expr.layered_of_rank (h : 6 ≤ e.rank) : e.Layered := by
  cases e with
  | binary x opPos op y => exact absurd op.precedence_lt (by simpa [Expr.rank] using h)
  | _ => trivial

/-- All operators of a layered tree bind at least as strongly as the outermost one. -/
theorem Expr.Layered.rank_le (h : e.Layered) (hop : .inr op ∈ e.reading) :
    e.rank ≤ op.precedence := by
  fun_induction Expr.reading e with
  | case1 x opPos o y ihx ihy =>
    obtain ⟨hx, hy, hlx, hly⟩ := h
    rcases mem_append.1 hop with hop | hop
    · exact Nat.le_trans hlx (ihx hx hop)
    · rcases mem_cons.1 hop with hop | hop
      · obtain rfl := Sum.inr.inj hop
        exact Nat.le_refl _
      · exact Nat.le_trans (Nat.le_of_lt hly) (ihy hy hop)
  | case2 => simp at hop

/-- The outermost operators of two layered trees of one reading stand at the same place: otherwise
each of them would be an operator below the other one. -/
theorem Expr.Layered.split {x' y' : Expr} {pos pos' : Pos} {op' : BinaryOp}
    (h : (Expr.binary x pos op y).Layered) (h' : (Expr.binary x' pos' op' y').Layered)
    (he : x.reading ++ .inr op :: y.reading = x'.reading ++ .inr op' :: y'.reading) :
    x.reading = x'.reading ∧ op = op' ∧ y.reading = y'.reading := by
  have key : ∀ {x y x' y' : Expr} {op op' : BinaryOp} {mid : List (Expr ⊕ BinaryOp)}, y.Layered →
      x'.Layered →
      op.precedence < y.rank → op'.precedence ≤ x'.rank → x'.reading = x.reading ++ .inr op :: mid →
      y.reading = mid ++ .inr op' :: y'.reading → False := by
    intro x y x' y' op op' mid hy hx' hly hlx' hx hy'
    have h₁ : y.rank ≤ op'.precedence := hy.rank_le (by simp [hy'])
    have h₂ : x'.rank ≤ op.precedence := hx'.rank_le (by simp [hx])
    omega
  obtain ⟨hx, hy, hlx, hly⟩ := h
  obtain ⟨hx', hy', hlx', hly'⟩ := h'
  rcases append_eq_append_iff.1 he with ⟨mid, hm, hr⟩ | ⟨mid, hm, hr⟩
  · cases mid with
    | nil => simp_all
    | cons a mid =>
      obtain ⟨rfl, htail⟩ := List.cons.inj hr
      exact (key hy hx' hly hlx' hm htail).elim
  · cases mid with
    | nil => simp_all
    | cons a mid =>
      obtain ⟨rfl, htail⟩ := List.cons.inj hr
      exact (key hy' hx hly' hlx hm htail).elim

theorem Expr.eq_binary_or_rank (e : Expr) :
    (∃ x pos op y, e = .binary x pos op y) ∨ 6 ≤ e.rank := by
  cases e with
  | binary x pos op y => exact .inl ⟨x, pos, op, y, rfl⟩
  | _ => simp [Expr.rank]

theorem Expr.Layered.shape (h : e.Layered) : (e.shape .kept).Layered := by
  fun_induction Expr.Layered e with
  | case1 x pos op y ihx ihy =>
    obtain ⟨hx, hy, hlx, hly⟩ := h
    exact ⟨ihx hx, ihy hy, by rwa [Expr.rank_shape], by rwa [Expr.rank_shape]⟩
  | case2 e hne =>
    rcases e.eq_binary_or_rank with ⟨x, pos, op, y, rfl⟩ | hrank
    · exact absurd rfl (hne x pos op y)
    · exact Expr.layered_of_rank (by rwa [Expr.rank_shape])

theorem Expr.reading_binary_ne {pos : Pos} (h : 6 ≤ e.rank) :
    (Expr.binary x pos op y).reading ≠ e.reading := by
  rw [Expr.reading_of_rank h, Expr.reading]
  intro he
  have hmem : Sum.inr op ∈ [Sum.inl e] := he ▸ by simp
  simp at hmem

/-- There is only one layered tree for a reading. -/
theorem Expr.Layered.shape_eq {e' : Expr} (h : e.Layered) (h' : e'.Layered)
    (he : (e.shape .kept).reading = (e'.shape .kept).reading) : e.shape .kept = e'.shape .kept := by
  fun_induction Expr.Layered e generalizing e' with
  | case1 x pos op y ihx ihy =>
    rcases e'.eq_binary_or_rank with ⟨x', pos', op', y', rfl⟩ | hrank
    · have hshape : ((Expr.binary x pos op y).shape .kept).Layered := Expr.Layered.shape h
      obtain ⟨hx, rfl, hy⟩ := Expr.Layered.split hshape h'.shape he
      simp only [Expr.shape]
      rw [ihx h.1 h'.1 hx, ihy h.2.1 h'.2.1 hy]
    · exact absurd he (Expr.reading_binary_ne (by rwa [Expr.rank_shape]))
  | case2 e hne =>
    have hrank : 6 ≤ e.rank :=
      e.eq_binary_or_rank.resolve_left fun ⟨x, pos, op, y, he⟩ => hne x pos op y he
    rcases e'.eq_binary_or_rank with ⟨x', pos', op', y', rfl⟩ | hrank'
    · exact absurd he.symm (Expr.reading_binary_ne (by rwa [Expr.rank_shape]))
    · rw [Expr.reading_of_rank (by rwa [Expr.rank_shape]),
        Expr.reading_of_rank (by rwa [Expr.rank_shape])] at he
      exact Sum.inl.inj (List.cons.inj he).1

structure Blanks where
  chars : List Char
  blank : ∀ c ∈ chars, Lex.isBlank c = true

inductive Atom where
  | name (s : String) (isName : IsName s)
  | literal (l : Literal) (isWritten : l.IsWritten)

def Atom.text : Atom → List Char
  | name s _ => s.toList
  | literal l _ => l.text.toList

def Atom.expr : Atom → Expr
  | name s _ => .ident ⟨none, s, none⟩
  | literal l _ => .lit l.shape

/-- An atom with any number of unary operators in front of it. -/
structure Operand where
  leads : List (Lead × Blanks)
  atom : Atom

def leadsText (leads : List (Lead × Blanks)) : List Char :=
  leads.flatMap fun l => l.1.symbol.toList ++ l.2.chars

def Operand.text (x : Operand) : List Char := leadsText x.leads ++ x.atom.text

def Operand.expr (x : Operand) : Expr :=
  x.leads.foldr (fun l e => applyLead (none, l.1) e) x.atom.expr

/-- A binary operator between blanks, and the operand behind it. -/
structure Link where
  before : Blanks
  op : BinaryOp
  after : Blanks
  operand : Operand
  before_ne : before.chars ≠ []
  after_ne : after.chars ≠ []

def Link.text (l : Link) : List Char := l.op.symbol.toList ++ (l.after.chars ++ l.operand.text)

def linksText : List Link → List Char
  | [] => []
  | l :: ls => l.before.chars ++ (l.text ++ linksText ls)

/-- The text of the links where an operand has been read with the blanks behind it. -/
def resume : List Link → List Char
  | [] => []
  | l :: ls => l.text ++ linksText ls

def linksReading (ls : List Link) : List (Expr ⊕ BinaryOp) :=
  ls.flatMap fun l => [.inr l.op, .inl l.operand.expr]

theorem Link.apart (l : Link) (cs : List Char) : Apart l.op (l.after.chars ++ cs) := by
  obtain ⟨c, t, ht⟩ := exists_cons_of_ne_nil l.after_ne
  have hc := l.after.blank c (by simp [ht])
  rw [ht]
  exact apart_blank l.op hc _

theorem trim_linksText (ls : List Link) : trim isBlank (linksText ls) = resume ls := by
  cases ls with
  | nil => exact trim_nil _
  | cons l ls =>
    rw [linksText, trim_append_of_all l.before.blank, resume, Link.text, append_assoc, append_assoc]
    exact trim_operator (l.apart _)

theorem stops_linksText (hp : ∀ c, isBlank c = true → p c = false) (ls : List Link) :
    Stops p (linksText ls) := by
  cases ls with
  | nil => exact stops_nil p
  | cons l ls =>
    obtain ⟨c, t, ht⟩ := exists_cons_of_ne_nil l.before_ne
    rw [linksText, ht]
    simpa using hp c (l.before.blank c (by simp [ht]))

theorem Atom.stops_text (hp : ∀ c, startsOperand c = true → p c = false) (a : Atom)
    (cs : List Char) :
    Stops p (a.text ++ cs) := by
  cases a with
  | name s h =>
    obtain ⟨c, t, ht, hc⟩ := h.head
    simpa [Atom.text, ht] using hp c (by simp [startsOperand, hc])
  | literal l h =>
    obtain ⟨c, t, ht, hc⟩ := h.head
    simpa [Atom.text, ht] using hp c (by simp [startsOperand, hc])

theorem Operand.stops_text (hlead : ∀ c, startsLead c = true → p c = false)
    (hatom : ∀ c, startsOperand c = true → p c = false) (x : Operand) (cs : List Char) :
    Stops p (x.text ++ cs) := by
  obtain ⟨leads, atom⟩ := x
  cases leads with
  | nil => exact atom.stops_text hatom cs
  | cons l leads =>
    obtain ⟨c, t, ht, hc⟩ := l.1.symbol_head
    simpa [Operand.text, leadsText, ht] using hlead c hc

theorem Operand.stops_layout (x : Operand) (cs : List Char) : Stops startsLayout (x.text ++ cs) :=
  x.stops_text (contains_eq_false (by decide)) (contains_eq_false (by decide)) cs

section Reading

variable (n : Nat) (inHeader : Bool)

theorem idle_tail_resume (ls : List Link) : Idle (tail (rules n) inHeader) (resume ls) := by
  cases ls with
  | nil => exact (ends_of_stops n 0 (stops_nil _)).tail
  | cons l ls =>
    rw [resume, Link.text, append_assoc, append_assoc]
    exact (ends_operator n inHeader (l.apart _)).tail

theorem reads_atom (a : Atom) (ls : List Link) :
    Reads (primaryOf (rules n) inHeader) (a.text ++ linksText ls) (resume ls)
      fun e => e.shape .kept = a.expr ∧ 6 ≤ e.rank := by
  have hword : Stops Text.continuesWord (linksText ls) :=
    stops_linksText (fun c hc => by rcases eq_of_isBlank hc with rfl | rfl | rfl <;> decide) ls
  have hnumber : Stops continuesNumber (linksText ls) :=
    stops_linksText (fun c hc => by rcases eq_of_isBlank hc with rfl | rfl | rfl <;> decide) ls
  have hoperand : Reads (operand (rules n)) (a.text ++ linksText ls) (resume ls)
      fun e => e.shape .kept = a.expr ∧ 6 ≤ e.rank := by
    rw [← trim_linksText ls]
    cases a with
    | name s h =>
      refine (reads_operand_name _ h hword).mono ?_
      rintro _ ⟨id, rfl, rfl⟩
      exact ⟨rfl, by simp [Expr.rank]⟩
    | literal l h =>
      refine (reads_operand_literal _ h fun _ => hnumber).mono ?_
      rintro _ ⟨l', rfl, hl⟩
      exact ⟨congrArg Expr.lit hl, by simp [Expr.rank]⟩
  exact hoperand.bind fun e he => (idle_tail_resume n inHeader ls).many.bind fun after hafter =>
    .pure (by rw [hafter]; exact he)

theorem shape_applyLead (pos : Pos) (l : Lead) (x : Expr) :
    (applyLead (pos, l) x).shape .kept = applyLead (none, l) (x.shape .kept) := by
  cases l with
  | deref => rfl
  | op o =>
    cases o with
    | receive =>
      cases x with
      | chan chanPos dir value => cases dir <;> rfl
      | _ => rfl
    | _ => rfl

theorem six_le_rank_applyLead (l : Pos × Lead) (x : Expr) : 6 ≤ (applyLead l x).rank := by
  fun_cases applyLead l x <;> simp [Expr.rank]

theorem reads_operand (x : Operand) (ls : List Link) :
    Reads (binding (primaryOf (rules n) inHeader) 6) (x.text ++ linksText ls) (resume ls)
      fun e => e.shape .kept = x.expr ∧ 6 ≤ e.rank := by
  change Reads (unaryExpr _) _ _ _
  obtain ⟨leads, atom⟩ := x
  induction leads with
  | nil =>
    exact reads_unaryExpr (reads_atom n inHeader atom ls)
      (atom.stops_text (contains_eq_false (by decide)) _)
  | cons l leads ih =>
    have hcs : trim isBlank (l.2.chars ++ ((⟨leads, atom⟩ : Operand).text ++ linksText ls)) =
        (⟨leads, atom⟩ : Operand).text ++ linksText ls := by
      rw [trim_append_of_all l.2.blank, trim_isBlank (Operand.stops_layout _ _)]
    have hread := reads_unaryExpr_lead ih l.1 hcs
    simp only [Operand.text, leadsText, flatMap_cons, append_assoc] at hread ⊢
    refine hread.mono ?_
    rintro _ ⟨pos, x, ⟨hx, -⟩, rfl⟩
    refine ⟨?_, six_le_rank_applyLead _ _⟩
    rw [shape_applyLead, hx]
    rfl

/-- Operators as strong as `k`, or stronger. -/
def Link.binds (k : Nat) (l : Link) : Bool := k ≤ l.op.precedence

/-- What is read at level `k` of a chain: the operands and operators up to the first weaker
operator. -/
structure Climbs (k : Nat) (reading : List (Expr ⊕ BinaryOp)) (e : Expr) : Prop where
  reading : (e.shape .kept).reading = reading
  layered : e.Layered
  rank : k ≤ e.rank

theorem Climbs.join (hop : op.precedence = k) {rx ry : List (Expr ⊕ BinaryOp)} (hx : Climbs k rx x)
    (hy : Climbs (k + 1) ry y) (pos : Pos) :
    Climbs k (rx ++ .inr op :: ry) (.binary x pos op y) where
  reading := by simp only [Expr.shape, Expr.reading, hx.reading, hy.reading]
  layered := ⟨hx.layered, hy.layered, hop ▸ hx.rank, hop ▸ hy.rank⟩
  rank := Nat.le_of_eq hop.symm

theorem idle_operatorOf_resume (hk : k < 6) {ls : List Link}
    (h : ∀ l ∈ ls.head?, l.op.precedence < k) :
    Idle (operatorOf (levelAt k)) (resume ls) := by
  cases ls with
  | nil => exact idle_operators (stops_nil _) k
  | cons l ls =>
    rw [resume, Link.text, append_assoc, append_assoc]
    exact idle_stronger l.op (l.apart _).longer hk (h l rfl)

theorem reads_link_operator (l : Link) (ls : List Link) :
    Reads (operatorOf (levelAt l.op.precedence)) (resume (l :: ls)) (l.operand.text ++ linksText ls)
      fun x => x.2 = l.op := by
  have hread := reads_operatorOf l.op (l.apart (l.operand.text ++ linksText ls)).longer
  rw [trim_append_of_all fun c hc => by simp [isBlankOrNewline, l.after.blank c hc],
    trim_isBlankOrNewline (l.operand.stops_layout _)] at hread
  rw [resume, Link.text, append_assoc, append_assoc]
  exact hread

theorem length_resume_dropWhile (p : Link → Bool) (ls : List Link) :
    (resume (ls.dropWhile p)).length ≤ (linksText ls).length := by
  induction ls with
  | nil => exact Nat.le_refl _
  | cons l ls ih =>
    rw [dropWhile_cons]
    split
    · simp only [linksText, length_append]
      omega
    · rw [← trim_linksText]
      exact length_trim_le _ _

theorem takeWhile_binds (k : Nat) (ls : List Link) :
    ls.takeWhile (·.binds k) = ls.takeWhile (·.binds (k + 1)) ++
      (ls.dropWhile (·.binds (k + 1))).takeWhile (·.binds k) ∧
      ls.dropWhile (·.binds k) = (ls.dropWhile (·.binds (k + 1))).dropWhile (·.binds k) := by
  induction ls with
  | nil => simp
  | cons l ls ih =>
    by_cases hl : l.binds (k + 1) = true
    · have hl' : l.binds k = true := by simp_all [Link.binds]; omega
      simp [hl, hl', ih]
    · simp [hl]

theorem head_dropWhile_binds {ls : List Link} {l : Link}
    (h : l ∈ (ls.dropWhile (·.binds k)).head?) :
    l.op.precedence < k := by
  have hnot := head?_dropWhile_not (·.binds k) ls
  rw [Option.mem_def.1 h] at hnot
  simpa [Link.binds] using hnot

/-- The operands of a level, read along a chain. -/
def ReadsLevel (k : Nat) : Prop :=
  ∀ (x : Operand) (ls : List Link),
    Reads (binding (primaryOf (rules n) inHeader) k) (x.text ++ linksText ls)
    (resume (ls.dropWhile (·.binds k)))
    (Climbs k (.inl x.expr :: linksReading (ls.takeWhile (·.binds k))))

theorem readsLevel_six : ReadsLevel n inHeader 6 := by
  intro x ls
  have hbinds : ∀ l : Link, l.binds 6 = false :=
    fun l => by simpa [Link.binds] using l.op.precedence_lt
  have hnone : ls.takeWhile (·.binds 6) = [] ∧ ls.dropWhile (·.binds 6) = ls := by cases ls
    <;> simp [hbinds]
  rw [hnone.1, hnone.2]
  refine (reads_operand n inHeader x ls).mono fun e he => ⟨?_, Expr.layered_of_rank he.2, he.2⟩
  rw [Expr.reading_of_rank (by rw [Expr.rank_shape]; exact he.2), he.1]
  rfl

variable {n inHeader}
variable {k : Nat}

theorem reads_rounds (hk : k < 6) (hlevel : ReadsLevel n inHeader (k + 1)) {cs : List Char}
    (ls : List Link) {reading : List (Expr ⊕ BinaryOp)}
    (hhead : ∀ l ∈ ls.head?, l.op.precedence < k + 1)
    (h : Spine (binding (primaryOf (rules n) inHeader) (k + 1))
      (do return (← operatorOf (levelAt k), ← binding (primaryOf (rules n) inHeader) (k + 1)))
      (fun x st => joinBinary x st.1 st.2) cs (resume ls) (Climbs k reading)) :
    Reads (chain (binding (primaryOf (rules n) inHeader) (k + 1)) (operatorOf (levelAt k))
      joinBinary) cs
      (resume (ls.dropWhile (·.binds k)))
      (Climbs k (reading ++ linksReading (ls.takeWhile (·.binds k)))) := by
  match ls with
  | [] => simpa [linksReading] using h.chain (idle_operatorOf_resume hk (by simp))
  | l :: ls =>
    by_cases hl : l.op.precedence = k
    · have hbinds : l.binds k = true := by simp [Link.binds, hl]
      have hoperator := reads_link_operator l ls
      rw [hl] at hoperator
      have hround :
          Reads (do return (← operatorOf (levelAt k), ← binding (primaryOf (rules n) inHeader)
            (k + 1)))
          (resume (l :: ls)) (resume (ls.dropWhile (·.binds (k + 1)))) fun st => st.1.2 = l.op ∧
            Climbs (k + 1) (.inl l.operand.expr :: linksReading (ls.takeWhile (·.binds (k + 1))))
              st.2 :=
        hoperator.bind fun op hop => (hlevel l.operand ls).bind fun y hy => .pure ⟨hop, hy⟩
      have hlt : (resume (ls.dropWhile (·.binds (k + 1)))).length < (resume (l :: ls)).length := by
        have hle := length_resume_dropWhile (·.binds (k + 1)) ls
        have hpos := length_pos_iff.2 l.after_ne
        rw [resume, Link.text]
        simp only [length_append]
        omega
      have hspine := h.snoc (R := Climbs k (reading ++ .inr l.op :: .inl l.operand.expr ::
          linksReading (ls.takeWhile (·.binds (k + 1))))) hround hlt fun x st hx hst => by
        rw [joinBinary, hst.1]
        exact hx.join hl hst.2 st.1.1
      have hreads := reads_rounds hk hlevel _ (fun l' hl' => head_dropWhile_binds hl') hspine
      obtain ⟨htake, hdrop⟩ := takeWhile_binds k ls
      rw [← hdrop] at hreads
      simp only [dropWhile_cons, takeWhile_cons, hbinds, if_true]
      simpa [linksReading, htake] using hreads
    · have hweak : l.op.precedence < k := by
        have := hhead l rfl
        omega
      have hbinds : l.binds k = false := by simpa [Link.binds] using hweak
      have hidle : Idle (operatorOf (levelAt k)) (resume (l :: ls)) :=
        idle_operatorOf_resume hk (by simpa using hweak)
      simpa [hbinds, linksReading] using h.chain hidle
termination_by ls.length
decreasing_by
  have := (dropWhile_suffix (·.binds (k + 1)) (l := ls)).length_le
  simp only [length_cons]
  omega

theorem ReadsLevel.weaken (hk : 0 < k) (hk' : k < 6) (hlevel : ReadsLevel n inHeader (k + 1)) :
    ReadsLevel n inHeader k := by
  intro x ls
  have hfirst : Spine (binding (primaryOf (rules n) inHeader) (k + 1))
      (do return (← operatorOf (levelAt k), ← binding (primaryOf (rules n) inHeader) (k + 1)))
      (fun x st => joinBinary x st.1 st.2) (x.text ++ linksText ls)
      (resume (ls.dropWhile (·.binds (k + 1))))
      (Climbs k (.inl x.expr :: linksReading (ls.takeWhile (·.binds (k + 1))))) :=
    (Spine.of_reads (hlevel x ls)).mono fun e he =>
      ⟨he.reading, he.layered, Nat.le_of_succ_le he.rank⟩
  have hreads := reads_rounds hk' hlevel _ (fun l hl => head_dropWhile_binds hl) hfirst
  obtain ⟨htake, hdrop⟩ := takeWhile_binds k ls
  rw [binding_eq_chain _ hk hk', hdrop, htake]
  simpa [linksReading] using hreads

theorem readsLevel_one : ReadsLevel n inHeader 1 := by
  have h₅ := (readsLevel_six n inHeader).weaken (k := 5) (by decide) (by decide)
  have h₄ := h₅.weaken (k := 4) (by decide) (by decide)
  have h₃ := h₄.weaken (k := 3) (by decide) (by decide)
  have h₂ := h₃.weaken (k := 2) (by decide) (by decide)
  exact h₂.weaken (by decide) (by decide)

theorem reads_chain (x : Operand) (ls : List Link) :
    Reads (binding (primaryOf (rules n) inHeader) 0) (x.text ++ linksText ls) []
      (Climbs 1 (.inl x.expr :: linksReading ls)) := by
  have hall : ∀ l ∈ ls, l.binds 1 = true := fun l _ => decide_eq_true l.op.precedence_pos
  have htake : ls.takeWhile (·.binds 1) = ls := takeWhile_eq_self_iff.2 hall
  have hdrop : ls.dropWhile (·.binds 1) = [] := dropWhile_eq_nil_iff.2 hall
  have hlevel : ReadsLevel n inHeader 1 := readsLevel_one
  have hreads := hlevel x ls
  rw [htake, hdrop] at hreads
  exact hreads

end Reading

/-- Both grammars of expressions read a whole chain, as one and the same tree: the tree reads like
the chain, its operators stand in layers, and no other layered tree reads like the chain. -/
theorem exprs_read_chain (n o : Nat) (x : Operand) (ls : List Link) :
    ∃ e o', expr (rules n) ⟨o, x.text ++ linksText ls⟩ = some (e, ⟨o', []⟩) ∧
      headerExpr (rules n) ⟨o, x.text ++ linksText ls⟩ = some (e, ⟨o', []⟩) ∧
      (e.shape .kept).reading = .inl x.expr :: linksReading ls ∧ e.Layered ∧
      ∀ e' : Expr, e'.Layered → (e'.shape .kept).reading = .inl x.expr :: linksReading ls →
        e'.shape .kept = e.shape .kept := by
  have hreads : Reads (headerExpr (rules n)) (x.text ++ linksText ls) []
      (Climbs 1 (.inl x.expr :: linksReading ls)) :=
        headerExpr_eq_binding (rules n) ▸ reads_chain x ls
  obtain ⟨e, o', hheader, hclimbs⟩ := hreads o
  have hexpr := (widens_expr n).reads _ _ _ hheader (Lex.stops_nil _)
  refine ⟨e, o', hexpr, hheader, hclimbs.reading, hclimbs.layered, fun e' hlayered hreading => ?_⟩
  exact hlayered.shape_eq hclimbs.layered (hreading.trans hclimbs.reading.symm)

end GoFun
