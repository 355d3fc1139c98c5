import Mathlib.Data.Option.Basic
import GoFun.Proofs.Grammar.Body

/-!
# Reading statements with headers

The rules for `if`, `for` and `switch` try simple statements and expressions one after the other on
the same text. What ends a part of a header is a semicolon or the brace of the body, and this
decides between the alternatives.
-/
namespace GoFun

open Parser Lex

namespace Grammar

variable {cs rest : List Char} {w : String} {c : Char} {op : AssignOp} {Init : Option Stmt → Prop}
  {n : Nat} {P : Stmt → Prop}
variable {g : Rules}

theorem idle_keyword_of_ne {piece : List Char} (h : word cs = some (piece, rest))
    (hne : String.ofList piece ≠ w) :
    Idle (keyword w) cs :=
  .bind' (reads_lexeme h) fun ⟨_, piece'⟩ hp =>
    .bind (.guarded (by rwa [show piece' = piece from hp]))

theorem stops_of_word {p : Char → Bool} (hp : ∀ c, Text.startsWord c = true → p c = false)
    {piece : List Char} (h : word cs = some (piece, rest)) : Stops p cs := by
  obtain ⟨c, t, -, hc, hhead⟩ := opens_word _ _ _ h
  intro d hd
  obtain rfl : c = d := Option.some.inj (hhead.symm.trans hd)
  exact hp c hc

theorem idle_operand_of_keyword (g : Rules) (h : word cs = some (w.toList, rest))
    (hk : w ∈ keywords) (ht : w ∉ typeWords) : Idle (operand g) cs := by
  have hsigns : Stops (fun c => "[<(".toList.contains c) cs :=
    stops_of_word (fun c hc => contains_eq_false (by decide) c hc) h
  have htype : OpensNoType cs := by
    refine ⟨fun w' hw' => idle_keyword_of_ne h ?_, hsigns.mono (by simp +contextual [or_imp])⟩
    rw [String.ofList_toList]
    rintro rfl
    exact ht hw'
  have hname : Idle ident cs :=
    .bind' (reads_lexeme h) fun ⟨_, piece⟩ hp =>
      .bind (.guarded (by simpa [show piece = w.toList from hp] using hk))
  have hparen : Idle (tokenNl "(") cs := idle_tokenNl_of_stops (by decide) hsigns
  have hliteral : Idle literal cs :=
    idle_literal (stops_of_word (fun _ => startsLiteral_of_startsWord) h)
  exact .orElse (.bind hliteral)
    (.orElse htype.idle_funcLit (.orElse htype.idle_literalType (.orElse htype.idle_chanType
    (.orElse htype.idle_interfaceType (.orElse (.bind hname) (.bind hparen))))))

theorem idle_binding_of_keyword (g : Rules) (inHeader : Bool) (k : Nat)
    (h : word cs = some (w.toList, rest))
    (hk : w ∈ keywords) (ht : w ∉ typeWords) : Idle (binding (primaryOf g inHeader) k) cs :=
  idle_binding (idle_primaryOf g inHeader (idle_operand_of_keyword g h hk ht))
    (stops_of_word (fun c hc => contains_eq_false (by decide) c hc) h) k

theorem idle_keyword_of_reads {next : List Char} {P : Expr → Prop}
    (h : Reads (headerExpr g) cs next P)
    (hk : w ∈ keywords) (ht : w ∉ typeWords) : Idle (keyword w) cs := by
  rw [headerExpr_eq_binding] at h
  cases hw : word cs with
  | none => exact .bind (idle_lexeme hw)
  | some x =>
    obtain ⟨piece, rest⟩ := x
    refine idle_keyword_of_ne hw ?_
    rintro rfl
    obtain ⟨a, o, ha, -⟩ := h 0
    rw [idle_binding_of_keyword g true 0 (by simpa using hw) hk ht 0] at ha
    cases ha

def endsPart (c : Char) : Bool := ";\x7b".toList.contains c

def startsSign (c : Char) : Bool := ":<>&+-*/%|^=".toList.contains c

theorem stops_startsSign (hc : endsPart c = true) (cs : List Char) :
    Stops startsSign (c :: cs) := by
  simpa using eq_false_of_contains (by decide) c hc

theorem head_assignOp (op : AssignOp) : op.symbol.toList.head?.any startsSign = true := by
  cases op <;> decide

theorem reads_assignOp {ops : List AssignOp} (h : op ∈ ops) (rest : List Char) :
    Reads (tokenOf AssignOp.symbol ops) (op.symbol.toList ++ ' ' :: rest) (' ' :: rest) fun x =>
      x.2 = op :=
  reads_tokenOf h fun b _ hne => by cases op <;> cases b <;> first | exact absurd rfl hne | rfl

section Simple

variable {expr : Parser Expr} {cs rest next : List Char} {P Q : Expr → Prop}

theorem reads_single (h : Reads expr cs rest P) (hcomma : Stops (· == ',') rest) :
    Reads (sepBy1 expr (tokenNl ",")) cs rest fun es => ∃ e, es = [e] ∧ P e :=
  h.sepBy1 (.nil (P := fun es => es = []) rfl)
    (.seqRight (idle_tokenNl_of_stops (by decide) hcomma)) fun e es he hes => ⟨e, by rw [hes], he⟩

theorem reads_simple_expr (h : Reads expr cs (c :: rest) P) (hc : endsPart c = true) :
    Reads (simpleStmt expr) cs (c :: rest) fun s => ∃ x, s = .expr x ∧ P x := by
  have hsign := stops_startsSign hc rest
  have hcomma : Stops (· == ',') (c :: rest) := by
    simpa using eq_false_of_contains (p := (· == ',')) (by decide) c hc
  exact .orElse' (.bind' (reads_single h hcomma) fun _ _ =>
      .bind (.seqLeft (idle_tokenOf_of_stops (fun op _ => head_assignOp op) hsign)))
    (.orElse' (.bind' h fun _ _ => .bind (idle_tokenNl_of_stops (by decide) hsign))
      (.orElse' (.bind' h fun _ _ => .bind (.seqLeft (idle_tokenOf_of_stops (by decide) hsign)))
        (h.bind fun x hx => .pure ⟨x, rfl, hx⟩)))

theorem reads_simple_incDec {step : Step} (h : Reads expr cs (step.symbol.toList ++ rest) P) :
    Reads (simpleStmt expr) cs (trim isBlank rest) fun s => ∃ x pos, s = .incDec x pos step ∧
    P x := by
  have hassign : ∀ op ∈ assignOps,
      op.symbol.toList.isPrefixOf (step.symbol.toList ++ rest) = false := by
    intro op _
    cases step <;> cases op <;> rfl
  have harrow : "<-".toList.isPrefixOf (step.symbol.toList ++ rest) = false := by cases step <;> rfl
  have hcomma : Stops (· == ',') (step.symbol.toList ++ rest) := by cases step
    <;> simp [Step.symbol]
  have hstep : Reads (tokenOf Step.symbol [.inc, .dec]) (step.symbol.toList ++ rest) rest fun x =>
      x.2 = step :=
    reads_tokenOf (by cases step <;> simp) fun b _ hne => by
      cases step <;> cases b <;> first | exact absurd rfl hne | rfl
  refine .orElse' (.bind' (reads_single h hcomma) fun _ _ =>
    .bind (.seqLeft (idle_tokenOf hassign)))
    (.orElse' (.bind' h fun _ _ => .bind (idle_tokenNl harrow))
      (.orElse (h.bind fun x hx => .bind (hstep.seqLeft (reads_skip isBlank rest)) ?_)))
  rintro ⟨pos, _⟩ rfl
  exact .pure ⟨x, pos, rfl, hx⟩

theorem reads_simple_send (h : Reads expr cs ('<' :: '-' :: ' ' :: rest) P)
    (hrest : Stops startsLayout rest) (hv : Reads expr rest next Q) :
    Reads (simpleStmt expr) cs next fun s => ∃ x pos y, s = .send x pos y ∧ P x ∧ Q y := by
  have hassign : ∀ op ∈ assignOps,
      op.symbol.toList.isPrefixOf ('<' :: '-' :: ' ' :: rest) = false := by
    intro op _
    cases op <;> rfl
  have harrow := reads_tokenNl "<-" (' ' :: rest)
  rw [trim_blank (by decide), trim_isBlankOrNewline hrest] at harrow
  exact .orElse' (.bind' (reads_single h (by simp)) fun _ _ =>
    .bind (.seqLeft (idle_tokenOf hassign)))
    (.orElse (h.bind fun x hx => harrow.bind fun pos _ => hv.bind fun y hy =>
      .pure ⟨x, pos, y, rfl, hx, hy⟩))

theorem reads_simple_assign {L R : List Expr → Prop}
    (hl : Reads (sepBy1 expr (tokenNl ",")) cs (op.symbol.toList ++ ' ' :: rest) L)
    (hrest : Stops startsLayout rest) (hr : Reads (sepBy1 expr (tokenNl ",")) rest next R) :
    Reads (simpleStmt expr) cs next fun s => ∃ lhs pos rhs, s = .assign lhs pos op rhs ∧ L lhs ∧
    R rhs := by
  have hskip := reads_skip isBlankOrNewline (' ' :: rest)
  rw [trim_blank (by decide), trim_isBlankOrNewline hrest] at hskip
  refine .orElse (hl.bind fun lhs hlhs => .bind
    ((reads_assignOp (by cases op <;> decide) rest).seqLeft hskip) ?_)
  rintro ⟨pos, _⟩ rfl
  exact hr.bind fun rhs hrhs => .pure ⟨lhs, pos, rhs, rfl, hlhs, hrhs⟩

end Simple

section Parts

variable {g : Rules} {cs rest next : List Char} {P : Stmt → Prop} {E : Expr → Prop}

theorem idle_headerExpr (g : Rules) (h : Stops startsExpr cs) : Idle (headerExpr g) cs :=
  idle_binding_of_stops g true 0 h

theorem idle_headerSimple (g : Rules) (h : Stops startsExpr cs) : Idle (headerSimple g) cs :=
  idle_simpleStmt (idle_headerExpr g h)

theorem stops_startsExpr (hc : endsPart c = true) (cs : List Char) :
    Stops startsExpr (c :: cs) := by
  simpa using eq_false_of_contains (by decide) c hc

theorem idle_semicolon (rest : List Char) : Idle (token ";") ('\x7b' :: rest) :=
  idle_token (by simp [List.isPrefixOf])

theorem reads_semicolon (rest : List Char) :
    Reads (token ";") (';' :: rest) (trim isBlank rest) fun p => p.isSome = true :=
  reads_close rfl rest

theorem reads_headerInit (h : Reads (headerSimple g) cs (';' :: rest) P) :
    Reads (headerInit g) cs (trim isBlank rest) P := h.seqLeft (reads_semicolon rest)

theorem idle_headerInit (h : Reads (headerSimple g) cs ('\x7b' :: rest) P) :
    Idle (headerInit g) cs :=
  .seqLeft' h (idle_semicolon rest)

theorem reads_tag (h : Reads (headerExpr g) cs ('\x7b' :: rest) E) :
    Reads (do let tag ← headerSimple g; guard (isTag tag); return tag) cs ('\x7b' :: rest)
      fun s => ∃ x, s = .expr x ∧ E x := by
  refine (reads_simple_expr h (by decide)).bind ?_
  rintro _ ⟨x, rfl, hx⟩
  exact .bind (.guarded (by simp [isTag])) fun _ _ => .pure ⟨x, rfl, hx⟩

theorem idle_tag (g : Rules) (rest : List Char) :
    Idle (do let tag ← headerSimple g; guard (isTag tag); return tag) ('\x7b' :: rest) :=
  .bind (idle_headerSimple g (stops_startsExpr (by decide) rest))

end Parts

theorem reads_emptyBlock (n : Nat) (rest : List Char) :
    Reads (block (rules n)) ('\x7b' :: '\n' :: '\x7d' :: rest) (trim isBlank rest) fun b => b.list =
      [] :=
  (reads_open (by simp; decide)).bind fun _ _ => .bind (P := fun ss => ss = [])
      (.orElse' (.seqLeft (.sepBy1 (idle_rules_stmt_close n rest))) (.pure rfl)) fun _ hss =>
      (reads_close rfl rest).bind fun _ _ => .pure hss

section Loops

variable {g : Rules} {pos : Pos} {cs mid rest next : List Char}
variable {cs₁ : List Char} {Cond : Option Expr → Prop}

theorem reads_rangeVars (hop : op = .define ∨ op = .assign) {K : Expr → Prop}
    {V : Option Expr → Prop} (hkey : Reads (headerExpr g) cs mid K)
    (hvalue : Reads (optional (token "," *> headerExpr g)) mid (op.symbol.toList ++ ' ' :: rest) V)
    (hrest : Stops startsLayout rest) :
    Reads (rangeVars g) cs rest fun vars => K vars.1 ∧ V vars.2.1 ∧ vars.2.2.2 = op := by
  have hskip := reads_skip isBlank (' ' :: rest)
  rw [trim_blank (by decide), trim_isBlank hrest] at hskip
  refine hkey.bind fun key hk => hvalue.bind fun value hv =>
    .bind ((reads_assignOp (by simpa using hop) rest).seqLeft hskip) ?_
  rintro ⟨opPos, _⟩ rfl
  exact .pure ⟨hk, hv, rfl⟩

theorem reads_rangeClause {Vars : Option (Expr × Option Expr × Pos × AssignOp) → Prop}
    {X : Expr → Prop} (hvars : Reads (optional (rangeVars g)) cs ("range".toList ++ ' ' :: rest)
      Vars)
    (hrest : Stops startsLayout rest) (hx : Reads (headerExpr g) rest next X) :
    Reads (rangeClause g pos) cs next fun close => ∃ vars x, Vars vars ∧ X x ∧ ∀ b, close b =
      .range pos (vars.map (·.1)) (vars.bind (·.2.1)) (vars.bind (·.2.2.1)) (vars.map (·.2.2.2)) x
      b := by
  have hword := reads_keyword (w := "range") (by decide) (' ' :: rest) (stops_word (by decide) rest)
  rw [trim_blank (by decide), trim_isBlank hrest] at hword
  refine hvars.bind fun vars hv => hword.bind fun _ _ => hx.bind fun x hX => ?_
  cases vars with
  | none => exact .pure ⟨none, x, hv, hX, fun _ => rfl⟩
  | some vars => exact .pure ⟨some vars, x, hv, hX, fun _ => rfl⟩

/-- Where an expression comes first and no `range` behind the sign of an assignment, no range
begins. -/
theorem idle_rangeClause {P : Expr → Prop} (h : Reads (headerExpr g) cs mid P)
    (hvalue : Reads (optional (token "," *> headerExpr g)) mid rest fun _ => True)
    (hsign : Idle (tokenOf AssignOp.symbol [.define, .assign] <* blanks) rest ∨
      ∃ next, Reads (tokenOf AssignOp.symbol [.define, .assign] <* blanks) rest next
      (fun _ => True) ∧
        Idle (keyword "range") next) : Idle (rangeClause g pos) cs := by
  rcases hsign with hsign | ⟨next, hsign, hword⟩
  · have hvars : Idle (rangeVars g) cs := .bind' h fun _ _ => .bind' hvalue fun _ _ => .bind hsign
    exact .bind' hvars.opt fun _ _ => .bind (idle_keyword_of_reads h (by decide) (by decide))
  · have hvars : Reads (rangeVars g) cs next fun _ => True :=
      h.bind fun _ _ => hvalue.bind fun _ _ => hsign.bind fun _ _ => .pure trivial
    exact .bind' hvars.opt fun _ _ => .bind hword

theorem yields_range (g : Rules) (pos : Pos) :
    Yields (rangeClause g pos) fun close => ∀ b, ∃ key value opPos op x, close b =
      .range pos key value opPos op x b := by
  refine .after fun vars => .after fun _ => .after fun x => ?_
  cases vars with
  | none => exact .pure fun _ => ⟨_, _, _, _, _, rfl⟩
  | some vars => exact .pure fun _ => ⟨_, _, _, _, _, rfl⟩

theorem reads_semicolon_blank {cs : List Char} (hcs : Stops startsLayout cs) :
    Reads (token ";") (';' :: ' ' :: cs) cs fun p => p.isSome = true := by
  have hread := reads_semicolon (' ' :: cs)
  rwa [trim_blank (by decide), trim_isBlank hcs] at hread

theorem reads_forClause {cs₂ : List Char} {Post : Option Stmt → Prop}
    (hinit : Reads (optional (headerSimple g)) cs (';' :: ' ' :: cs₁) Init)
    (hcs₁ : Stops startsLayout cs₁)
    (hcond : Reads (optional (headerExpr g)) cs₁ (';' :: ' ' :: cs₂) Cond)
    (hcs₂ : Stops startsLayout cs₂) (hpost : Reads (optional (headerSimple g)) cs₂ next Post) :
    Reads (forClause g pos) cs next fun close =>
      ∃ init cond post, close = .forLoop pos init cond post ∧ Init init ∧ Cond cond ∧
      Post post := by
  refine hinit.bind fun init hi => (reads_semicolon_blank hcs₁).bind fun _ _ =>
    hcond.bind fun cond hc => ?_
  exact (reads_semicolon_blank hcs₂).bind fun _ _ => hpost.bind fun post hp =>
    .pure ⟨init, cond, post, rfl, hi, hc, hp⟩

theorem idle_forClause (hinit : Reads (optional (headerSimple g)) cs ('\x7b' :: rest) Init) :
    Idle (forClause g pos) cs :=
  .bind' hinit fun _ _ => .bind (idle_semicolon rest)

theorem idle_forClause_cond (hinit : Reads (optional (headerSimple g)) cs (';' :: ' ' :: cs₁) Init)
    (hcs₁ : Stops startsLayout cs₁)
    (hcond : Reads (optional (headerExpr g)) cs₁ ('\x7b' :: rest) Cond) :
    Idle (forClause g pos) cs :=
  .bind' hinit fun _ _ => .bind' (reads_semicolon_blank hcs₁) fun _ _ => .bind' hcond fun _ _ =>
    .bind (idle_semicolon rest)

end Loops

theorem reads_word (hw : word w.toList = some (w.toList, [])) (hcs : Stops startsLayout cs) :
    Reads (keyword w) (w.toList ++ ' ' :: cs) cs fun p => p.isSome = true := by
  have hword := reads_keyword hw (' ' :: cs) (stops_word (by decide) cs)
  rwa [trim_blank (by decide), trim_isBlank hcs] at hword

/-- The part of a loop header that says which loop it is. -/
def loopClause (g : Rules) (pos : Pos) : Parser (Block → Stmt) :=
  rangeClause g pos <|> forClause g pos <|> whileClause g pos

theorem reads_loopClause_while {pos : Pos} {E : Expr → Prop}
    (h : Reads (headerExpr g) cs ('\x7b' :: rest) E) : 
    Reads (loopClause g pos) cs ('\x7b' :: rest) fun close => ∃ x, close =
      .forLoop pos none (some x) none ∧ E x := by
  have hvalue : Reads (optional (token "," *> headerExpr g)) ('\x7b' :: rest) ('\x7b' :: rest)
      fun _ => True :=
    (Idle.opt (.seqRight (idle_token (by simp [List.isPrefixOf])))).mono fun _ _ => trivial
  have hsign : Idle (tokenOf AssignOp.symbol [.define, .assign] <* blanks) ('\x7b' :: rest) :=
    .seqLeft (idle_tokenOf_of_stops (fun op _ => head_assignOp op)
      (stops_startsSign (by decide) rest))
  exact .orElse' (idle_rangeClause h hvalue (.inl hsign))
    (.orElse' (idle_forClause (reads_simple_expr h (by decide)).opt) (h.bind fun x hx =>
      .pure ⟨x, rfl, hx⟩))

section Words

variable {g : Rules} {cs cs₁ cs₂ cs₃ next : List Char} {P : Stmt → Prop}
variable {Branches : Block × Option Stmt → Prop} {Tag : Option Stmt → Prop}

theorem reads_forStmt (hcs : Stops startsLayout cs) {Body : Block → Prop}
    (hclause : ∀ pos, Reads (loopClause g pos) cs cs₁ fun close => ∀ b, Body b → P (close b))
    (hbody : Reads (block g) cs₁ next Body) :
    Reads (forStmt g) ("for".toList ++ ' ' :: cs) next P := by
  refine (reads_word (by decide) hcs).bind fun pos _ => (hclause pos).opt.bind ?_
  rintro _ ⟨close, rfl, hclose⟩
  exact hbody.bind fun b hb => .pure (hclose b hb)

theorem reads_forStmt_forever {Body : Block → Prop}
    (hbody : Reads (block g) ('\x7b' :: rest) next Body) :
    Reads (forStmt g) ("for".toList ++ ' ' :: '\x7b' :: rest) next
      fun s => ∃ pos b, s = .forLoop pos none none none b ∧ Body b := by
  have hexpr : Idle (headerExpr g) ('\x7b' :: rest) :=
    idle_headerExpr g (stops_startsExpr (by decide) rest)
  have hword : Idle (keyword "range") ('\x7b' :: rest) := idle_keyword _ (by simp; decide)
  have hclause : ∀ pos, Idle (loopClause g pos) ('\x7b' :: rest) := fun pos =>
    .orElse (.bind' (Idle.opt (.bind hexpr)) fun _ _ => .bind hword)
      (.orElse (idle_forClause (Idle.opt (idle_simpleStmt hexpr))) (.bind hexpr))
  refine (reads_word (by decide) (by simp; decide)).bind fun pos _ => (hclause pos).opt.bind ?_
  rintro _ rfl
  exact hbody.bind fun b hb => .pure ⟨pos, b, rfl, hb⟩

theorem yieldsAt_forStmt (hcs : Stops startsLayout cs)
    (hclause : ∀ pos, YieldsAt (loopClause g pos) cs fun close => ∀ b, P (close b))
    (hnone : ∀ pos b, P (.forLoop pos none none none b)) :
    YieldsAt (forStmt g) ("for".toList ++ ' ' :: cs) P := by
  refine .bind (reads_word (by decide) hcs) fun pos _ =>
    (hclause pos).opt.bind' fun clause hclause =>
    .after fun b => ?_
  cases clause with
  | none => exact .pure (hnone pos b)
  | some close => exact .pure (hclause close rfl b)

def branch (g : Rules) : Parser Stmt := g.conditional <|> (do return .block (← block g))

def branches (g : Rules) : Parser (Block × Option Stmt) := do
  let body ← block g
  let other ← optional (keyword "else" *> branch g)
  return (body, other)

theorem conditional_eq (g : Rules) : conditional g = (do
    let ifPos ← keyword "if"
    let init ← optional (headerInit g)
    let cond ← headerExpr g
    let (body, other) ← branches g
    return .ifElse ifPos init cond body other) := by
  simp [conditional, branches, branch]

theorem reads_conditional (hcs : Stops startsLayout cs) {Cond : Expr → Prop}
    (hinit : Reads (optional (headerInit g)) cs cs₁ Init)
    (hcond : Reads (headerExpr g) cs₁ cs₂ Cond) (hbranches : Reads (branches g) cs₂ next Branches) :
    Reads (conditional g) ("if".toList ++ ' ' :: cs) next fun s =>
      ∃ pos init cond b, s = .ifElse pos init cond b.1 b.2 ∧ Init init ∧ Cond cond ∧
      Branches b := by
  rw [conditional_eq]
  exact (reads_word (by decide) hcs).bind fun pos _ => hinit.bind fun init hi =>
    hcond.bind fun cond hc =>
    hbranches.bind fun b hb => .pure ⟨pos, init, cond, b, rfl, hi, hc, hb⟩

theorem yieldsAt_conditional (hcs : Stops startsLayout cs) {Cond : Expr → Prop}
    (hinit : Reads (optional (headerInit g)) cs cs₁ Init)
    (hcond : Reads (headerExpr g) cs₁ cs₂ Cond) (hbranches : YieldsAt (branches g) cs₂ Branches) :
    YieldsAt (conditional g) ("if".toList ++ ' ' :: cs) fun s =>
      ∃ pos init cond b, s = .ifElse pos init cond b.1 b.2 ∧ Cond cond ∧ Branches b := by
  rw [conditional_eq]
  exact .bind (reads_word (by decide) hcs) fun pos _ => .bind hinit fun init _ =>
    .bind hcond fun cond hc =>
    hbranches.bind' fun b hb => .pure ⟨pos, init, cond, b, rfl, hc, hb⟩

def clauses (g : Rules) : Parser Block := do
  let lbrace ← tokenNl "\x7b"
  let list ← many (caseClause g)
  let rbrace ← token "\x7d"
  return ⟨lbrace, list, rbrace⟩

theorem switchStmt_eq (g : Rules) : switchStmt g = (do
    let switchPos ← keyword "switch"
    let init ← optional (headerInit g)
    let tag ← optional (do
      let tag ← headerSimple g
      guard (isTag tag)
      return tag)
    let body ← clauses g
    return buildSwitch switchPos init tag body) := by
  simp [switchStmt, clauses]

theorem reads_noClauses (g : Rules) (rest : List Char) :
    Reads (clauses g) ('\x7b' :: '\n' :: '\x7d' :: rest) (trim isBlank rest) fun b => b.list =
      [] := by
  have hword : ∀ w, Idle (keyword w) ('\x7d' :: rest) := fun w => idle_keyword w (by simp; decide)
  have hclause : Idle (caseClause g) ('\x7d' :: rest) :=
    .bind (.orElse (.bind (hword _)) (.bind (hword _)))
  exact (reads_open (by simp; decide)).bind fun _ _ => hclause.many.bind fun _ hlist =>
    (reads_close rfl rest).bind fun _ _ => .pure hlist

theorem reads_switchStmt (hcs : Stops startsLayout cs) {Body : Block → Prop}
    (hinit : Reads (optional (headerInit g)) cs cs₁ Init)
    (htag : Reads (optional (do let tag ← headerSimple g; guard (isTag tag); return tag)) cs₁ cs₂
      Tag)
    (hbody : Reads (clauses g) cs₂ next Body) :
    Reads (switchStmt g) ("switch".toList ++ ' ' :: cs) next fun s =>
      ∃ pos init tag b, s = buildSwitch pos init tag b ∧ Init init ∧ Tag tag ∧ Body b := by
  rw [switchStmt_eq]
  exact (reads_word (by decide) hcs).bind fun pos _ => hinit.bind fun init hi =>
    htag.bind fun tag ht =>
    hbody.bind fun b hb => .pure ⟨pos, init, tag, b, rfl, hi, ht, hb⟩

theorem yieldsAt_switchStmt (hcs : Stops startsLayout cs)
    (hinit : Reads (optional (headerInit g)) cs cs₁ Init)
    (htag : Reads (optional (do let tag ← headerSimple g; guard (isTag tag); return tag)) cs₁ cs₂
      Tag) :
    YieldsAt (switchStmt g) ("switch".toList ++ ' ' :: cs) fun s =>
      ∃ pos init tag b, s = buildSwitch pos init tag b ∧ Tag tag := by
  rw [switchStmt_eq]
  exact .bind (reads_word (by decide) hcs) fun pos _ => .bind hinit fun init _ =>
    .bind htag fun tag ht =>
    (Yields.at (.after fun b => .pure ⟨pos, init, tag, b, rfl, ht⟩) cs₂)

end Words

def headerWords : List String := ["if", "switch", "for"]

section Stmt

variable {w : String} (hw : w ∈ headerWords) {n : Nat} {cs next : List Char} {P : Stmt → Prop}

include hw

theorem word_headerWord : word w.toList = some (w.toList, []) := by
  have hall : ∀ w ∈ headerWords, word w.toList = some (w.toList, []) := by decide
  exact hall w hw

theorem idle_otherWord {w' : String} (hne : w ≠ w') (cs : List Char) :
    Idle (keyword w') (w.toList ++ ' ' :: cs) :=
  idle_keyword_of_word (word_headerWord hw) (stops_word (by decide) cs) hne

theorem idle_declWord (cs : List Char) (word : DeclWord) :
    Idle (keyword word.word) (w.toList ++ ' ' :: cs) := by
  have hall : ∀ w ∈ headerWords, w ≠ word.word := by cases word <;> decide
  exact idle_otherWord hw (hall w hw) cs

theorem idle_jumpWord (cs : List Char) (word : Jump) :
    Idle (keyword word.word) (w.toList ++ ' ' :: cs) := by
  have hall : ∀ w ∈ headerWords, w ≠ word.word := by cases word <;> decide
  exact idle_otherWord hw (hall w hw) cs

theorem stmt_headerWord (o : Nat) : stmt (rules n) ⟨o, w.toList ++ ' ' :: cs⟩ =
    ((rules n).conditional <|> switchStmt (rules n) <|> forStmt (rules n))
      ⟨o, w.toList ++ ' ' :: cs⟩ := by
  have hne : ∀ w ∈ headerWords, ∀ w' ∈ ["return", "select", "go", "defer"], w ≠ w' := by decide
  have hother := fun w' hw' => idle_otherWord hw (hne w hw w' hw') cs
  have hk : w ∈ keywords := (by decide : ∀ w ∈ headerWords, w ∈ keywords) w hw
  have ht : w ∉ typeWords := (by decide : ∀ w ∈ headerWords, w ∉ typeWords) w hw
  have hword := word_append (word_headerWord hw) (stops_word (c := ' ') (by decide) cs)
  have hdecl : Idle (do return Stmt.decl (← genDecl (rules n))) _ :=
    .bind (idle_genDecl _ (idle_declWord hw cs))
  have hreturn : Idle (returnStmt (rules n)) _ := .bind (hother "return" (by simp))
  have hselect : Idle (selectStmt (rules n)) _ := .bind (hother "select" (by simp))
  have hgo : Idle (goStmt (rules n)) _ := .bind (hother "go" (by simp))
  have hdefer : Idle (deferStmt (rules n)) _ := .bind (hother "defer" (by simp))
  have hblock : Idle (do return Stmt.block (← block (rules n))) (w.toList ++ ' ' :: cs) :=
    .bind (.bind (idle_tokenNl_of_stops (p := fun c => "\x7b".toList.contains c) (by decide)
      (stops_of_word (fun c hc => contains_eq_false (by decide) c hc) hword)))
  have hlabeled : Idle (labeledStmt (rules n)) (w.toList ++ ' ' :: cs) :=
    .bind (idle_ident_of_keyword (word_headerWord hw) (stops_word (by decide) cs) hk)
  have hexpr : Idle (rules n).expr (w.toList ++ ' ' :: cs) := by
    cases n with
    | zero => exact fun _ => rfl
    | succ n => exact idle_binding_of_keyword (rules n) false 0 hword hk ht
  have hsimple : Idle (simple (rules n)) _ := idle_simpleStmt hexpr
  simp only [stmt, orElse_apply, hdecl o, hreturn o, idle_jumpStmt (idle_jumpWord hw cs) o,
    hselect o, hgo o, hdefer o, hblock o, hlabeled o, hsimple o]
  simp

end Stmt

end Grammar

end GoFun
