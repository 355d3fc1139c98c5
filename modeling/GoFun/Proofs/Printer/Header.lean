import GoFun.Proofs.Printer.Part
import GoFun.Proofs.Printer.RoundTrip

/-!
# Printed headers

A condition, a tag and the operand of a range are printed without the parentheses around them, which
may have kept the brace of a composite literal apart from that of the body. A statement with a
header and an empty body is read back exactly when no such brace comes before the body.
-/
namespace GoFun

open Parser Grammar Lex List Option

attribute [local simp] Phrase.children Stmt.children

variable {e : Expr} {s : Stmt} {b : Block} {n : Nat} {p : Parens} {init post : Option Stmt}
  {cond : Option Expr} {cs : List Char} {P : Stmt → Prop}

variable (m : SourceMap)

/-- Statements with an empty body, and the simple statements of their headers. -/
def Stmt.isHollow : Stmt → Bool
  | .expr _ | .assign _ _ _ _ | .incDec _ _ _ | .send _ _ _ => true
  | .block b | .ifElse _ _ _ b _ | .forLoop _ _ _ _ b | .range _ _ _ _ _ _ b | .switch _ _ _ b =>
      b.list.isEmpty
  | _ => false

def Phrase.isHollow : Phrase → Bool
  | .expr e => e.isPlain
  | .stmt s => s.isHollow

def Stmt.hasHeader : Stmt → Bool
  | .ifElse _ _ _ _ _ | .forLoop _ _ _ _ _ | .range _ _ _ _ _ _ _ | .switch _ _ _ _ => true
  | _ => false

/-- As it is printed, no header opens a brace outside of brackets before that of its body. -/
def Stmt.bodyOpensFirst : Stmt → Bool
  | .ifElse _ _ cond _ none => !cond.bare.exposed
  | .ifElse _ _ cond _ (some other) => !cond.bare.exposed && other.bodyOpensFirst
  | .forLoop _ _ cond _ _ => !cond.any (·.bare.exposed)
  | .range _ _ _ _ _ x _ => !x.bare.exposed
  | .switch _ _ tag _ => !tag.any (·.bare.exposed)
  | _ => true

attribute [local simp] Stmt.bodyOpensFirst

/-- What the grammar can have made with headers and empty bodies. -/
def Phrase.Hollow (n : Phrase) : Prop := n.isHollow = true ∧ n.Formed

theorem Expr.children_of_isPlain (h : e.isPlain = true) {c : Phrase} (hc : c ∈ e.children) :
    ∃ x, c = .expr x := by
  cases e <;> simp_all [Expr.isPlain, Expr.children] <;> grind

theorem Phrase.Printable.of_hollow (h : Throughout Phrase.Hollow (.expr e)) :
    Throughout Phrase.Printable (.expr e) := by
  generalize hn : Phrase.expr e = n at h
  induction h generalizing e with
  | @intro n here below ih =>
    subst hn
    refine .intro here fun c hc => ?_
    obtain ⟨x, rfl⟩ := Expr.children_of_isPlain here.1 hc
    exact ih _ hc rfl

theorem Expr.Steady.of_hollow (h : Throughout Phrase.Hollow (.expr e)) (he : e.InHeader) :
    e.Steady .dropped :=
  .of_printable (by decide) (Phrase.Printable.of_hollow h) he

theorem Stmt.Steady.of_hollow (h : Throughout Phrase.Hollow (.stmt s)) (hs : s.InHeader) :
    s.Steady .dropped := by
  have hchild : ∀ e, Phrase.expr e ∈ (Phrase.stmt s).children → e.InHeader → e.Steady .dropped :=
    fun e he => Expr.Steady.of_hollow (h.child he)
  have hformed := h.here.2
  cases s with
  | expr x => exact hchild x (by simp) hs
  | incDec x pos step => exact hchild x (by simp) hs
  | assign lhs pos op rhs =>
    exact ⟨⟨hformed.1.1, fun e he => hchild e (by simp [he]) (hs.1 e he)⟩,
      hformed.2.1, fun e he => hchild e (by simp [he]) (hs.2 e he)⟩
  | send x pos y =>
    exact ⟨hchild x (by simp) hs.1,
      hchild y (by simp) hs.2⟩
  | _ => exact hs.elim

/-! ### Initial statements and empty bodies -/

theorem Block.print_empty (hb : b.list.isEmpty = true) :
    (b.print m 0).toList = ['\x7b', '\n', '\x7d'] := by
  obtain ⟨lbrace, list, rbrace⟩ := b
  obtain rfl : list = [] := isEmpty_iff.1 hb
  simp only [Block.print, printLines, String.toList_append]
  rfl

theorem Block.printClauses_empty (hb : b.list.isEmpty = true) :
    (b.printClauses m 0).toList = ['\x7b', '\n', '\x7d'] := by
  obtain ⟨lbrace, list, rbrace⟩ := b
  obtain rfl : list = [] := isEmpty_iff.1 hb
  simp only [Block.printClauses, printStmts, String.toList_append]
  rfl

theorem Block.shape_of_empty (p : Parens) {b' : Block} (hb : b.list.isEmpty = true)
    (hb' : b'.list = []) :
    b'.shape p = b.shape p := by
  obtain ⟨lbrace, list, rbrace⟩ := b
  obtain ⟨lbrace', list', rbrace'⟩ := b'
  obtain rfl : list = [] := isEmpty_iff.1 hb
  obtain rfl : list' = [] := hb'
  rfl

section Init

variable {p : Parens} {init : Option Stmt} (h : ∀ s ∈ init, s.Steady p) (m : SourceMap)
  {cs : List Char} (hcs : Stops startsLayout cs)

include h hcs

theorem stops_layout_init (after : String) :
    Stops startsLayout ((printStmt? m 0 after init).toList ++ cs) := by
  cases init with
  | none => simpa [printStmt?] using hcs
  | some s =>
    rw [printStmt?, String.toList_append, append_assoc]
    exact (h s rfl).stops_layout m 0 _

theorem reads_init (hn : (printStmt? m 0 "; " init).toList.length ≤ n)
    (hnone : Idle (headerInit (rules n)) cs) :
    Reads (optional (headerInit (rules n))) ((printStmt? m 0 "; " init).toList ++ cs) cs
      fun i => shapeStmt? p i = shapeStmt? p init := by
  cases init with
  | none =>
    simp only [printStmt?]
    refine hnone.opt.mono ?_
    rintro _ rfl
    rfl
  | some s =>
    simp only [printStmt?, String.toList_append, append_assoc, length_append] at hn ⊢
    have hread :=
      reads_headerInit ((h s rfl).reads m 0 (n := n) (by omega) (.semicolon (' ' :: cs)))
    rw [trim_blank (by decide), trim_isBlank hcs] at hread
    rw [show "; ".toList ++ cs = ';' :: ' ' :: cs from rfl]
    refine hread.opt.mono ?_
    rintro _ ⟨s', rfl, hs'⟩
    simp only [shapeStmt?]
    rw [hs']

end Init

/-- An operand that is followed by a brace is no initial statement. -/
theorem reads_init_operand (h : ∀ s ∈ init, s.Steady p) (he : Throughout Phrase.Printable (.expr e))
    (m : SourceMap) (hn : (printStmt? m 0 "; " init).toList.length ≤ n) {rest next : List Char}
    {P : Expr → Prop}
    (hread : Reads (headerExpr (rules n)) ((e.print m 0 { bare := true }).toList ++ rest)
      ('\x7b' :: next) P) :
    Reads (optional (headerInit (rules n)))
      ((printStmt? m 0 "; " init).toList ++ ((e.print m 0 { bare := true }).toList ++ rest))
      ((e.print m 0 { bare := true }).toList ++ rest) fun i => shapeStmt? p i = shapeStmt? p init :=
  reads_init h m (Expr.stops_layout_bare he m rest) hn
    (idle_headerInit (reads_simple_expr hread (by decide)))

/-! ### Conditionals -/

/-- Equal up to positions, objects and parentheses. -/
def SameStmt (s s' : Stmt) : Prop := s'.shape .dropped = s.shape .dropped

/-- Whether the rule reads the text of a statement back is decided by the braces of its headers. -/
structure Stmt.RereadsBy (rule : Nat → Parser Stmt) (s : Stmt) : Prop where
  reads : ∀ m n rest, (s.print m 0).toList.length ≤ n → s.bodyOpensFirst = true →
    Reads (rule n) ((s.print m 0).toList ++ '\n' :: rest) ('\n' :: rest) (SameStmt s)
  yields : ∀ m n rest, (s.print m 0).toList.length ≤ n → s.bodyOpensFirst = false →
    YieldsAt (rule n) ((s.print m 0).toList ++ '\n' :: rest) fun s' => ¬ SameStmt s s'

def elseText (m : SourceMap) : Option Stmt → List Char
  | none => []
  | some s => ' ' :: ("else".toList ++ ' ' :: (s.print m 0).toList)

theorem ifElse_text (pos : Pos) (init : Option Stmt) (cond : Expr) {body : Block}
    (hb : body.list.isEmpty = true) (other : Option Stmt) (rest : List Char) :
    ((Stmt.ifElse pos init cond body other).print m 0).toList ++ rest =
      "if".toList ++ ' ' :: ((printStmt? m 0 "; " init).toList ++
      ((cond.print m 0 { bare := true }).toList ++
        ' ' :: '\x7b' :: '\n' :: '\x7d' :: (elseText m other ++ rest))) := by
  simp only [Stmt.print, String.toList_append, append_assoc, Block.print_empty m hb]
  cases other with
  | none => rfl
  | some s => simp [printStmt?, elseText]

theorem trim_newline (cs : List Char) : trim isBlank ('\n' :: cs) = '\n' :: cs :=
  trim_of_ne (by decide) (by decide) cs

theorem stops_layout_branch (hbranch : s.isBranch = true) (hhollow : s.isHollow = true)
    (m : SourceMap) (rest : List Char) :
    Stops startsLayout ((s.print m 0).toList ++ rest) := by
  cases s with
  | ifElse pos init cond body other =>
    rw [ifElse_text m pos init cond hhollow]
    simp
    decide
  | block b =>
    rw [Stmt.print, Block.print_empty m hhollow]
    simp
    decide
  | _ => cases hbranch

theorem Stmt.RereadsBy.branch (hs : s.hasHeader = true)
    (h : s.RereadsBy fun n => conditional (rules n)) :
    s.RereadsBy fun n => Grammar.branch (rules (n + 1)) where
  reads m n rest hn hfirst := .orElse (h.reads m n rest hn hfirst)
  yields m n rest hn hfirst := by
    refine .orElse (h.yields m n rest hn hfirst) (Yields.at (.after fun b => .pure ?_) _)
    cases s <;> simp_all [Stmt.hasHeader, SameStmt, Stmt.shape]

theorem Stmt.rereadsBy_block (hb : b.list.isEmpty = true) :
    (Stmt.block b).RereadsBy fun n => Grammar.branch (rules (n + 1)) where
  reads m n rest _ _ := by
    rw [Stmt.print, Block.print_empty m hb]
    have hcond : Idle (rules (n + 1)).conditional ('\x7b' :: '\n' :: '\x7d' :: '\n' :: rest) :=
      idle_rules_conditional (n + 1) (idle_keyword _ (by simp; decide))
    have hblock := reads_emptyBlock (n + 1) ('\n' :: rest)
    rw [trim_newline] at hblock
    refine .orElse' hcond (hblock.bind fun b' hb' => .pure ?_)
    rw [SameStmt, Stmt.shape, Stmt.shape, Block.shape_of_empty _ hb hb']
  yields m n rest _ hfirst := by simp at hfirst

theorem trim_elseText (s : Stmt) (rest : List Char) :
    trim isBlank (elseText m (some s) ++ rest) = "else".toList ++ ' ' ::
      ((s.print m 0).toList ++ rest) := by
  rw [elseText, cons_append, trim_blank (by decide), append_assoc]
  exact trim_isBlank (by simp; decide)

theorem reads_else (hbranch : s.isBranch = true) (hhollow : s.isHollow = true) (m : SourceMap)
    (rest : List Char) :
    Reads (keyword "else") ("else".toList ++ ' ' :: ((s.print m 0).toList ++ rest))
      ((s.print m 0).toList ++ rest)
      fun p => p.isSome = true :=
  reads_word (by decide) (stops_layout_branch hbranch hhollow m rest)

section Branches

variable {other : Option Stmt} (hother : ∀ s ∈ other, s.isBranch = true ∧ s.isHollow = true ∧
    s.RereadsBy fun n => branch (rules (n + 1))) (m : SourceMap) {n : Nat}
    (hn : (elseText m other).length ≤ n) (rest : List Char)

include hother hn

theorem reads_branches (hfirst : ∀ s ∈ other, s.bodyOpensFirst = true) :
    Reads (branches (rules n)) ('\x7b' :: '\n' :: '\x7d' :: (elseText m other ++ '\n' :: rest))
      ('\n' :: rest)
      fun b => b.1.list = [] ∧ shapeStmt? .dropped b.2 = shapeStmt? .dropped other := by
  have hbody := reads_emptyBlock n (elseText m other ++ '\n' :: rest)
  cases other with
  | none =>
    rw [elseText, nil_append, trim_newline] at hbody
    have hword : Idle (keyword "else") ('\n' :: rest) := idle_keyword _ (by simp; decide)
    refine hbody.bind fun b hb => (Idle.opt (.seqRight hword)).bind ?_
    rintro _ rfl
    exact .pure ⟨hb, rfl⟩
  | some s =>
    obtain ⟨hbranch, hhollow, hs⟩ := hother s rfl
    rw [trim_elseText] at hbody
    obtain ⟨n, rfl⟩ : ∃ n', n = n' + 1 := ⟨n - 1, by simp [elseText] at hn; omega⟩
    have helse := (reads_else hbranch hhollow m ('\n' :: rest)).seqRight
      (hs.reads m n rest (by simp [elseText] at hn ⊢; omega) (hfirst s rfl))
    refine hbody.bind fun b hb => helse.opt.bind ?_
    rintro _ ⟨s', rfl, hs'⟩
    refine .pure ⟨hb, ?_⟩
    rw [shapeStmt?, shapeStmt?, hs']

theorem yieldsAt_branches (hfirst : ∃ s ∈ other, s.bodyOpensFirst = false) :
    YieldsAt (branches (rules n)) ('\x7b' :: '\n' :: '\x7d' :: (elseText m other ++ '\n' :: rest))
      fun b => shapeStmt? .dropped b.2 ≠ shapeStmt? .dropped other := by
  obtain ⟨s, rfl, hfirst⟩ := hfirst
  obtain ⟨hbranch, hhollow, hs⟩ := hother s rfl
  have hbody := reads_emptyBlock n (elseText m (some s) ++ '\n' :: rest)
  rw [trim_elseText] at hbody
  obtain ⟨n, rfl⟩ : ∃ n', n = n' + 1 := ⟨n - 1, by simp [elseText] at hn; omega⟩
  have helse := YieldsAt.seqRight (reads_else hbranch hhollow m ('\n' :: rest))
    (hs.yields m n rest (by simp [elseText] at hn ⊢; omega) hfirst)
  refine .bind hbody fun b _ => helse.opt.bind' fun s' hs' => .pure ?_
  cases s' with
  | none => simp [shapeStmt?]
  | some s' => simpa [shapeStmt?, SameStmt] using hs' s' rfl

end Branches

theorem Stmt.rereadsBy_ifElse {pos : Pos} {cond : Expr} {body : Block} {other : Option Stmt}
    (h : Throughout Phrase.Hollow (.stmt (.ifElse pos init cond body other)))
    (hother : ∀ s ∈ other, s.RereadsBy fun n => branch (rules (n + 1))) :
    (Stmt.ifElse pos init cond body other).RereadsBy fun n => conditional (rules n) := by
  obtain ⟨hbody, hfinit, hfcond, hfother⟩ := h.here
  have hcond : Throughout Phrase.Printable (.expr cond) :=
    Phrase.Printable.of_hollow (h.child (by simp))
  have hinit : ∀ s ∈ init, s.Steady .dropped := fun s hs =>
    .of_hollow (h.child (by simp [mem_def.1 hs])) (hfinit s hs)
  have hbranch : ∀ s ∈ other, s.isBranch = true ∧ s.isHollow = true ∧
      s.RereadsBy fun n => branch (rules (n + 1)) := by
    intro s hs
    have hs' : Throughout Phrase.Hollow (.stmt s) := h.child (by simp [mem_def.1 hs])
    exact ⟨hfother s hs, hs'.here.1, hother s hs⟩
  have hlayout := fun m cs => stops_layout_init hinit m (Expr.stops_layout_bare hcond m cs) "; "
  have hlength : ∀ m, (printStmt? m 0 "; " init).toList.length +
      (cond.print m 0 { bare := true }).toList.length +
      (elseText m other).length ≤ ((Stmt.ifElse pos init cond body other).print m
        0).toList.length := by
    intro m
    have hlen := congrArg List.length (ifElse_text m pos init cond hbody other [])
    simp only [length_append, length_cons, append_nil] at hlen
    omega
  constructor
  · intro m n rest hn hfirst
    have hlen := hlength m
    have hexp : cond.bare.exposed = false ∧ ∀ s ∈ other, s.bodyOpensFirst = true := by
      cases other <;> simpa using hfirst
    rw [ifElse_text m pos init cond hbody]
    have hread := Expr.reads_bare hcond m (n := n) (by omega) hfcond.1.2 hexp.1
      (.body ('\n' :: '\x7d' :: (elseText m other ++ '\n' :: rest)))
    have hbefore := reads_init_operand hinit hcond m (by omega) hread
    refine (reads_conditional (hlayout m _) hbefore hread
      (reads_branches hbranch m (by omega) rest hexp.2)).mono ?_
    rintro _ ⟨pos', init', cond', ⟨body', other'⟩, rfl, hi, hc, hb, ho⟩
    simp only [SameStmt, Stmt.shape]
    rw [hi, hc, ho, Block.shape_of_empty _ hbody hb]
  · intro m n rest hn hfirst
    have hlen := hlength m
    rw [ifElse_text m pos init cond hbody]
    by_cases hexp : cond.bare.exposed = true
    · obtain ⟨cs, hread⟩ := Expr.misreads_bare hcond m (n := n) (by omega) hexp
        (' ' :: '\x7b' :: '\n' :: '\x7d' :: (elseText m other ++ '\n' :: rest))
      have hbefore := reads_init_operand hinit hcond m (by omega) hread
      refine (yieldsAt_conditional (hlayout m _) hbefore hread ((Yields.any _).at _)).mono ?_
      rintro _ ⟨pos', init', cond', b, rfl, hc, -⟩ hsame
      simp only [SameStmt, Stmt.shape, Stmt.ifElse.injEq] at hsame
      exact hc hsame.2.2.1
    · have hexp : cond.bare.exposed = false := Bool.eq_false_iff.2 hexp
      have hlast : ∃ s ∈ other, s.bodyOpensFirst = false := by
        cases other with
        | none => simp [hexp] at hfirst
        | some s => exact ⟨s, rfl, by simpa [hexp] using hfirst⟩
      have hread := Expr.reads_bare hcond m (n := n) (by omega) hfcond.1.2 hexp
        (.body ('\n' :: '\x7d' :: (elseText m other ++ '\n' :: rest)))
      have hbefore := reads_init_operand hinit hcond m (by omega) hread
      refine (yieldsAt_conditional (hlayout m _) hbefore hread
        (yieldsAt_branches hbranch m (by omega) rest hlast)).mono ?_
      rintro _ ⟨pos', init', cond', b, rfl, -, ho⟩ hsame
      simp only [SameStmt, Stmt.shape, Stmt.ifElse.injEq] at hsame
      exact ho hsame.2.2.2.2

/-- The branches behind `else` are read back or not, down to the last one. -/
def Phrase.Rebranches : Phrase → Prop
  | .stmt s => s.isBranch = true → s.RereadsBy fun n => branch (rules (n + 1))
  | .expr _ => True

theorem Phrase.Hollow.rebranches {n : Phrase} (h : Throughout Phrase.Hollow n) : n.Rebranches := by
  induction h with
  | @intro n here below ih =>
    cases n with
    | expr e => trivial
    | stmt s =>
      intro hbranch
      cases s with
      | ifElse pos init cond body other =>
        refine .branch rfl (Stmt.rereadsBy_ifElse (.intro here below) fun s hs => ?_)
        exact ih (.stmt s) (by simp [mem_def.1 hs]) (here.2.2.2 s hs)
      | block b => exact Stmt.rereadsBy_block here.1
      | _ => cases hbranch

/-! ### Loops -/

theorem forever_text (pos : Pos) {body : Block} (hb : body.list.isEmpty = true) (rest : List Char) :
    ((Stmt.forLoop pos none none none body).print m 0).toList ++ rest =
      "for".toList ++ ' ' :: '\x7b' :: '\n' :: '\x7d' :: rest := by
  simp only [Stmt.print, String.toList_append, append_assoc, Block.print_empty m hb]
  rfl

theorem while_text (pos : Pos) (cond : Expr) {body : Block} (hb : body.list.isEmpty = true)
    (rest : List Char) :
    ((Stmt.forLoop pos none (some cond) none body).print m 0).toList ++ rest =
      "for".toList ++ ' ' :: ((cond.print m 0 { bare := true }).toList ++ ' ' :: '\x7b' :: '\n' ::
      '\x7d' :: rest) := by
  simp only [Stmt.print, printExpr?, isNone_none, Bool.and_self, if_true, isSome_some,
    String.toList_append, append_assoc, Block.print_empty m hb]
  rfl

theorem clause_text (pos : Pos) (h : init.isSome = true ∨ post.isSome = true) (cond : Option Expr)
    {body : Block} (hb : body.list.isEmpty = true) (rest : List Char) :
    ((Stmt.forLoop pos init cond post body).print m 0).toList ++ rest =
      "for".toList ++ ' ' :: ((printStmt? m 0 "" init).toList ++ ';' :: ' ' ::
        ((printExpr? m 0 { bare := true } cond).toList ++ ';' :: ' ' ::
          ((printStmt? m 0 " " post).toList ++ '\x7b' :: '\n' :: '\x7d' :: rest))) := by
  have hclause : ¬ (init.isNone && post.isNone) = true := by
    rcases h with h | h <;> simp [isNone_eq_false_iff.2 h]
  simp only [Stmt.print, if_neg hclause, String.toList_append, append_assoc, Block.print_empty m hb]
  rfl

theorem Stmt.rereadsBy_forever {pos : Pos} {body : Block} (hb : body.list.isEmpty = true) :
    (Stmt.forLoop pos none none none body).RereadsBy fun n => forStmt (rules n) where
  reads m n rest _ _ := by
    rw [forever_text m pos hb]
    have hbody := reads_emptyBlock n ('\n' :: rest)
    rw [trim_newline] at hbody
    refine (reads_forStmt_forever hbody).mono ?_
    rintro _ ⟨pos', b, rfl, hb'⟩
    rw [SameStmt, Stmt.shape, Stmt.shape, Block.shape_of_empty _ hb hb']
  yields m n rest _ hfirst := by simp at hfirst

theorem Stmt.rereadsBy_while {pos : Pos} {cond : Expr} {body : Block}
    (h : Throughout Phrase.Hollow (.stmt (.forLoop pos none (some cond) none body))) :
    (Stmt.forLoop pos none (some cond) none body).RereadsBy fun n => forStmt (rules n) := by
  obtain ⟨hbody, -, hfcond, -⟩ := h.here
  have hcond : Throughout Phrase.Printable (.expr cond) :=
    Phrase.Printable.of_hollow (h.child (by simp))
  have hlength : ∀ m, (cond.print m 0 { bare := true }).toList.length ≤
      ((Stmt.forLoop pos none (some cond) none body).print m 0).toList.length := by
    intro m
    have hlen := congrArg List.length (while_text m pos cond hbody [])
    simp only [length_append, length_cons, append_nil] at hlen
    omega
  constructor
  · intro m n rest hn hfirst
    have hlen := hlength m
    rw [while_text m pos cond hbody]
    have hread := Expr.reads_bare hcond m (n := n) (by omega) (hfcond cond rfl).1.2
      (by simpa using hfirst) (.body ('\n' :: '\x7d' :: '\n' :: rest))
    have hempty := reads_emptyBlock n ('\n' :: rest)
    rw [trim_newline] at hempty
    refine reads_forStmt (Expr.stops_layout_bare hcond m _)
      (fun pos' => (reads_loopClause_while hread).mono ?_) hempty
    rintro _ ⟨x, rfl, hx⟩ b hb
    simp only [SameStmt, Stmt.shape, shapeExpr?]
    rw [hx, Block.shape_of_empty _ hbody hb]
  · intro m n rest hn hfirst
    have hlen := hlength m
    rw [while_text m pos cond hbody]
    obtain ⟨cs, hread⟩ := Expr.misreads_bare hcond m (n := n) (by omega)
      (by simpa using hfirst) (' ' :: '\x7b' :: '\n' :: '\x7d' :: '\n' :: rest)
    refine yieldsAt_forStmt (Expr.stops_layout_bare hcond m _)
      (fun pos' => ((reads_loopClause_while hread).yieldsAt).mono ?_) fun pos' b => ?_
    · rintro _ ⟨x, rfl, hx⟩ b hsame
      simp only [SameStmt, Stmt.shape, Stmt.forLoop.injEq, shapeExpr?, Option.some.injEq] at hsame
      exact hx hsame.2.2.1
    · simp [SameStmt, Stmt.shape, shapeExpr?]

theorem reads_simple? {s : Option Stmt} (h : ∀ s' ∈ s, s'.Steady p) (m : SourceMap) (after : String)
    (hn : (printStmt? m 0 after s).toList.length ≤ n) {next : List Char}
    (hend : PartEnd (after.toList ++ next) next) :
    Reads (optional (headerSimple (rules n))) ((printStmt? m 0 after s).toList ++ next) next
      fun s' => shapeStmt? p s' = shapeStmt? p s := by
  cases s with
  | none =>
    obtain ⟨c, r, rfl, hc⟩ := hend.head
    refine (idle_headerSimple (rules n) (stops_startsExpr hc r)).opt.mono ?_
    rintro _ rfl
    rfl
  | some s =>
    simp only [printStmt?, String.toList_append, append_assoc, length_append] at hn ⊢
    refine ((h s rfl).reads m 0 (by omega) hend).opt.mono ?_
    rintro _ ⟨s', rfl, hs'⟩
    simp only [shapeStmt?]
    rw [hs']

theorem reads_cond? (h : ∀ e ∈ cond, Throughout Phrase.Printable (.expr e) ∧ e.role = .plain)
    (hexp : ∀ e ∈ cond, e.bare.exposed = false) (m : SourceMap)
    (hn : (printExpr? m 0 { bare := true } cond).toList.length ≤ n) (rest : List Char) :
    Reads (optional (headerExpr (rules n)))
      ((printExpr? m 0 { bare := true } cond).toList ++ ';' :: rest) (';' :: rest)
      fun e => shapeExpr? .dropped e = shapeExpr? .dropped cond := by
  cases cond with
  | none =>
    refine (idle_headerExpr (rules n) (stops_startsExpr (by decide) rest)).opt.mono ?_
    rintro _ rfl
    rfl
  | some e =>
    refine (Expr.reads_bare (h e rfl).1 m hn (h e rfl).2 (hexp e rfl) (.semicolon rest)).opt.mono ?_
    rintro _ ⟨e', rfl, he'⟩
    simp only [shapeExpr?]
    rw [he']

theorem stops_layout_cond? (h : ∀ e ∈ cond, Throughout Phrase.Printable (.expr e) ∧ e.role = .plain)
    (m : SourceMap)
    (rest : List Char) :
    Stops startsLayout ((printExpr? m 0 { bare := true } cond).toList ++ ';' :: rest) := by
  cases cond with
  | none => simp [printExpr?]; decide
  | some e => exact Expr.stops_layout_bare (h e rfl).1 m _

theorem idle_rangeClause_init (h : ∀ s ∈ init, s.Steady p) (m : SourceMap)
    (hn : (printStmt? m 0 "" init).toList.length ≤ n) (pos : Pos) (rest : List Char) :
    Idle (rangeClause (rules n) pos) ((printStmt? m 0 "" init).toList ++ ';' :: rest) := by
  cases init with
  | none =>
    have hexpr : Idle (headerExpr (rules n)) (';' :: rest) :=
      idle_headerExpr _ (stops_startsExpr (by decide) rest)
    have hword : Idle (keyword "range") (';' :: rest) := idle_keyword _ (by simp; decide)
    exact .bind' (Idle.opt (.bind hexpr)) fun _ _ => .bind hword
  | some s =>
    simp only [printStmt?, String.append_empty] at hn ⊢
    exact (h s rfl).idle_rangeClause m 0 hn pos (.semicolon rest)

theorem Stmt.rereadsBy_clause {pos : Pos} {body : Block}
    (h : Throughout Phrase.Hollow (.stmt (.forLoop pos init cond post body)))
    (hsome : init.isSome = true ∨ post.isSome = true) :
    (Stmt.forLoop pos init cond post body).RereadsBy fun n => forStmt (rules n) := by
  obtain ⟨hbody, hfinit, hfcond, hfpost⟩ := h.here
  have hcond : ∀ e ∈ cond, Throughout Phrase.Printable (.expr e) ∧ e.role = .plain := fun e he =>
    ⟨Phrase.Printable.of_hollow (h.child (by simp [mem_def.1 he])), (hfcond e he).1.2⟩
  have hinit : ∀ s ∈ init, s.Steady .dropped := fun s hs =>
    .of_hollow (h.child (by simp [mem_def.1 hs])) (hfinit s hs)
  have hpost : ∀ s ∈ post, s.Steady .dropped := fun s hs =>
    .of_hollow (h.child (by simp [mem_def.1 hs])) (hfpost s hs)
  have hlength : ∀ m, (printStmt? m 0 "" init).toList.length +
      (printExpr? m 0 { bare := true } cond).toList.length +
      (printStmt? m 0 " " post).toList.length ≤
        ((Stmt.forLoop pos init cond post body).print m 0).toList.length := by
    intro m
    have hlen := congrArg List.length (clause_text m pos hsome cond hbody [])
    simp only [length_append, length_cons, append_nil] at hlen
    omega
  constructor
  · intro m n rest hn hfirst
    have hlen := hlength m
    have hexp : ∀ e ∈ cond, e.bare.exposed = false := by
      intro e he
      simpa [mem_def.1 he] using hfirst
    rw [clause_text m pos hsome cond hbody]
    generalize hr : '\n' :: '\x7d' :: '\n' :: rest = body'
    have hafter := reads_simple? hpost m " " (n := n) (by omega) (.body body')
    have hread :=
      reads_cond? hcond hexp m (n := n) (by omega)
        (' ' :: ((printStmt? m 0 " " post).toList ++ '\x7b' :: body'))
    have hbefore := reads_simple? hinit m "" (n := n) (by omega) (.semicolon
      (' ' :: ((printExpr? m 0 { bare := true } cond).toList ++ ';' :: ' ' ::
        ((printStmt? m 0 " " post).toList ++ '\x7b' :: body'))))
    have hempty := reads_emptyBlock n ('\n' :: rest)
    rw [trim_newline, hr] at hempty
    refine reads_forStmt (stops_layout_init hinit m (by simp; decide) "")
      (fun pos' => .orElse' (idle_rangeClause_init hinit m (by omega) pos' _)
        (.orElse ((reads_forClause hbefore (stops_layout_cond? hcond m _) hread
          (stops_layout_init hpost m (stops_layout_brace body') " ") hafter).mono ?_))) hempty
    rintro _ ⟨init', cond', post', rfl, hi, hc, hp⟩ b hb
    simp only [SameStmt, Stmt.shape]
    rw [hi, hc, hp, Block.shape_of_empty _ hbody hb]
  · intro m n rest hn hfirst
    have hlen := hlength m
    rw [clause_text m pos hsome cond hbody]
    obtain ⟨e, rfl, hexp⟩ : ∃ e, cond = some e ∧ e.bare.exposed = true := by
      cases cond with
      | none => simp at hfirst
      | some e => exact ⟨e, rfl, by simpa using hfirst⟩
    generalize ';' :: ' ' :: ((printStmt? m 0 " " post).toList ++ '\x7b' :: '\n' :: '\x7d' ::
      '\n' :: rest) = rest'
    obtain ⟨cs, hread⟩ :=
      Expr.misreads_bare (hcond e rfl).1 m (n := n) (by simp only [printExpr?] at hlen; omega) hexp
        rest'
    have hlayout := Expr.stops_layout_bare (hcond e rfl).1 m rest'
    have hbefore := reads_simple? hinit m "" (n := n) (by omega) (.semicolon
      (' ' :: ((e.print m 0 { bare := true }).toList ++ rest')))
    refine yieldsAt_forStmt (stops_layout_init hinit m (by simp; decide) "")
      (fun pos' => .orElse ?_ (.orElse ?_ ?_)) ?_
    · refine ((yields_range (rules n) pos').mono fun close hclose b => ?_).at _
      obtain ⟨key, value, opPos, op, x, hx⟩ := hclose b
      simp [hx, SameStmt, Stmt.shape]
    · exact (idle_forClause_cond hbefore hlayout hread.opt).yieldsAt _
    · -- A loop with a condition alone has neither of the other parts.
      refine Yields.at (.after fun x => .pure fun b => ?_) _
      cases init <;> cases post <;> simp_all [SameStmt, Stmt.shape, shapeStmt?]
    · simp [SameStmt, Stmt.shape, shapeExpr?]

def varsText (m : SourceMap) : Option Expr → Option Expr → Option AssignOp → List Char
  | some key, value, some op =>
    (key.print m 0 {}).toList ++ (value.elim [] (fun e => ',' :: ' ' :: (e.print m 0 {}).toList) ++
      ' ' :: (op.symbol.toList ++ [' ']))
  | _, _, _ => []

theorem range_text (pos : Pos) {key : Option Expr} (value : Option Expr) (opPos : Pos)
    {op : Option AssignOp} (hop : key.isSome = op.isSome) (x : Expr) {body : Block}
    (hb : body.list.isEmpty = true) (rest : List Char) :
    ((Stmt.range pos key value opPos op x body).print m 0).toList ++ rest =
      "for".toList ++ ' ' :: (varsText m key value op ++ ("range".toList ++ ' ' ::
        ((x.print m 0 { bare := true }).toList ++ ' ' :: '\x7b' :: '\n' :: '\x7d' :: rest))) := by
  simp only [Stmt.print, String.toList_append, append_assoc, Block.print_empty m hb]
  cases key <;> cases op <;> cases value <;> simp_all [varsText, printExpr?]

section Vars

variable {p : Parens} {key value : Option Expr} {op : Option AssignOp}
  (hkey : ∀ e ∈ key, e.Steady p) (hvalue : ∀ e ∈ value, e.Steady p) (m : SourceMap) {n : Nat}
  (hn : (varsText m key value op).length ≤ n)

include hkey

omit hn in
theorem stops_layout_vars (hcs : Stops startsLayout cs) :
    Stops startsLayout (varsText m key value op ++ cs) := by
  match key, op with
  | some key, some op =>
    simp only [varsText, append_assoc]
    exact Expr.Steady.stops_layout m 0 1 (hkey key rfl) _
  | none, _ => exact hcs
  | some key, none => exact hcs

include hvalue hn

theorem reads_vars (hop : key.isSome = op.isSome) (hvk : value.isSome → key.isSome)
    (hsign : ∀ o ∈ op, o = .define ∨ o = .assign) (rest : List Char) :
    Reads (optional (rangeVars (rules n)))
      (varsText m key value op ++ ("range".toList ++ ' ' :: rest))
      ("range".toList ++ ' ' :: rest) fun vars => shapeExpr? p (vars.map (·.1)) = shapeExpr? p key ∧
        shapeExpr? p (vars.bind (·.2.1)) = shapeExpr? p value ∧ vars.map (·.2.2.2) = op := by
  match key, value, op, hop, hvk with
  | none, none, none, _, _ =>
    have hword := word_append (s := "range") (by decide) (stops_word (c := ' ') (by decide) rest)
    have hexpr : Idle (headerExpr (rules n)) ("range".toList ++ ' ' :: rest) :=
      idle_binding_of_keyword (rules n) true 0 hword (by decide) (by decide)
    refine (Idle.opt (.bind hexpr)).mono ?_
    rintro _ rfl
    exact ⟨rfl, rfl, rfl⟩
  | some key, value, some op, _, _ =>
    have hlayout : Stops startsLayout ("range".toList ++ ' ' :: rest) := by simp; decide
    simp only [varsText, length_append, length_cons] at hn
    have hread : Reads (rangeVars (rules n))
        (varsText m (some key) value (some op) ++ ("range".toList ++ ' ' :: rest))
        ("range".toList ++ ' ' :: rest) fun vars => Same p key vars.1 ∧
          shapeExpr? p vars.2.1 = shapeExpr? p value ∧ vars.2.2.2 = op := by
      cases value with
      | none =>
        have hfirst := Expr.Steady.reads m 0 1 (hkey key rfl) (n := n) (by omega)
          (.assignOp n op ("range".toList ++ ' ' :: rest))
        have hcomma :
            Stops (· == ',') (op.symbol.toList ++ ' ' :: ("range".toList ++ ' ' :: rest)) := by
          cases op <;> simp [AssignOp.symbol]
        have hnone : Reads (optional (token "," *> headerExpr (rules n))) _ _
            fun v => shapeExpr? p v = shapeExpr? p none :=
          (reads_noValue (rules n) hcomma).mono (by rintro _ rfl; rfl)
        have hvars := reads_rangeVars (hsign op rfl) hfirst hnone hlayout
        simpa [varsText] using hvars
      | some value =>
        simp only [elim_some, length_cons] at hn
        have hfirst := Expr.Steady.reads m 0 1 (hkey key rfl) (n := n) (by omega)
          (.comma n (' ' :: ((value.print m 0 {}).toList ++ ' ' ::
            (op.symbol.toList ++ ' ' :: ("range".toList ++ ' ' :: rest)))))
        have hsecond : Reads (optional (token "," *> headerExpr (rules n))) _ _
            fun v => shapeExpr? p v = shapeExpr? p (some value) :=
          (reads_value m 0 1 (hvalue value rfl) (n := n) (by omega)
            (.assignOp n op ("range".toList ++ ' ' :: rest))).mono
            (by rintro _ ⟨e, rfl, he⟩; simp only [shapeExpr?]; rw [he])
        have hvars := reads_rangeVars (hsign op rfl) hfirst hsecond hlayout
        simpa [varsText] using hvars
    refine hread.opt.mono ?_
    rintro _ ⟨vars, rfl, hk, hv, ho⟩
    simp only [map_some, bind_some, shapeExpr?]
    exact ⟨by rw [hk], hv, by rw [ho]⟩
  | none, some _, _, _, hvk => simp at hvk

end Vars

theorem Stmt.rereadsBy_range {pos opPos : Pos} {key value : Option Expr} {op : Option AssignOp}
    {x : Expr} {body : Block} (h : Throughout Phrase.Hollow
      (.stmt (.range pos key value opPos op x body))) :
    (Stmt.range pos key value opPos op x body).RereadsBy fun n => forStmt (rules n) := by
  obtain ⟨hbody, hfkey, hfvalue, hfx, hop, hvk, hsign⟩ := h.here
  have hx : Throughout Phrase.Printable (.expr x) :=
    Phrase.Printable.of_hollow (h.child (by simp))
  have hkey : ∀ e ∈ key, e.Steady .dropped := fun e he =>
    .of_hollow (h.child (by simp [mem_def.1 he])) (hfkey e he)
  have hvalue : ∀ e ∈ value, e.Steady .dropped := fun e he =>
    .of_hollow (h.child (by simp [mem_def.1 he])) (hfvalue e he)
  have hlength :
      ∀ m, (varsText m key value op).length + (x.print m 0 { bare := true }).toList.length ≤
      ((Stmt.range pos key value opPos op x body).print m 0).toList.length := by
    intro m
    have hlen := congrArg List.length (range_text m pos value opPos hop x hbody [])
    simp only [length_append, length_cons, append_nil] at hlen
    omega
  have hword : ∀ cs, Stops startsLayout ("range".toList ++ ' ' :: cs) := fun cs => by simp; decide
  constructor
  · intro m n rest hn hfirst
    have hlen := hlength m
    rw [range_text m pos value opPos hop x hbody]
    have hread := Expr.reads_bare hx m (n := n) (by omega) hfx.1.2 (by simpa using hfirst)
      (.body ('\n' :: '\x7d' :: '\n' :: rest))
    have hempty := reads_emptyBlock n ('\n' :: rest)
    rw [trim_newline] at hempty
    refine reads_forStmt (stops_layout_vars hkey m (hword _))
      (fun pos' => .orElse ((reads_rangeClause
      (reads_vars hkey hvalue m (by omega) hop hvk hsign _) (Expr.stops_layout_bare hx m _)
        hread).mono ?_)) hempty
    rintro close ⟨vars, x', ⟨hk, hv, ho⟩, hsame, hclose⟩ b hb
    rw [hclose]
    simp only [SameStmt, Stmt.shape]
    rw [hk, hv, ho, hsame, Block.shape_of_empty _ hbody hb]
  · intro m n rest hn hfirst
    have hlen := hlength m
    rw [range_text m pos value opPos hop x hbody]
    obtain ⟨cs, hread⟩ := Expr.misreads_bare hx m (n := n) (by omega) (by simpa using hfirst)
      (' ' :: '\x7b' :: '\n' :: '\x7d' :: '\n' :: rest)
    refine yieldsAt_forStmt (stops_layout_vars hkey m (hword _))
      (fun pos' => (Reads.yieldsAt (.orElse (reads_rangeClause
      (reads_vars hkey hvalue m (by omega) hop hvk hsign _) (Expr.stops_layout_bare hx m _)
        hread))).mono ?_) ?_
    · rintro close ⟨vars, x', -, hx', hclose⟩ b hsame
      rw [hclose] at hsame
      simp only [SameStmt, Stmt.shape, Stmt.range.injEq] at hsame
      exact hx' hsame.2.2.2.2.2.1
    · simp [SameStmt, Stmt.shape]

def tagText (m : SourceMap) (tag : Option Expr) : List Char :=
  tag.elim [] fun e => (e.print m 0 { bare := true }).toList ++ [' ']

theorem switch_text (pos : Pos) (init : Option Stmt) (tag : Option Expr) {body : Block}
    (hb : body.list.isEmpty = true) (rest : List Char) :
    ((Stmt.switch pos init tag body).print m 0).toList ++ rest =
      "switch".toList ++ ' ' :: ((printStmt? m 0 "; " init).toList ++ (tagText m tag ++
        '\x7b' :: '\n' :: '\x7d' :: rest)) := by
  simp only [Stmt.print, String.toList_append, append_assoc, Block.printClauses_empty m hb]
  cases tag <;> simp [tagText, printExpr?]

/-- The guard of a type switch has another shape than a plain expression. -/
theorem not_isTypeGuard_of_same {x : Expr} (he : Throughout Phrase.Printable (.expr e))
    (h : Same .dropped e x) :
    isTypeGuard (.expr x) = false := by
  refine Bool.eq_false_iff.2 fun hguard => ?_
  have hshape : e.bare.shape .dropped = x.shape .dropped := e.shape_bare.trans h.symm
  have hplain := he.bare.here.1
  have hparen := e.isParen_bare
  cases x with
  | assertion y l t r =>
    generalize e.bare = b at hshape hplain hparen
    cases b <;> simp_all [Expr.shape, Phrase.isPlain, Expr.isPlain, Expr.isParen]
  | _ => simp [isTypeGuard] at hguard

theorem Stmt.rereadsBy_switch {pos : Pos} {tag : Option Expr} {body : Block}
    (h : Throughout Phrase.Hollow (.stmt (.switch pos init tag body))) :
    (Stmt.switch pos init tag body).RereadsBy fun n => switchStmt (rules n) := by
  obtain ⟨hbody, hfinit, hftag⟩ := h.here
  have htag : ∀ e ∈ tag, Throughout Phrase.Printable (.expr e) := fun e he =>
    Phrase.Printable.of_hollow (h.child (by simp [mem_def.1 he]))
  have hinit : ∀ s ∈ init, s.Steady .dropped := fun s hs =>
    .of_hollow (h.child (by simp [mem_def.1 hs])) (hfinit s hs)
  have hlength : ∀ m, (printStmt? m 0 "; " init).toList.length + (tagText m tag).length ≤
      ((Stmt.switch pos init tag body).print m 0).toList.length := by
    intro m
    have hlen := congrArg List.length (switch_text m pos init tag hbody [])
    simp only [length_append, length_cons, append_nil] at hlen
    omega
  constructor
  · intro m n rest hn hfirst
    have hlen := hlength m
    rw [switch_text m pos init tag hbody]
    have hempty := reads_noClauses (rules n) ('\n' :: rest)
    rw [trim_newline] at hempty
    cases tag with
    | none =>
      have hlayout := stops_layout_brace ('\n' :: '\x7d' :: '\n' :: rest)
      have hnone : Idle (headerInit (rules n)) ('\x7b' :: '\n' :: '\x7d' :: '\n' :: rest) :=
        .seqLeft (idle_headerSimple _ (stops_startsExpr (by decide) _))
      refine (reads_switchStmt (stops_layout_init hinit m hlayout "; ")
        (reads_init hinit m hlayout (by omega) hnone) (idle_tag _ _).opt hempty).mono ?_
      rintro _ ⟨pos', init', _, b, rfl, hi, rfl, hb⟩
      simp only [buildSwitch, SameStmt, Stmt.shape]
      rw [hi, Block.shape_of_empty _ hbody hb]
    | some e =>
      have he := htag e rfl
      simp only [tagText, elim_some, length_append, append_assoc, singleton_append] at hlen ⊢
      have hread := Expr.reads_bare he m (n := n) (by omega) (hftag e rfl).1.2
        (by simpa using hfirst) (.body ('\n' :: '\x7d' :: '\n' :: rest))
      refine (reads_switchStmt (stops_layout_init hinit m (Expr.stops_layout_bare he m _) "; ")
        (reads_init_operand hinit he m (by omega) hread) (reads_tag hread).opt hempty).mono ?_
      rintro _ ⟨pos', init', _, b, rfl, hi, ⟨_, rfl, x, rfl, hx⟩, hb⟩
      simp only [buildSwitch, not_isTypeGuard_of_same he hx, Bool.false_eq_true, if_false, SameStmt,
        Stmt.shape, shapeExpr?]
      rw [hi, hx, Block.shape_of_empty _ hbody hb]
  · intro m n rest hn hfirst
    have hlen := hlength m
    rw [switch_text m pos init tag hbody]
    obtain ⟨e, rfl, hexp⟩ : ∃ e, tag = some e ∧ e.bare.exposed = true := by
      cases tag with
      | none => simp at hfirst
      | some e => exact ⟨e, rfl, by simpa using hfirst⟩
    have he := htag e rfl
    simp only [tagText, elim_some, length_append, append_assoc, singleton_append] at hlen ⊢
    obtain ⟨cs, hread⟩ :=
      Expr.misreads_bare he m (n := n) (by omega) hexp
        (' ' :: '\x7b' :: '\n' :: '\x7d' :: '\n' :: rest)
    refine (yieldsAt_switchStmt (stops_layout_init hinit m (Expr.stops_layout_bare he m _) "; ")
      (reads_init_operand hinit he m (by omega) hread) (reads_tag hread).opt).mono ?_
    rintro _ ⟨pos', init', _, b, rfl, _, rfl, x, rfl, hx⟩ hsame
    by_cases hguard : isTypeGuard (.expr x) = true
    · simp [buildSwitch, hguard, SameStmt, Stmt.shape] at hsame
    · simp only [buildSwitch, hguard, Bool.false_eq_true, if_false, SameStmt, Stmt.shape,
        Stmt.switch.injEq, shapeExpr?, Option.some.injEq] at hsame
      exact hx hsame.2.2.1

/-! ### Statements -/

theorem Stmt.rereadsBy_forLoop {pos : Pos} {body : Block}
    (h : Throughout Phrase.Hollow (.stmt (.forLoop pos init cond post body))) :
    (Stmt.forLoop pos init cond post body).RereadsBy fun n => forStmt (rules n) := by
  match init, cond, post with
  | none, none, none => exact Stmt.rereadsBy_forever h.here.1
  | none, some cond, none => exact Stmt.rereadsBy_while h
  | some init, cond, post => exact Stmt.rereadsBy_clause h (.inl rfl)
  | none, cond, some post => exact Stmt.rereadsBy_clause h (.inr rfl)

theorem Stmt.RereadsBy.succ {rule : Nat → Parser Stmt} (h : s.RereadsBy rule) :
    s.RereadsBy fun n => rule (n + 1) where
  reads m n rest hn := h.reads m (n + 1) rest (by omega)
  yields m n rest hn := h.yields m (n + 1) rest (by omega)

def Stmt.word : Stmt → String
  | .ifElse _ _ _ _ _ => "if"
  | .switch _ _ _ _ => "switch"
  | _ => "for"

def Stmt.rule (g : Rules) : Stmt → Parser Stmt
  | .ifElse _ _ _ _ _ => g.conditional
  | .switch _ _ _ _ => switchStmt g
  | _ => forStmt g

theorem Stmt.word_mem_headerWords (s : Stmt) : s.word ∈ headerWords := by
  cases s <;> simp [Stmt.word, headerWords]

theorem Stmt.print_word (hs : s.hasHeader = true) :
    ∃ cs, (s.print m 0).toList = s.word.toList ++ ' ' :: cs := by
  have hif : "if ".toList = "if".toList ++ [' '] := by decide
  have hfor : "for ".toList = "for".toList ++ [' '] := by decide
  have hswitch : "switch ".toList = "switch".toList ++ [' '] := by decide
  cases s with
  | ifElse | forLoop | range | switch =>
    simp only [Stmt.print, String.toList_append, append_assoc, Stmt.word, hif, hfor, hswitch,
      singleton_append]
    exact ⟨_, rfl⟩
  | _ => cases hs

theorem Stmt.stops_layout_header (hs : s.hasHeader = true) (rest : List Char) :
    Stops startsLayout ((s.print m 0).toList ++ rest) := by
  obtain ⟨cs, hcs⟩ := s.print_word m hs
  have hall : ∀ w ∈ headerWords, ∃ c cs, w.toList = c :: cs ∧ startsLayout c = false := by
    simp [headerWords]
    decide
  obtain ⟨c, cs', hw, hc⟩ := hall s.word s.word_mem_headerWords
  rw [hcs, hw]
  simpa using hc

theorem Stmt.stmt_eq_rule (s : Stmt) (n o : Nat) (cs : List Char) :
    stmt (rules n) ⟨o, s.word.toList ++ ' ' :: cs⟩ =
      s.rule (rules n) ⟨o, s.word.toList ++ ' ' :: cs⟩ := by
  have hother {w : String} (hne : s.word ≠ w) : Idle (keyword w) (s.word.toList ++ ' ' :: cs) :=
    idle_otherWord s.word_mem_headerWords hne cs
  have hif : s.word ≠ "if" → Idle (rules n).conditional (s.word.toList ++ ' ' :: cs) :=
    fun hne => idle_rules_conditional n (hother hne)
  have hswitch : s.word ≠ "switch" → Idle (switchStmt (rules n)) (s.word.toList ++ ' ' :: cs) :=
    fun hne => .bind (hother hne)
  have hfor : s.word ≠ "for" → Idle (forStmt (rules n)) (s.word.toList ++ ' ' :: cs) :=
    fun hne => .bind (hother hne)
  rw [stmt_headerWord s.word_mem_headerWords, Parser.orElse_apply, Parser.orElse_apply]
  cases s with
  | ifElse => simp [hswitch (by simp [Stmt.word]) o, hfor (by simp [Stmt.word]) o, Stmt.rule]
  | switch => simp [hif (by simp [Stmt.word]) o, hfor (by simp [Stmt.word]) o, Stmt.rule]
  | _ => simp [hif (by simp [Stmt.word]) o, hswitch (by simp [Stmt.word]) o, Stmt.rule]

theorem Stmt.RereadsBy.stmt (hs : s.hasHeader = true)
    (h : s.RereadsBy fun n => s.rule (rules (n + 1))) :
    s.RereadsBy fun n => Grammar.stmt (rules (n + 1)) := by
  constructor
  all_goals
    intro m n rest hn hfirst o
    obtain ⟨cs, hcs⟩ := s.print_word m hs
    have hrule := s.stmt_eq_rule (n + 1) o (cs ++ '\n' :: rest)
    rw [← cons_append, ← append_assoc, ← hcs] at hrule
    rw [hrule]
  · exact h.reads m n rest hn hfirst o
  · exact h.yields m n rest hn hfirst o

theorem Stmt.rereadsBy_stmt (h : Throughout Phrase.Hollow (.stmt s)) (hs : s.hasHeader = true) :
    s.RereadsBy fun n => stmt (rules (n + 1)) := by
  cases s with
  | ifElse pos init cond body other =>
    have hother : ∀ s ∈ other, s.RereadsBy fun n => branch (rules (n + 1)) := by
      intro s hs
      have hchild : Throughout Phrase.Hollow (.stmt s) :=
        h.child (by simp [mem_def.1 hs])
      exact Phrase.Hollow.rebranches hchild (h.here.2.2.2 s hs)
    exact .stmt hs (Stmt.rereadsBy_ifElse h hother)
  | forLoop pos init cond post body => exact .stmt hs (Stmt.rereadsBy_forLoop h).succ
  | range pos key value opPos op x body => exact .stmt hs (Stmt.rereadsBy_range h).succ
  | switch pos init tag body => exact .stmt hs (Stmt.rereadsBy_switch h).succ
  | _ => cases hs

/-- An `if`, `for`, `range` or `switch` with an empty body is read back from its text up to
parentheses exactly when no composite literal of its printed header opens a brace before the body
does. -/
theorem SourceUnit.reread_header {name text : String} {u : SourceUnit}
    (hu : read? name text = some u) {s : Stmt} (hs : u.file.Has (.stmt s))
    (hheader : s.hasHeader = true) (hhollow : Throughout (fun n => n.isHollow = true) (.stmt s))
    (name' : String) :
    (∃ u' s', read? name' (inBody (s.text u.map)) = some u' ∧ u'.file.onlyStmt? = some s' ∧
      s'.shape .dropped = s.shape .dropped) ↔ s.bodyOpensFirst = true := by
  have hrereads := Stmt.rereadsBy_stmt (hhollow.and (SourceUnit.formed_of_has hu hs)) hheader
  have hlength : (s.print u.map 0).toList.length ≤ 2 * (inBody (s.text u.map)).toList.length := by
    rw [toList_inBody, Stmt.text]
    simp only [List.length_append]
    omega
  have hlayout := s.stops_layout_header u.map hheader ['\n', '\x7d', '\n']
  constructor
  · rintro ⟨u', s', hu', hs', hsame⟩
    refine Bool.not_eq_false _ ▸ fun hfirst => ?_
    obtain ⟨f, hf, rfl⟩ := Option.map_eq_some_iff.1 hu'
    have hshape := f.onlyStmt?_resolve .dropped
    rw [hs'] at hshape
    obtain ⟨s₁, hs₁, hshape⟩ := Option.map_eq_some_iff.1 hshape.symm
    have hyield := hrereads.yields u.map _ ['\x7d', '\n'] hlength hfirst
    exact of_parse?_inBody hlayout hyield hf hs₁ (hshape.trans hsame)
  · intro hfirst
    have hread := hrereads.reads u.map _ ['\x7d', '\n'] hlength hfirst
    obtain ⟨f, s₁, hf, hs₁, hsame⟩ := parse?_inBody hlayout hread
    have hshape := f.onlyStmt?_resolve .dropped
    rw [hs₁] at hshape
    obtain ⟨s', hs', hshape⟩ := Option.map_eq_some_iff.1 hshape
    exact ⟨_, s', by rw [read?, Stmt.text, hf]; rfl, hs', hshape.trans hsame⟩

def isHeader (first : Bool) : Phrase → Bool
  | .stmt s => s.hasHeader && (Phrase.stmt s).check (fun n => n.isHollow = true) 8 &&
      s.bodyOpensFirst == first
  | .expr _ => false

theorem isHeader_spec {first : Bool} {n : Phrase} (h : isHeader first n = true) :
    ∃ s, n = .stmt s ∧ s.hasHeader = true ∧ Throughout (fun n => n.isHollow = true) (.stmt s) ∧
      s.bodyOpensFirst = first := by
  cases n with
  | expr e => cases h
  | stmt s =>
    simp only [isHeader, Bool.and_eq_true, beq_iff_eq] at h
    exact ⟨s, rfl, h.1.1, Phrase.throughout_of_check 8 h.1.2, h.2⟩

def headersText : String :=
  "package p\nfunc f() \x7b\nif (T\x7b\x7d == x) \x7b\n\x7d\nfor k, v := range (g(T\x7b\x7d)) \x7b\x7d\n\x7d\n"

/-- A literal between the brackets of a call leaves the brace of the body alone. -/
theorem reread_range : ∃ u s, SourceUnit.read? "p.go" headersText = some u ∧ u.file.Has (.stmt s) ∧
    s.hasHeader = true ∧ Throughout (fun n => n.isHollow = true) (.stmt s) ∧
    ∃ u' s', SourceUnit.read? "q.go" (inBody (s.text u.map)) = some u' ∧
    u'.file.onlyStmt? = some s' ∧
      s'.shape .dropped = s.shape .dropped := by
  have h : (SourceUnit.read? "p.go" headersText).any fun u =>
      (u.file.at? [1]).any (isHeader true) := by decide +kernel
  obtain ⟨u, hu, h⟩ := (Option.any_eq_true _ _).1 h
  obtain ⟨n, hn, h⟩ := (Option.any_eq_true _ _).1 h
  obtain ⟨s, rfl, hheader, hhollow, hfirst⟩ := isHeader_spec h
  have hs := File.has_of_at? hn
  exact ⟨u, s, hu, hs, hheader, hhollow, (SourceUnit.reread_header hu hs hheader hhollow "q.go").2
    hfirst⟩

/-- A literal that stood in parentheses takes the brace of the body. -/
theorem literal_header_rejected :
    ∃ u s, SourceUnit.read? "p.go" headersText = some u ∧ u.file.Has (.stmt s) ∧
    s.hasHeader = true ∧ Throughout (fun n => n.isHollow = true) (.stmt s) ∧
    SourceUnit.read? "q.go" (inBody (s.text u.map)) = none := by
  have h : (SourceUnit.read? "p.go" headersText).any fun u => (u.file.at? [0]).any fun n =>
      isHeader false n &&
      match n with
      | .stmt s => (SourceUnit.read? "q.go" (inBody (s.text u.map))).isNone
      | .expr _ => false := by decide +kernel
  obtain ⟨u, hu, h⟩ := (Option.any_eq_true _ _).1 h
  obtain ⟨n, hn, h⟩ := (Option.any_eq_true _ _).1 h
  obtain ⟨h, hnone⟩ := Bool.and_eq_true_iff.1 h
  obtain ⟨s, rfl, hheader, hhollow, -⟩ := isHeader_spec h
  exact ⟨u, s, hu, File.has_of_at? hn, hheader, hhollow, Option.isNone_iff_eq_none.1 hnone⟩

end GoFun
