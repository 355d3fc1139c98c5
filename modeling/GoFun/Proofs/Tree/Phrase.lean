import GoFun.Proofs.Tree.Shape

/-!
# Phrases of trees

The phrases of a file are its expressions, types and statements at any depth. `File.Has` says that a
phrase stands somewhere in a file, `Throughout P` that all phrases from one on downwards satisfy
`P`.
-/
namespace GoFun

open List

variable {n : Phrase} {P : Phrase → Prop}
variable {m : Phrase} {path : List Nat}

inductive Phrase where
  | expr (e : Expr)
  | stmt (s : Stmt)

def Phrase.shape (p : Parens) : Phrase → Phrase
  | expr e => .expr (e.shape p)
  | stmt s => .stmt (s.shape p)

def FieldList.children (fields : FieldList) : List Phrase := fields.list.map fun f => .expr f.type

def FuncType.children (t : FuncType) : List Phrase :=
  t.params.children ++ t.results.toList.flatMap FieldList.children

def Block.children (b : Block) : List Phrase := b.list.map .stmt

def Spec.children : Spec → List Phrase
  | .value _ t values => t.toList.map .expr ++ values.map .expr
  | .type _ _ t => [.expr t]

def GenDecl.children (d : GenDecl) : List Phrase := d.specs.flatMap Spec.children

def Expr.children : Expr → List Phrase
  | .ident _ | .lit _ => []
  | .paren _ x _ | .selector x _ | .star _ x | .unary _ _ x | .chan _ _ x => [.expr x]
  | .index x _ y _ | .binary x _ _ y | .map _ x y | .keyValue x _ y => [.expr x, .expr y]
  | .call f _ args _ _ => .expr f :: args.map .expr
  | .array _ len elem => len.toList.map .expr ++ [.expr elem]
  | .struct _ fields | .interface _ fields => fields.children
  | .composite t _ elems _ => t.toList.map .expr ++ elems.map .expr
  | .funcLit t body => t.children ++ body.children
  | .slice x _ low high max _ =>
    .expr x :: (low.toList.map .expr ++ high.toList.map .expr ++ max.toList.map .expr)
  | .assertion x _ t _ => .expr x :: t.toList.map .expr
  | .ellipsis _ elem => elem.toList.map .expr
  | .func t => t.children

def Stmt.children : Stmt → List Phrase
  | .decl d => d.children
  | .expr x | .incDec x _ _ | .go _ x | .defer _ x => [.expr x]
  | .assign lhs _ _ rhs => lhs.map .expr ++ rhs.map .expr
  | .ret _ results => results.map .expr
  | .jump _ _ _ => []
  | .block b | .select _ b => b.children
  | .ifElse _ init cond body other =>
    init.toList.map .stmt ++ .expr cond :: (body.children ++ other.toList.map .stmt)
  | .forLoop _ init cond post body =>
    init.toList.map .stmt ++ cond.toList.map .expr ++ post.toList.map .stmt ++ body.children
  | .range _ key value _ _ x body =>
    key.toList.map .expr ++ value.toList.map .expr ++ .expr x :: body.children
  | .labeled _ _ s => [.stmt s]
  | .send chan _ value => [.expr chan, .expr value]
  | .switch _ init tag body => init.toList.map .stmt ++ tag.toList.map .expr ++ body.children
  | .typeSwitch _ init guard body => init.toList.map .stmt ++ .stmt guard :: body.children
  | .caseClause _ list _ body => list.map .expr ++ body.map .stmt
  | .commClause _ comm _ body => comm.toList.map .stmt ++ body.map .stmt

def Phrase.children : Phrase → List Phrase
  | expr e => e.children
  | stmt s => s.children

def FuncDecl.children (f : FuncDecl) : List Phrase :=
  f.recv.toList.flatMap FieldList.children ++ f.params.children ++
    f.results.toList.flatMap FieldList.children ++ f.body.toList.flatMap Block.children

def Decl.children : Decl → List Phrase
  | .func f => f.children
  | .gen g => g.children

def File.children (file : File) : List Phrase :=
  file.imports.map (fun spec => .expr spec.path) ++ file.decls.flatMap Decl.children

section Size

variable {c : Phrase}
variable {α : Type} {g : α → Phrase}

theorem sizeOf_lt_of_mem_map [SizeOf α] (hg : ∀ a, sizeOf (g a) = 1 + sizeOf a) {as : List α}
    (h : c ∈ as.map g) :
    sizeOf c < 1 + sizeOf as := by
  obtain ⟨a, ha, rfl⟩ := mem_map.1 h
  have := sizeOf_lt_of_mem ha
  rw [hg]
  omega

theorem sizeOf_lt_of_mem_toList_map [SizeOf α] (hg : ∀ a, sizeOf (g a) = 1 + sizeOf a)
    {a : Option α} (h : c ∈ a.toList.map g) : sizeOf c < 1 + sizeOf a := by
  cases a <;> simp_all

theorem FieldList.sizeOf_child {fields : FieldList} (h : c ∈ fields.children) :
    sizeOf c < 1 + sizeOf fields := by
  obtain ⟨opening, list, closing⟩ := fields
  obtain ⟨⟨names, t, tag⟩, hf, rfl⟩ := mem_map.1 h
  have := sizeOf_lt_of_mem hf
  simp at this ⊢
  omega

theorem FuncType.sizeOf_child {t : FuncType} (h : c ∈ t.children) : sizeOf c < 1 + sizeOf t := by
  obtain ⟨funcPos, params, results⟩ := t
  rcases mem_append.1 h with h | h
  · have := FieldList.sizeOf_child h
    simp at this ⊢
    omega
  · obtain ⟨fields, hf, hc⟩ := mem_flatMap.1 h
    obtain rfl := Option.mem_toList.1 hf
    have := FieldList.sizeOf_child hc
    simp at this ⊢
    omega

theorem Block.sizeOf_child {b : Block} (h : c ∈ b.children) : sizeOf c < 1 + sizeOf b := by
  have := sizeOf_lt_of_mem_map (by simp) h
  obtain ⟨lbrace, list, rbrace⟩ := b
  simp at this ⊢
  omega

theorem GenDecl.sizeOf_child {d : GenDecl} (h : c ∈ d.children) : sizeOf c < 1 + sizeOf d := by
  obtain ⟨wordPos, word, lparen, specs, rparen⟩ := d
  obtain ⟨spec, hs, hc⟩ := mem_flatMap.1 h
  have := sizeOf_lt_of_mem hs
  cases spec with
  | value names t values =>
    have := (mem_append.1 hc).imp (sizeOf_lt_of_mem_toList_map (by simp))
      (sizeOf_lt_of_mem_map (by simp))
    simp at *
    omega
  | type name equals t =>
    obtain rfl := mem_singleton.1 hc
    simp at *
    omega

theorem Phrase.sizeOf_child (h : c ∈ n.children) : sizeOf c < sizeOf n := by
  have hfields {fields : FieldList} := fields.sizeOf_child (c := c)
  have htype {t : FuncType} := t.sizeOf_child (c := c)
  have hblock {b : Block} := b.sizeOf_child (c := c)
  have hdecl {d : GenDecl} := d.sizeOf_child (c := c)
  have hexpr {e : Option Expr} : c ∈ e.toList.map .expr → _ := sizeOf_lt_of_mem_toList_map (by simp)
  have hstmt {s : Option Stmt} : c ∈ s.toList.map .stmt → _ := sizeOf_lt_of_mem_toList_map (by simp)
  have hexprs {es : List Expr} : c ∈ es.map .expr → _ := sizeOf_lt_of_mem_map (by simp)
  have hstmts {ss : List Stmt} : c ∈ ss.map .stmt → _ := sizeOf_lt_of_mem_map (by simp)
  cases n with
  | expr e =>
    cases e <;> simp only [Phrase.children, Expr.children, mem_append, mem_cons, not_mem_nil] at h
      <;> grind
  | stmt s =>
    cases s <;> simp only [Phrase.children, Stmt.children, mem_append, mem_cons, not_mem_nil] at h
      <;> grind

end Size

/-- What holds of a phrase once it holds of its children holds of all phrases. -/
@[elab_as_elim]
theorem Phrase.induction (step : ∀ n, (∀ c ∈ n.children, P c) → P n) (n : Phrase) : P n :=
  step n fun c _ => Phrase.induction step c
termination_by sizeOf n
decreasing_by exact Phrase.sizeOf_child ‹_›

/-- `Occurs n m`: the phrase `n` is `m` or stands below it. -/
inductive Occurs (n : Phrase) : Phrase → Prop
  | self : Occurs n n
  | deeper {c m : Phrase} (member : c ∈ m.children) (occurs : Occurs n c) : Occurs n m

def File.Has (file : File) (n : Phrase) : Prop := ∃ root ∈ file.children, Occurs n root

/-- The property `P` holds of a phrase and of all that stands below it. -/
inductive Throughout (P : Phrase → Prop) : Phrase → Prop
  | intro {n : Phrase} (here : P n) (below : ∀ c ∈ n.children, Throughout P c) : Throughout P n

def File.Throughout (P : Phrase → Prop) (file : File) : Prop :=
  ∀ n ∈ file.children, GoFun.Throughout P n

namespace Throughout

variable {Q : Phrase → Prop}

theorem here (h : Throughout P n) : P n := by
  cases h with
  | intro here _ => exact here

theorem child {c : Phrase} (h : Throughout P n) (hc : c ∈ n.children) : Throughout P c := by
  cases h with
  | intro _ below => exact below c hc

theorem mono (h : Throughout P n) (hPQ : ∀ m, P m → Q m) : Throughout Q n := by
  induction h with
  | intro here _ ih => exact .intro (hPQ _ here) ih

theorem and (h : Throughout P n) (h' : Throughout Q n) : Throughout (fun m => P m ∧ Q m) n := by
  induction h with
  | intro here _ ih => exact .intro ⟨here, h'.here⟩ fun c hc => ih c hc (h'.child hc)

theorem occurs (h : Throughout P m) (ho : Occurs n m) : Throughout P n := by
  induction ho with
  | self => exact h
  | deeper member _ ih => exact ih (h.child member)

end Throughout

theorem File.Throughout.has {file : File} (h : file.Throughout P) (hn : file.Has n) :
    GoFun.Throughout P n := by
  obtain ⟨root, hr, ho⟩ := hn
  exact (h root hr).occurs ho

/-- The phrase that a path of child numbers leads to. -/
def Phrase.at? : Phrase → List Nat → Option Phrase
  | n, [] => some n
  | n, k :: path => n.children[k]?.bind fun c => c.at? path

def File.at? (file : File) : List Nat → Option Phrase
  | [] => none
  | k :: path => file.children[k]?.bind fun c => c.at? path

theorem Phrase.occurs_of_at? (h : m.at? path = some n) : Occurs n m := by
  induction path generalizing m with
  | nil =>
    obtain rfl : m = n := by simpa [Phrase.at?] using h
    exact .self
  | cons k path ih =>
    obtain ⟨c, hc, hn⟩ := Option.bind_eq_some_iff.1 h
    exact .deeper (mem_of_getElem? hc) (ih hn)

theorem File.has_of_at? {file : File} (h : file.at? path = some n) : file.Has n := by
  cases path with
  | nil => simp [File.at?] at h
  | cons k path =>
    obtain ⟨c, hc, hn⟩ := Option.bind_eq_some_iff.1 h
    exact ⟨c, mem_of_getElem? hc, Phrase.occurs_of_at? hn⟩

/-- Checks a property of a phrase and of all below it, as far down as `depth` allows. -/
def Phrase.check (P : Phrase → Prop) [DecidablePred P] : Nat → Phrase → Bool
  | 0, _ => false
  | depth + 1, n => decide (P n) && n.children.all (Phrase.check P depth)

theorem Phrase.throughout_of_check [DecidablePred P] (depth : Nat) (h : n.check P depth = true) :
    Throughout P n := by
  induction depth generalizing n with
  | zero => simp [Phrase.check] at h
  | succ depth ih =>
    simp only [Phrase.check, Bool.and_eq_true, decide_eq_true_eq, all_eq_true] at h
    exact .intro h.1 fun c hc => ih (h.2 c hc)

end GoFun
