import GoFun.Proofs.Source.Unclosed

/-!
# Nested extents

The extent of an expression or a type encloses the extents of all that stand below it. Those that
stand directly below it do not overlap, and the operator of an operation stands between its
operands. The signature of a method begins with no word of its own and has no extent.
-/
namespace GoFun

open GoFun.Parser GoFun.Grammar
open List (Subperm)

variable {e : Expr}
variable (m : Nat → Nat)

/-- The expressions and types of a phrase that stand below no other one of it. -/
def Phrase.nearest : Phrase → List Expr
  | .expr e => [e]
  | .stmt s => s.children.attach.flatMap fun c => c.1.nearest
termination_by n => sizeOf n
decreasing_by exact Phrase.sizeOf_child c.2

theorem Phrase.nearest_expr (e : Expr) : (Phrase.expr e).nearest = [e] := by rw [Phrase.nearest]

theorem Phrase.nearest_stmt (s : Stmt) :
    (Phrase.stmt s).nearest = s.children.flatMap Phrase.nearest := by
  rw [Phrase.nearest]
  exact List.flatMap_subtype (fun _ _ => rfl) |>.trans (by simp)

/-- The expressions and types directly below an expression. -/
def Expr.inner (e : Expr) : List Expr := e.parts.flatMap Phrase.nearest

/-- `e.Encloses d`: the expression `d` stands somewhere below `e`. -/
inductive Expr.Encloses : Expr → Expr → Prop
  | part {e d : Expr} (h : d ∈ e.inner) : Encloses e d
  | deeper {e c d : Expr} (h : c ∈ e.inner) (hd : Encloses c d) : Encloses e d

/-- The expressions and types of a file, all but the signatures of methods. -/
inductive File.Node (file : File) : Expr → Prop
  | root {n : Phrase} {e : Expr} (h : n ∈ file.children) (he : e ∈ n.nearest) : Node file e
  | part {e d : Expr} (h : Node file e) (hd : d ∈ e.inner) : Node file d

def Expr.Extends (e : Expr) (lo hi : Nat) : Prop := e.start = some lo ∧ e.stop = some hi ∧ lo < hi

/-- The extents of two expressions do not overlap. -/
def Expr.Apart (d e : Expr) : Prop := ∀ a b a' b', d.Extends a b → e.Extends a' b' → b ≤ a' ∨ b' ≤ a

/-- Expressions between two offsets that do not overlap. -/
def Between (lo hi : Nat) (es : List Expr) : Prop :=
  (∀ e ∈ es, ∃ a b, e.Extends a b ∧ lo ≤ a ∧ b ≤ hi) ∧ es.Pairwise Expr.Apart

/-- The operator of an operation stands between its operands. -/
def Expr.IsOrdered : Expr → Prop
  | .binary x q _ y => ∃ a p b, x.stop = some a ∧ q = some p ∧ y.start = some b ∧ a ≤ p ∧ p < b
  | _ => True

def Expr.IsNested (e : Expr) : Prop :=
  ∃ lo hi, e.Extends lo hi ∧ Between lo hi e.inner ∧ e.IsOrdered

theorem Expr.Extends.unique {a b a' b' : Nat} (h : e.Extends a b) (h' : e.Extends a' b') :
    a = a' ∧ b = b' :=
  ⟨Option.some.inj (h.1.symm.trans h'.1), Option.some.inj (h.2.1.symm.trans h'.2.1)⟩

theorem Expr.Apart.symm {d : Expr} (h : d.Apart e) : e.Apart d :=
  fun a b a' b' he hd => (h a' b' a b hd he).symm

namespace Between

variable {lo mid hi : Nat} {es es' : List Expr}

theorem mono {lo' hi' : Nat} (h : Between lo hi es) (hlo : lo' ≤ lo) (hhi : hi ≤ hi') :
    Between lo' hi' es := by
  refine ⟨fun e he => ?_, h.2⟩
  obtain ⟨a, b, hext, ha, hb⟩ := h.1 e he
  exact ⟨a, b, hext, by omega, by omega⟩

theorem append (h : Between lo mid es) (h' : Between mid hi es') (hlo : lo ≤ mid) (hhi : mid ≤ hi) :
    Between lo hi (es ++ es') := by
  refine ⟨?_, List.pairwise_append.2 ⟨h.2, h'.2, fun d hd e he a b a' b' hda hea => ?_⟩⟩
  · exact List.forall_mem_append.2 ⟨(h.mono (Nat.le_refl _) hhi).1, (h'.mono hlo (Nat.le_refl _)).1⟩
  · obtain ⟨_, _, hext, -, hb⟩ := h.1 d hd
    obtain ⟨_, _, hext', ha, -⟩ := h'.1 e he
    obtain ⟨rfl, rfl⟩ := hda.unique hext
    obtain ⟨rfl, rfl⟩ := hea.unique hext'
    exact .inl (Nat.le_trans hb ha)

theorem perm (h : Between lo hi es) (hp : es.Perm es') : Between lo hi es' :=
  ⟨fun e he => h.1 e (hp.mem_iff.2 he), (hp.pairwise_iff Expr.Apart.symm).1 h.2⟩

end Between

/-- Where the phrases of a list have their windows one behind the other, so have the expressions in
them. -/
theorem Laid.between {P : Nat → Nat → Phrase → Prop} {lo hi : Nat} {l l' : List Phrase}
    (h : Laid P lo l' hi)
    (hl : Subperm l l') (hP : ∀ a b, ∀ n ∈ l, P a b n → Between a b n.nearest) :
    Between lo hi (l.flatMap Phrase.nearest) := by
  induction h generalizing l with
  | nil =>
    obtain rfl := List.subperm_nil.1 hl
    exact ⟨by simp, by simp⟩
  | @cons lo a b hi n l' hlo hab hn hrest ih =>
    obtain ⟨l₀, hperm, hsub⟩ := hl
    have hmem : ∀ m ∈ l₀, m ∈ l := fun m => hperm.mem_iff.1
    refine Between.perm ?_ (hperm.flatMap_right _)
    cases hsub with
    | cons _ hsub => exact (ih hsub.subperm fun a b m hm => hP a b m (hmem m hm)).mono (by omega) (Nat.le_refl _)
    | cons_cons _ hsub =>
      have hrest' := ih hsub.subperm fun a b m hm => hP a b m (hmem m (.tail _ hm))
      exact ((hP a b n (hmem n (.head _)) hn).mono hlo (Nat.le_refl _)).append hrest' (by omega) hrest.le
  | among hl' _ ih => exact ih (hl.trans hl') hP

section Sources

variable {src : List Char} {g : Rules} {lo hi : Nat}

theorem Sourced.extends (h : Sourced src g lo hi (.expr e)) : e.Extends lo hi := by
  cases h with
  | expr hu h hstop hlt => exact ⟨h.start, hstop, hlt⟩
  | elements hu h hstop hlt => exact ⟨starts_elements g _ _ _ h, hstop, hlt⟩
  | built _ hstart hstop hlt => exact ⟨hstart, hstop, hlt⟩

theorem Sourced.between (hg : g.Sources src) {n : Phrase} (h : Sourced src g lo hi n) :
    Between lo hi n.nearest := by
  induction n using Phrase.induction generalizing lo hi with
  | step n ih =>
    cases n with
    | expr e =>
      rw [Phrase.nearest_expr]
      exact ⟨by simpa using ⟨lo, hi, h.extends, Nat.le_refl _, Nat.le_refl _⟩,
        List.pairwise_singleton _ _⟩
    | stmt s =>
      rw [Phrase.nearest_stmt]
      exact (sourced_parts hg h).between (.refl _) fun a b c hc hn => ih c hc hn

theorem Sourced.isOrdered (hs : g.Sound) (hg : g.Sources src) (h : Sourced src g lo hi (.expr e)) :
    e.IsOrdered := by
  cases e with
  | binary x q op y =>
    obtain ⟨u, t, hu, horigin⟩ := sourced_origin h rfl
    obtain ⟨v, w, _, k, inHeader, -, hstretch, hop, hy⟩ := horigin.operation hs hg.spanned hu
    obtain ⟨a, ha, -, hle⟩ := hstretch.stop_eq
    obtain ⟨hq, r, -, hr, hskips⟩ := operatorOf_eq_some hop
    have hpos : 0 < utf8Length op.symbol.toList := by cases op <;> decide
    have hlew := hskips.leads.le
    simp only at hr
    exact ⟨a, v.offset, w.offset, ha, hq, starts_binding g inHeader (k + 1) w y _ hy, hle, by omega⟩
  | _ => trivial

theorem Sourced.isNested (hs : g.Sound) (hg : g.Sources src) (h : Sourced src g lo hi (.expr e)) :
    e.IsNested :=
  ⟨lo, hi, h.extends, (sourced_parts hg h).between (.refl _) fun _ _ _ _ hn => hn.between hg,
    h.isOrdered hs hg⟩

end Sources

theorem Laid.mem_nearest {src : List Char} {g : Rules} (hg : g.Sources src) {l : List Phrase}
    {lo hi : Nat}
    (h : Laid (Sourced src g) lo l hi) (he : e ∈ l.flatMap Phrase.nearest) :
    ∃ a b, Sourced src g a b (.expr e) := by
  obtain ⟨n, hn, he⟩ := List.mem_flatMap.1 he
  obtain ⟨a, b, -, -, hsourced⟩ := h.mem hn
  clear h hn
  induction n using Phrase.induction generalizing a b with
  | step n ih =>
    cases n with
    | expr e' =>
      rw [Phrase.nearest_expr, List.mem_singleton] at he
      exact ⟨a, b, he ▸ hsourced⟩
    | stmt s =>
      rw [Phrase.nearest_stmt] at he
      obtain ⟨c, hc, he⟩ := List.mem_flatMap.1 he
      obtain ⟨a, b, -, -, hsourced⟩ := (sourced_parts hg hsourced).mem hc
      exact ih c hc he a b hsourced

theorem parse?_isNested {text : String} {f : File} (h : parse? text = some f) (he : f.Node e) :
    e.IsNested := by
  have hg := rules_sources text.toList
  obtain ⟨⟨_, t⟩, hfile, rfl⟩ := Option.map_eq_some_iff.1 h
  obtain ⟨_, hlaid⟩ := file_laid hg hfile
  have hsourced : ∃ lo hi, Sourced text.toList (rules (depthFor text.toList)) lo hi (.expr e) := by
    induction he with
    | root hn he => exact hlaid.mem_nearest hg (List.mem_flatMap.2 ⟨_, hn, he⟩)
    | part _ hd ih =>
      obtain ⟨lo, hi, hsourced⟩ := ih
      exact (sourced_parts hg hsourced).mem_nearest hg hd
  obtain ⟨lo, hi, hsourced⟩ := hsourced
  exact hsourced.isNested (rules_sound _) hg

theorem Field.parts_move (f : Field) : (f.move m).parts = f.parts.map (Phrase.move m) := by
  obtain ⟨names, t, tag⟩ := f
  cases t with
  | func t =>
    obtain ⟨_ | pos, params, results⟩ := t
    · exact FuncType.children_move m ⟨none, params, results⟩
    · rfl
  | _ => rfl

theorem Expr.parts_move (e : Expr) : (e.move m).parts = e.parts.map (Phrase.move m) := by
  have hchildren := e.children_move m
  cases e with
  | funcLit t body => simp [Expr.move, Expr.parts, Block.children_move, Phrase.move]
  | interface pos methods => simp [Expr.move, Expr.parts, List.flatMap_map, List.map_flatMap,
    Field.parts_move]
  | _ => exact hchildren

theorem Phrase.nearest_move (n : Phrase) : (n.move m).nearest = n.nearest.map (Expr.move m) := by
  induction n using Phrase.induction with
  | step n ih =>
    cases n with
    | expr e => simp [Phrase.move, Phrase.nearest_expr]
    | stmt s =>
      simp only [Phrase.move, Phrase.nearest_stmt, Stmt.children_move, List.flatMap_map,
        List.map_flatMap]
      exact List.flatMap_congr ih

theorem Expr.inner_move (e : Expr) : (e.move m).inner = e.inner.map (Expr.move m) := by
  simp only [Expr.inner, Expr.parts_move, List.flatMap_map, List.map_flatMap, Phrase.nearest_move]

theorem Expr.extends_move (e : Expr) (lo hi : Nat) :
    (e.move id).Extends lo hi ↔ e.Extends lo hi := by
  simp [Expr.Extends, Expr.start_move, Expr.stop_move]

theorem Expr.isNested_move (e : Expr) : (e.move id).IsNested ↔ e.IsNested := by
  have hordered : (e.move id).IsOrdered ↔ e.IsOrdered := by
    cases e with
    | binary x q op y => simp [Expr.move, Expr.IsOrdered, Expr.start_move, Expr.stop_move]
    | _ => rfl
  have hapart : ∀ c d : Expr, (c.move id).Apart (d.move id) ↔ c.Apart d := fun c d => by
    simp [Expr.Apart, Expr.extends_move]
  have hbetween : ∀ lo hi, Between lo hi (e.move id).inner ↔ Between lo hi e.inner :=
    fun lo hi => by
    simp [Between, Expr.inner_move, List.pairwise_map, hapart, Expr.extends_move]
  simp [Expr.IsNested, Expr.extends_move, hordered, hbetween]

/-- An expression of a resolved file is, but for objects, one of the file before. -/
theorem File.Node.of_resolve {file : File} (h : file.resolve.Node e) :
    ∃ k, file.Node k ∧ e.move id = k.move id := by
  induction h with
  | @root n e hn he =>
    have hm : n.move id ∈ file.children.map (Phrase.move id) :=
      file.resolve_children_move id ▸ List.mem_map_of_mem hn
    obtain ⟨m, hm, hmove⟩ := List.mem_map.1 hm
    have hmem : e.move id ∈ m.nearest.map (Expr.move id) := by
      rw [← Phrase.nearest_move, hmove, Phrase.nearest_move]
      exact List.mem_map_of_mem he
    obtain ⟨k, hk, hke⟩ := List.mem_map.1 hmem
    exact ⟨k, .root hm hk, hke.symm⟩
  | @part e d _ hd ih =>
    obtain ⟨k, hk, hmove⟩ := ih
    have hmem : d.move id ∈ k.inner.map (Expr.move id) := by
      rw [← Expr.inner_move, ← hmove, Expr.inner_move]
      exact List.mem_map_of_mem hd
    obtain ⟨c, hc, hcd⟩ := List.mem_map.1 hmem
    exact ⟨c, .part hk hc, hcd.symm⟩

theorem SourceUnit.read?_isNested {name text : String} {u : SourceUnit}
    (h : read? name text = some u) (he : u.file.Node e) : e.IsNested := by
  obtain ⟨f, hf, rfl⟩ := Option.map_eq_some_iff.1 h
  obtain ⟨k, hk, hmove⟩ := he.of_resolve
  rw [← e.isNested_move, hmove, k.isNested_move]
  exact parse?_isNested hf hk

/-- Every expression and every type of an accepted source has an extent, in which all those below it
have theirs. The extents of those directly below it do not overlap, and an operator stands behind
the end of its left operand and before the right one. -/
theorem SourceUnit.extents_nest {name text : String} {u : SourceUnit} (h : read? name text = some u)
    {e : Expr} (he : u.file.Node e) :
    (∃ lo hi, e.Extends lo hi ∧ ∀ d, e.Encloses d → ∃ a b, d.Extends a b ∧ lo ≤ a ∧ b ≤ hi) ∧
      e.inner.Pairwise Expr.Apart ∧
      ∀ x q op y, e = .binary x q op y → ∃ a p b, x.stop = some a ∧ q = some p ∧ y.start = some b ∧
      a ≤ p ∧ p < b := by
  obtain ⟨lo, hi, hext, hbetween, hordered⟩ := read?_isNested h he
  refine ⟨⟨lo, hi, hext, fun d hd => ?_⟩, hbetween.2, fun x q op y hop => ?_⟩
  · clear hordered
    induction hd generalizing lo hi with
    | part hd => exact hbetween.1 _ hd
    | @deeper e c d hc _ ih =>
      have hnode : u.file.Node c := .part he hc
      obtain ⟨a, b, hc, ha, hb⟩ := hbetween.1 c hc
      obtain ⟨a', b', hext', hbetween', -⟩ := read?_isNested h hnode
      obtain ⟨rfl, rfl⟩ := hc.unique hext'
      obtain ⟨a', b', hd, ha', hb'⟩ := ih hnode a b hext' hbetween'
      exact ⟨a', b', hd, by omega, by omega⟩
  · subst hop
    exact hordered

def nestedText : String :=
  "package p\ntype T interface \x7b m(a, b int) error \x7d\nvar f = func(x []int) \x7b g(x[0] + x[1]) \x7d\n"

def isNested : List Phrase → Bool
  | [.expr _, .expr (.funcLit ⟨pos, _, _⟩ ⟨_, [.expr (.call _ _ [.binary _ q _ _] _ _)], _⟩)] =>
      pos == some 57 && q == some 80
  | _ => false

/-- A function literal has its signature and a call directly below it. The sum in the call lies in
its extent, too. -/
theorem nested_sum : ∃ u e x q op y, SourceUnit.read? "p.go" nestedText = some u ∧ u.file.Node e ∧
    e.start = some 57 ∧ e.inner.length = 2 ∧ e.inner.Pairwise Expr.Apart ∧
    e.Encloses (.binary x q op y) ∧ q = some 80 ∧
    (∃ hi a b, e.Extends 57 hi ∧ (Expr.binary x q op y).Extends a b ∧ 57 ≤ a ∧ b ≤ hi) ∧
    ∃ a b, x.stop = some a ∧ y.start = some b ∧ a ≤ 80 ∧ 80 < b := by
  have h : (SourceUnit.read? "p.go" nestedText).any fun u =>
      isNested u.file.children := by decide +kernel
  obtain ⟨u, hu, h⟩ := (Option.any_eq_true _ _).1 h
  unfold isNested at h
  split at h
  case h_2 => cases h
  case h_1 first pos params results lbrace f lparen x q op y dots rparen rbrace hchildren =>
    simp only [Bool.and_eq_true, beq_iff_eq] at h
    obtain ⟨rfl, rfl⟩ := h
    let call : Expr := .call f lparen [.binary x (some 80) op y] dots rparen
    let e : Expr := .funcLit ⟨some 57, params, results⟩ ⟨lbrace, [.expr call], rbrace⟩
    have hinner : e.inner = [.func ⟨some 57, params, results⟩, call] := by
      simp [e, Expr.inner, Expr.parts, Block.children, Phrase.nearest_expr, Phrase.nearest_stmt,
        Stmt.children]
    have hsum : .binary x (some 80) op y ∈ call.inner := by
      simp [call, Expr.inner, Expr.parts, Expr.children, Phrase.nearest_expr]
    have he : u.file.Node e :=
      .root (n := .expr e) (by rw [hchildren]; simp [e, call]) (by simp [Phrase.nearest_expr])
    have hcall : call ∈ e.inner := by simp [hinner]
    have hencloses : e.Encloses (.binary x (some 80) op y) := .deeper hcall (.part hsum)
    obtain ⟨⟨lo, hi, hext, hbelow⟩, hapart, -⟩ := SourceUnit.extents_nest hu he
    obtain rfl : 57 = lo := Option.some.inj hext.1
    obtain ⟨a, b, hd, ha, hb⟩ := hbelow _ hencloses
    obtain ⟨c, p, d, hx, hp, hy, hc, hlt⟩ :=
      (SourceUnit.extents_nest hu (.part (.part he hcall) hsum)).2.2 x _ op y rfl
    cases hp
    exact ⟨u, e, x, some 80, op, y, hu, he, hext.1, by simp [hinner], hapart, hencloses, rfl,
      ⟨hi, a, b, hext, hd, ha, hb⟩, c, d, hx, hy, hc, hlt⟩

end GoFun
