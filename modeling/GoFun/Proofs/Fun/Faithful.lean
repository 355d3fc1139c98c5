import Mathlib.Data.List.Basic
import GoFun.Fun.Lowering
import GoFun.Proofs.Source.Read
import GoFun.Proofs.Tree.Operator

/-!
# What lowering forgets

Lowering an expression without literals looks at all that it holds but for one thing: the dots
behind the last argument of a call. Two such expressions of one Fun form are equal up to these dots,
and equal exactly when their dots agree.
-/
namespace GoFun

/-- No literal stands anywhere in the expression. -/
def Phrase.isLiteral : Phrase → Bool
  | .expr (.lit _) => true
  | _ => false

def Expr.LiteralFree (e : Expr) : Prop := Throughout (fun n => n.isLiteral = false) (.expr e)

mutual

/-- For each call, from the left and from the outside, whether its arguments end in dots. -/
def Expr.spreads : Expr → List Bool
  | .call f _ args dots _ => dots.isSome :: (f.spreads ++ spreadsOf args)
  | .selector x _ => x.spreads
  | .binary x _ _ y => x.spreads ++ y.spreads
  | _ => []

def spreadsOf : List Expr → List Bool
  | [] => []
  | e :: es => e.spreads ++ spreadsOf es

end

mutual

/-- The expression without any dots behind arguments. -/
def Expr.unspread : Expr → Expr
  | .call f lparen args _ rparen => .call f.unspread lparen (unspreadAll args) none rparen
  | .selector x sel => .selector x.unspread sel
  | .binary x opPos op y => .binary x.unspread opPos op y.unspread
  | e => e

def unspreadAll : List Expr → List Expr
  | [] => []
  | e :: es => e.unspread :: unspreadAll es

end

namespace Fun

attribute [local simp] Phrase.children GoFun.Expr.children

variable {c : Config} {e e' : GoFun.Expr}

theorem bind_eq_ok {α β : Type} {x : Lowering α} {f : α → Lowering β} {b : β}
    (h : x >>= f = .ok b) :
    ∃ a, x = .ok a ∧ f a = .ok b := by
  cases x with
  | error cause => cases h
  | ok a => exact ⟨a, rfl, h⟩

/-- All the ways to lower an expression without literals. -/
theorem lowerExpr_cases {f : Expr} (h : lowerExpr c e = .ok f) (hl : e.LiteralFree) :
    (∃ id, e = .ident id ∧ f = .var id.name) ∨
    (∃ x opPos op y fx fy, e = .binary x opPos op y ∧ lowerExpr c x = .ok fx ∧ lowerExpr c y =
      .ok fy ∧
      f = .binary fx op.symbol fy) ∨
    (∃ package sel, e = .selector (.ident package) sel ∧ f =
      .funcName (package.name ++ "." ++ sel.name)) ∨
    ∃ callee lparen args dots rparen name fs, e = .call callee lparen args dots rparen ∧
      lowerExpr c callee = .ok (.funcName name) ∧ lowerExprs c args = .ok fs ∧
      f = .application name fs := by
  unfold lowerExpr at h
  split at h
  case h_1 id =>
    refine .inl ⟨id, rfl, ?_⟩
    unfold lowerIdent at h
    split at h
    · split at h
      · exact (Except.ok.inj h).symm
      · cases h
    · cases h
  case h_2 x opPos op y =>
    obtain ⟨fx, hx, h⟩ := bind_eq_ok h
    obtain ⟨fy, hy, h⟩ := bind_eq_ok h
    exact .inr (.inl ⟨x, opPos, op, y, fx, fy, rfl, hx, hy, (Except.ok.inj h).symm⟩)
  case h_3 package sel => exact .inr (.inr (.inl ⟨package, sel, rfl, (Except.ok.inj h).symm⟩))
  case h_4 => cases h
  case h_5 callee lparen args dots rparen =>
    obtain ⟨g, hg, h⟩ := bind_eq_ok h
    split at h
    · obtain ⟨fs, hfs, h⟩ := bind_eq_ok h
      exact .inr (.inr (.inr ⟨callee, lparen, args, dots, rparen, _, fs, rfl, hg, hfs,
        (Except.ok.inj h).symm⟩))
    · cases h
  case h_6 l => exact absurd hl.here (by simp [Phrase.isLiteral])
  case h_7 => cases h

theorem lowerExprs_forall₂ {es : List GoFun.Expr} {fs : List Expr} (h : lowerExprs c es = .ok fs) :
    List.Forall₂ (fun e f => lowerExpr c e = .ok f) es fs := by
  induction es generalizing fs with
  | nil =>
    obtain rfl := Except.ok.inj h
    exact .nil
  | cons e es ih =>
    unfold lowerExprs at h
    obtain ⟨f, hf, h⟩ := bind_eq_ok h
    obtain ⟨fs, hfs, h⟩ := bind_eq_ok h
    obtain rfl := Except.ok.inj h
    exact .cons hf (ih hfs)

/-- A qualified name can be taken apart again, because no name holds a dot. -/
theorem qualified_injective {p s p' s' : String} (hp : IsName p) (hs : IsName s)
    (h : p ++ "." ++ s = p' ++ "." ++ s') : p = p' ∧ s = s' := by
  have hl : p.toList ++ '.' :: s.toList = p'.toList ++ '.' :: s'.toList := by
    simpa using congrArg String.toList h
  obtain ⟨h₁, -, h₂⟩ := (List.append_cons_inj_of_notMem hp.dot_notMem hs.dot_notMem).1 hl
  exact ⟨String.toList_inj.1 h₁, String.toList_inj.1 h₂⟩

/-- The two expressions differ in the dots of calls at most, and not at all when these agree. -/
structure SameButDots (e e' : GoFun.Expr) : Prop where
  unspread : e.unspread.shape .kept = e'.unspread.shape .kept
  calls : e.spreads.length = e'.spreads.length
  exactly : e.shape .kept = e'.shape .kept ↔ e.spreads = e'.spreads

structure SameArgs (es es' : List GoFun.Expr) : Prop where
  unspread : shapeExprs .kept (unspreadAll es) = shapeExprs .kept (unspreadAll es')
  calls : (spreadsOf es).length = (spreadsOf es').length
  exactly : shapeExprs .kept es = shapeExprs .kept es' ↔ spreadsOf es = spreadsOf es'

theorem SameButDots.binary {x y x' y' : GoFun.Expr} (hx : SameButDots x x') (hy : SameButDots y y')
    (opPos opPos' : Pos) (op : BinaryOp) :
    SameButDots (.binary x opPos op y) (.binary x' opPos' op y') where
  unspread := by simp [GoFun.Expr.unspread, GoFun.Expr.shape, hx.unspread, hy.unspread]
  calls := by simp [GoFun.Expr.spreads, hx.calls, hy.calls]
  exactly := by
    simp only [GoFun.Expr.shape, GoFun.Expr.spreads, GoFun.Expr.binary.injEq, true_and, hx.exactly,
      hy.exactly]
    exact ⟨fun h => by rw [h.1, h.2], fun h => List.append_inj h hx.calls⟩

theorem SameButDots.call {f f' : GoFun.Expr} {args args' : List GoFun.Expr} (hf : SameButDots f f')
    (ha : SameArgs args args') (lparen lparen' dots dots' rparen rparen' : Pos) :
    SameButDots (.call f lparen args dots rparen) (.call f' lparen' args' dots' rparen') where
  unspread := by simp [GoFun.Expr.unspread, GoFun.Expr.shape, hf.unspread, ha.unspread]
  calls := by simp [GoFun.Expr.spreads, hf.calls, ha.calls]
  exactly := by
    have hdots : dots.mark = dots'.mark ↔ dots.isSome = dots'.isSome := by
      cases dots <;> cases dots' <;> simp [Pos.mark]
    simp only [GoFun.Expr.shape, GoFun.Expr.spreads, GoFun.Expr.call.injEq, true_and, and_true,
      hf.exactly, ha.exactly, hdots, List.cons.injEq]
    constructor
    · rintro ⟨hf, ha, hd⟩
      exact ⟨hd, by rw [hf, ha]⟩
    · rintro ⟨hd, h⟩
      obtain ⟨hf, ha⟩ := List.append_inj h hf.calls
      exact ⟨hf, ha, hd⟩

theorem SameArgs.cons {es es' : List GoFun.Expr} (he : SameButDots e e') (hs : SameArgs es es') :
    SameArgs (e :: es) (e' :: es') where
  unspread := by simp [unspreadAll, shapeExprs, he.unspread, hs.unspread]
  calls := by simp [spreadsOf, he.calls, hs.calls]
  exactly := by
    simp only [shapeExprs, spreadsOf, List.cons.injEq, he.exactly, hs.exactly]
    exact ⟨fun h => by rw [h.1, h.2], fun h => List.append_inj h he.calls⟩

/-- A phrase that can be read and is no literal. -/
def Readable (n : Phrase) : Prop := n.isLiteral = false ∧ n.Formed

theorem literalFree_of_readable (h : Throughout Readable (.expr e)) : e.LiteralFree :=
  h.mono fun _ hn => hn.1

theorem sameButDots_of_var {c' : Config} {name : String} (h : lowerExpr c e = .ok (.var name))
    (h' : lowerExpr c' e' = .ok (.var name)) (hr : Throughout Readable (.expr e))
    (hr' : Throughout Readable (.expr e')) :
    SameButDots e e' := by
  obtain ⟨id, rfl, hid⟩ : ∃ id, e = .ident id ∧ name = id.name := by
    simpa using lowerExpr_cases h (literalFree_of_readable hr)
  obtain ⟨id', rfl, hid'⟩ : ∃ id, e' = .ident id ∧ name = id.name := by
    simpa using lowerExpr_cases h' (literalFree_of_readable hr')
  have hs : id.shape = id'.shape := by rw [Ident.shape, Ident.shape, ← hid, ← hid']
  exact ⟨by simp [GoFun.Expr.unspread, GoFun.Expr.shape, hs],
    rfl, by simp [GoFun.Expr.shape, hs, GoFun.Expr.spreads]⟩

theorem sameButDots_of_funcName {c' : Config} {name : String}
    (h : lowerExpr c e = .ok (.funcName name)) (h' : lowerExpr c' e' = .ok (.funcName name))
    (hr : Throughout Readable (.expr e))
    (hr' : Throughout Readable (.expr e')) : SameButDots e e' := by
  obtain ⟨p, sel, rfl, hn⟩ : ∃ p sel, e = .selector (.ident p) sel ∧
      name = p.name ++ "." ++ sel.name := by
    simpa using lowerExpr_cases h (literalFree_of_readable hr)
  obtain ⟨p', sel', rfl, hn'⟩ : ∃ p sel, e' = .selector (.ident p) sel ∧
      name = p.name ++ "." ++ sel.name := by
    simpa using lowerExpr_cases h' (literalFree_of_readable hr')
  have hp : IsName p.name := (hr.child (c := .expr (.ident p)) (by simp)).here.2
  obtain ⟨hp, hsel⟩ := qualified_injective hp hr.here.2.2 (hn.symm.trans hn')
  have hs : p.shape = p'.shape := by rw [Ident.shape, Ident.shape, hp]
  have hs' : sel.shape = sel'.shape := by rw [Ident.shape, Ident.shape, hsel]
  exact ⟨by simp [GoFun.Expr.unspread, GoFun.Expr.shape, hs, hs'], rfl,
    by simp [GoFun.Expr.shape, hs, hs', GoFun.Expr.spreads]⟩

mutual

/-- Two expressions of one Fun form are the same but for dots, by recursion on that form. -/
theorem sameButDots_of_lowerExpr {c c' : Config} {e e' : GoFun.Expr} (f : Expr)
    (h : lowerExpr c e = .ok f) (h' : lowerExpr c' e' = .ok f)
    (hr : Throughout Readable (.expr e)) (hr' : Throughout Readable (.expr e')) :
    SameButDots e e' := by
  have hl := literalFree_of_readable hr
  have hl' := literalFree_of_readable hr'
  match f with
  | .var name => exact sameButDots_of_var h h' hr hr'
  | .funcName name => exact sameButDots_of_funcName h h' hr hr'
  | .binary fx symbol fy =>
    obtain ⟨x, opPos, op, y, rfl, hx, hy, hop⟩ : ∃ x opPos op y, e = .binary x opPos op y ∧
        lowerExpr c x = .ok fx ∧ lowerExpr c y = .ok fy ∧ symbol = op.symbol := by
      simpa using lowerExpr_cases h hl
    obtain ⟨x', opPos', op', y', rfl, hx', hy', hop'⟩ : ∃ x opPos op y, e' = .binary x opPos op y ∧
        lowerExpr c' x = .ok fx ∧ lowerExpr c' y = .ok fy ∧ symbol = op.symbol := by
      simpa using lowerExpr_cases h' hl'
    obtain rfl := BinaryOp.symbol_inj (hop.symm.trans hop')
    have hX := sameButDots_of_lowerExpr fx hx hx' (hr.child (by simp)) (hr'.child (by simp))
    have hY := sameButDots_of_lowerExpr fy hy hy' (hr.child (by simp)) (hr'.child (by simp))
    exact hX.binary hY opPos opPos' op
  | .application name fs =>
    obtain ⟨g, lparen, args, dots, rparen, rfl, hg, ha⟩ : ∃ g lparen args dots rparen,
        e = .call g lparen args dots rparen ∧ lowerExpr c g = .ok (.funcName name) ∧
          lowerExprs c args = .ok fs := by
      simpa using lowerExpr_cases h hl
    obtain ⟨g', lparen', args', dots', rparen', rfl, hg', ha'⟩ : ∃ g lparen args dots rparen,
        e' = .call g lparen args dots rparen ∧ lowerExpr c' g = .ok (.funcName name) ∧
          lowerExprs c' args = .ok fs := by
      simpa using lowerExpr_cases h' hl'
    have hG := sameButDots_of_funcName hg hg' (hr.child (by simp)) (hr'.child (by simp))
    have hA := sameArgs_of_lowerExprs fs (lowerExprs_forall₂ ha) (lowerExprs_forall₂ ha')
      (fun a ha => hr.child (by simp [ha]))
      (fun a ha => hr'.child (by simp [ha]))
    exact hG.call hA lparen lparen' dots dots' rparen rparen'
  | .int _ | .double _ | .string _ | .char _ | .results _ => simpa using lowerExpr_cases h hl

theorem sameArgs_of_lowerExprs {c c' : Config} {es es' : List GoFun.Expr} (fs : List Expr)
    (h : List.Forall₂ (fun e f => lowerExpr c e = .ok f) es fs)
    (h' : List.Forall₂ (fun e f => lowerExpr c' e = .ok f) es' fs)
    (hr : ∀ e ∈ es, Throughout Readable (.expr e))
    (hr' : ∀ e ∈ es', Throughout Readable (.expr e)) :
    SameArgs es es' := by
  match fs, h, h' with
  | [], .nil, .nil => exact ⟨rfl, rfl, by simp⟩
  | f :: fs, .cons he hes, .cons he' hes' =>
    exact SameArgs.cons (sameButDots_of_lowerExpr f he he' (hr _ (by simp)) (hr' _ (by simp)))
      (sameArgs_of_lowerExprs fs hes hes' (fun e hm => hr e (by simp [hm])) fun e hm =>
        hr' e (by simp [hm]))

end

/-- Expressions without literals that have one Fun form are equal up to the dots behind arguments,
and equal with them exactly when every call has its dots in both or in neither. -/
theorem shape_eq_iff_spreads_eq_of_lowerExpr {name text name' text' : String} {u u' : SourceUnit}
    (hu : SourceUnit.read? name text = some u) (hu' : SourceUnit.read? name' text' = some u')
    {e e' : GoFun.Expr} (he : u.file.Has (.expr e)) (he' : u'.file.Has (.expr e'))
    (hl : e.LiteralFree) (hl' : e'.LiteralFree) {c c' : Config} {f : Expr}
    (hf : lowerExpr c e = .ok f) (hf' : lowerExpr c' e' = .ok f) :
    e.unspread.shape .kept = e'.unspread.shape .kept ∧
      (e.shape .kept = e'.shape .kept ↔ e.spreads = e'.spreads) := by
  have hs : SameButDots e e' := sameButDots_of_lowerExpr f hf hf'
    (hl.and (SourceUnit.formed_of_has hu he)) (hl'.and (SourceUnit.formed_of_has hu' he'))
  exact ⟨hs.unspread, hs.exactly⟩

/-- Whether the phrase is the call `fmt.Println(a+b, xs)` of three variables, with the given
dots. -/
def isPrintln (dots : Bool) : Phrase → Bool
  | .expr (.call (.selector (.ident p) sel) _ [.binary (.ident a) _ .add (.ident b), .ident xs] d
      _) =>
    p.name == "fmt" && sel.name == "Println" && d.isSome == dots && a.name == "a" && b.name ==
      "b" && xs.name == "xs" && [a, b, xs].all fun id => id.obj.any fun o => o.kind == .var
  | _ => false

theorem lowerIdent_eq_var {id : Ident} (h : id.obj.any (fun o => o.kind == .var) = true) :
    lowerIdent id = .ok (.var id.name) := by
  cases ho : id.obj with
  | none => simp [ho] at h
  | some o =>
    have hk : o.kind = .var := by simpa [ho] using h
    simp [lowerIdent, ho, hk]

theorem isPrintln_spec {dots : Bool} {n : Phrase} (h : isPrintln dots n = true) :
    ∃ e, n = .expr e ∧ e.LiteralFree ∧ e.spreads = [dots] ∧
      lowerExpr {} e = .ok (.application "fmt.Println"
      [.binary (.var "a") "+" (.var "b"), .var "xs"]) := by
  unfold isPrintln at h
  split at h
  case h_1 p sel lparen a opPos b xs d rparen =>
    simp only [Bool.and_eq_true, beq_iff_eq, List.all_cons, List.all_nil, and_true] at h
    obtain ⟨⟨⟨⟨⟨⟨hp, hsel⟩, hd⟩, ha⟩, hb⟩, hxs⟩, hoa, hob, hox⟩ := h
    refine ⟨_, rfl, ?_, by simp [GoFun.Expr.spreads, spreadsOf, hd], ?_⟩
    · exact Phrase.throughout_of_check 4 rfl
    · simp [lowerExpr, lowerExprs, lowerIdent_eq_var, hp, hsel, ha, hb, hxs, hoa, hob, hox,
        BinaryOp.symbol]
      rfl
  case h_2 => cases h

def printlnText : String :=
  "package p\nfunc f(a, b, xs int) \x7b\nfmt.Println(a+b, xs...)\nfmt.Println(a+b, xs)\nfmt.Println(a + b,\nxs)\n\x7d\n"

theorem exists_println {path : List Nat} {dots : Bool} {u : SourceUnit}
    (h : (u.file.at? path).any (isPrintln dots) = true) :
    ∃ e, u.file.Has (.expr e) ∧ e.LiteralFree ∧ e.spreads = [dots] ∧
      lowerExpr {} e = .ok (.application "fmt.Println"
      [.binary (.var "a") "+" (.var "b"), .var "xs"]) := by
  obtain ⟨n, hn, h⟩ := (Option.any_eq_true _ _).1 h
  obtain ⟨e, rfl, hl, hs, hf⟩ := isPrintln_spec h
  exact ⟨e, File.has_of_at? hn, hl, hs, hf⟩

/-- Two calls without dots that stand at different places in different layouts. -/
theorem println_same_shape :
    ∃ u e e' f, SourceUnit.read? "p.go" printlnText = some u ∧ u.file.Has (.expr e) ∧
    u.file.Has (.expr e') ∧ e.LiteralFree ∧ e'.LiteralFree ∧ lowerExpr {} e = .ok f ∧
    lowerExpr {} e' = .ok f ∧
      e.shape .kept = e'.shape .kept := by
  have h : (SourceUnit.read? "p.go" printlnText).any fun u =>
      (u.file.at? [2, 0]).any (isPrintln false) &&
      (u.file.at? [3, 0]).any (isPrintln false) := by decide +kernel
  obtain ⟨u, hu, h⟩ := (Option.any_eq_true _ _).1 h
  obtain ⟨h, h'⟩ := Bool.and_eq_true_iff.1 h
  obtain ⟨e, he, hl, hs, hf⟩ := exists_println h
  obtain ⟨e', he', hl', hs', hf'⟩ := exists_println h'
  have hiff := (shape_eq_iff_spreads_eq_of_lowerExpr hu hu he he' hl hl' hf hf').2
  exact ⟨u, e, e', _, hu, he, he', hl, hl', hf, hf', hiff.2 (hs.trans hs'.symm)⟩

/-- A call with dots has the same Fun form as the call without them. -/
theorem println_dots_dropped :
    ∃ u e e' f, SourceUnit.read? "p.go" printlnText = some u ∧ u.file.Has (.expr e) ∧
    u.file.Has (.expr e') ∧ e.LiteralFree ∧ e'.LiteralFree ∧ lowerExpr {} e = .ok f ∧
    lowerExpr {} e' = .ok f ∧
      e.shape .kept ≠ e'.shape .kept := by
  have h : (SourceUnit.read? "p.go" printlnText).any fun u =>
      (u.file.at? [1, 0]).any (isPrintln true) &&
      (u.file.at? [2, 0]).any (isPrintln false) := by decide +kernel
  obtain ⟨u, hu, h⟩ := (Option.any_eq_true _ _).1 h
  obtain ⟨h, h'⟩ := Bool.and_eq_true_iff.1 h
  obtain ⟨e, he, hl, hs, hf⟩ := exists_println h
  obtain ⟨e', he', hl', hs', hf'⟩ := exists_println h'
  have hsame : SameButDots e e' := sameButDots_of_lowerExpr _ hf hf'
    (hl.and (SourceUnit.formed_of_has hu he)) (hl'.and (SourceUnit.formed_of_has hu he'))
  refine ⟨u, e, e', _, hu, he, he', hl, hl', hf, hf', fun hshape => ?_⟩
  have hspreads := hsame.exactly.1 hshape
  simp [hs, hs'] at hspreads

end Fun

end GoFun
