import GoFun.Proofs.Grammar.Params
import GoFun.Proofs.Source.Operand

/-!
# The shape of lowered modules

What is lowered from a source has names that are words of the source, operators of the source
language, names of functions that can be split at their one dot, and several results only at the
root of a body. Parameters and results follow the signature.
-/
namespace GoFun

namespace Fun

attribute [local simp] Phrase.children GoFun.Expr.children GoFun.Expr.operands

variable {c : Config} {m : SourceMap}

/-- Two names with a dot between them, and no other dot. -/
def IsQualified (name : String) : Prop :=
  (∃ package function, name = package ++ "." ++ function ∧ IsName package ∧ IsName function) ∧
    name.toList.count '.' = 1

/-- An expression below the root of a body. -/
inductive Nested : Expr → Prop
  | var {name : String} (h : IsName name) (hblank : name ≠ "_") : Nested (.var name)
  | binary {x y : Expr} {op : String} (hx : Nested x) (hop : op ∈ BinaryOp.all.map BinaryOp.symbol)
      (hy : Nested y) :
    Nested (.binary x op y)
  | funcName {name : String} (h : IsQualified name) : Nested (.funcName name)
  | application {name : String} {args : List Expr} (h : IsQualified name)
      (hargs : ∀ e ∈ args, Nested e) :
    Nested (.application name args)
  | int (value : Int64) : Nested (.int value)
  | double (value : Number.Double) : Nested (.double value)
  | string (value : String) : Nested (.string value)
  | char (value : Char) : Nested (.char value)

/-- The expression of a body. -/
def Expr.Shaped : Expr → Prop
  | .results values => 2 ≤ values.length ∧ ∀ e ∈ values, Nested e
  | e => Nested e

def Body.Shaped : Body → Prop
  | .single e => e.Shaped
  | .inline stmts => stmts.length ≠ 1

/-- The results of a function, in order. -/
def resultFields (f : FuncDecl) : List Field := (f.results.map FieldList.list).getD []

/-- A lowered function has a parameter for each name of a parameter and a result for each field of
results. -/
structure Function.Shaped (f : FuncDecl) (r : Function) : Prop where
  params : List.Forall₂ (fun (id : Ident) (p : Param) => p.name = id.name)
    (f.params.list.flatMap Field.names) r.params
  results : List.Forall₂ (fun (field : Field) (t : Ty) => ∃ id, field.type = .ident id ∧
    t = .atomic id.name) (resultFields f) r.results
  body : r.body.Shaped

theorem isQualified_append {p s : String} (hp : IsName p) (hs : IsName s) :
    IsQualified (p ++ "." ++ s) := by
  refine ⟨⟨p, s, rfl, hp, hs⟩, ?_⟩
  simp [String.toList_append, List.count_append, List.count_eq_zero.2 hp.dot_notMem,
    List.count_eq_zero.2 hs.dot_notMem]

theorem nested_lowerLiteral {l : Literal} {r : Expr} (h : lowerLiteral c l = .ok r) : Nested r := by
  have hkind := literalOf_lowerLiteral h
  cases r with
  | int v => exact .int v
  | double v => exact .double v
  | string v => exact .string v
  | char v => exact .char v
  | var _ | binary _ _ _ | funcName _ | application _ _ | results _ =>
    cases hl : l.kind <;> simp [hl, literalOf] at hkind

/-- The operands that mean something are no low lines. -/
def NoBlank (ids : List Ident) : Prop := ∀ id ∈ ids, id.obj ≠ none → id.name ≠ "_"

mutual

theorem nested_lowerExpr (c : Config) {e : GoFun.Expr} {r : Expr} (h : lowerExpr c e = .ok r)
    (hf : Throughout Phrase.Formed (.expr e)) (hb : NoBlank e.operands) : Nested r := by
  cases e with
  | ident x =>
    rw [lowerExpr] at h
    rw [lowerIdent_eq_ok h]
    refine .var hf.here (hb x (by simp) fun hobj => ?_)
    simp [lowerIdent, hobj, unsupported] at h
  | binary x _ op y =>
    rw [lowerExpr] at h
    obtain ⟨a, ha, h⟩ := bind_eq_ok h
    obtain ⟨b, hb', h⟩ := bind_eq_ok h
    cases h
    refine .binary (nested_lowerExpr c ha (hf.child (by simp)) fun id hid => ?_) ?_
      (nested_lowerExpr c hb' (hf.child (by simp)) fun id hid => ?_)
    · exact hb id (by simp [hid])
    · cases op <;> decide
    · exact hb id (by simp [hid])
  | call f _ args _ _ =>
    rw [lowerExpr] at h
    obtain ⟨g, hg, h⟩ := bind_eq_ok h
    have hcallee := nested_lowerExpr c hg (hf.child (by simp)) fun id hid => hb id (by simp [hid])
    cases g with
    | funcName name =>
      obtain ⟨as, has, h⟩ := bind_eq_ok h
      cases h
      cases hcallee with
      | funcName hname =>
        refine .application hname (nested_lowerExprs c has (fun e he => hf.child ?_) fun id hid =>
          ?_)
        · simp [he]
        · exact hb id (by simp [hid])
    | _ => cases h
  | selector x sel =>
    cases x with
    | ident package =>
      cases h
      have hpackage : Throughout Phrase.Formed (.expr (.ident package)) :=
        hf.child (by simp)
      exact .funcName (isQualified_append hpackage.here hf.here.2)
    | _ => cases h
  | lit l =>
    rw [lowerExpr] at h
    exact nested_lowerLiteral h
  | _ => cases h

theorem nested_lowerExprs (c : Config) {es : List GoFun.Expr} {rs : List Expr}
    (h : lowerExprs c es = .ok rs) (hf : ∀ e ∈ es, Throughout Phrase.Formed (.expr e))
    (hb : NoBlank (exprsOperands es)) : ∀ r ∈ rs, Nested r := by
  cases es with
  | nil =>
    cases h
    simp
  | cons e es =>
    rw [lowerExprs] at h
    obtain ⟨a, ha, h⟩ := bind_eq_ok h
    obtain ⟨as, has, h⟩ := bind_eq_ok h
    cases h
    refine List.forall_mem_cons.2 ⟨nested_lowerExpr c ha (hf e (by simp)) fun id hid => ?_,
      nested_lowerExprs c has (fun e he => hf e (by simp [he])) fun id hid => ?_⟩
    · exact hb id (by simp [exprsOperands, hid])
    · exact hb id (by simp [exprsOperands, hid])

end

theorem Nested.shaped {e : Expr} (h : Nested e) : e.Shaped := by
  cases e with
  | results _ => cases h
  | _ => exact h

theorem shaped_lowerStmt {s : Stmt} {r : Expr} (h : lowerStmt c s = .ok r)
    (hf : Throughout Phrase.Formed (.stmt s)) (hb : NoBlank s.operands) : r.Shaped := by
  cases s with
  | expr x => exact (nested_lowerExpr c h (hf.child (by simp [Stmt.children])) hb).shaped
  | ret retPos results =>
    have hresults : ∀ e ∈ results, Throughout Phrase.Formed (.expr e) := fun e he =>
      hf.child (by simp [Stmt.children, he])
    match results with
    | [] => cases h
    | [result] =>
      refine (nested_lowerExpr c h (hresults result (by simp)) ?_).shaped
      simpa [Stmt.operands, exprsOperands] using hb
    | x :: y :: results =>
      obtain ⟨rs, hrs, h⟩ := bind_eq_ok h
      cases h
      have hlength := (lowerExprs_forall₂ hrs).length_eq
      exact ⟨by rw [← hlength]; simp, nested_lowerExprs c hrs hresults hb⟩
  | _ => cases h

theorem names_lowerParams {fields : List Field} {ps : List Param}
    (h : lowerParams fields = .ok ps) :
    List.Forall₂ (fun (id : Ident) (p : Param) => p.name = id.name) (fields.flatMap Field.names)
      ps := by
  induction fields generalizing ps with
  | nil =>
    cases h
    exact .nil
  | cons field fields ih =>
    obtain ⟨t, -, h⟩ := bind_eq_ok h
    obtain ⟨rest, hrest, h⟩ := bind_eq_ok h
    cases h
    exact List.rel_append (by simp [List.forall₂_map_right_iff, List.forall₂_same]) (ih hrest)

theorem types_lowerResults {fields : List Field} {ts : List Ty} (h : lowerResults fields = .ok ts) :
    List.Forall₂ (fun (field : Field) (t : Ty) => ∃ id, field.type = .ident id ∧ t =
      .atomic id.name) fields ts := by
  induction fields generalizing ts with
  | nil =>
    cases h
    exact .nil
  | cons field fields ih =>
    obtain ⟨t, ht, h⟩ := bind_eq_ok h
    obtain ⟨rest, hrest, h⟩ := bind_eq_ok h
    cases h
    exact .cons (lowerType_eq_ok.1 ht) (ih hrest)

theorem shaped_lowerBody {stmts : List Stmt} {b : Body} (h : lowerBody m c stmts = .ok b)
    (hf : ∀ s ∈ stmts, Throughout Phrase.Formed (.stmt s))
    (hb : ∀ s, stmts = [s] → NoBlank s.operands) : b.Shaped := by
  match stmts with
  | [s] =>
    obtain ⟨e, he, h⟩ := bind_eq_ok h
    cases h
    exact shaped_lowerStmt he (hf s (by simp)) (hb s rfl)
  | [] | _ :: _ :: _ =>
    cases h
    simp [Body.Shaped]

theorem shaped_lowerFunction {f : FuncDecl} {r : Function} (h : lowerFunction m c f = .ok r)
    (hf : ∀ n ∈ f.children, Throughout Phrase.Formed n)
    (hb : ∀ body s, f.body = some body → body.list = [s] → NoBlank s.operands) :
    Function.Shaped f r := by
  obtain ⟨params, hparams, h⟩ := bind_eq_ok h
  obtain ⟨results, hresults, h⟩ := bind_eq_ok h
  cases hbody : f.body with
  | none =>
    rw [hbody] at h
    cases h
  | some body =>
    rw [hbody] at h
    obtain ⟨b, hlower, h⟩ := bind_eq_ok h
    cases h
    refine ⟨names_lowerParams hparams, types_lowerResults hresults,
      shaped_lowerBody hlower (fun s hs => hf _ ?_) ?_⟩
    · simp [FuncDecl.children, hbody, Block.children, hs]
    · exact fun s hs => hb body s hbody hs

def functionDecls (decls : List Decl) : List FuncDecl := decls.filterMap fun
  | .func f => some f
  | .gen _ => none

theorem func_mem_of_mem_functionDecls {decls : List Decl} (f : FuncDecl)
    (h : f ∈ functionDecls decls) : .func f ∈ decls := by
  obtain ⟨d, hd, he⟩ := List.mem_filterMap.1 h
  cases d with
  | func g => rwa [← Option.some.inj he]
  | gen g => cases he

theorem forall₂_lowerDecls {decls : List Decl} {rs : List Function}
    (h : lowerDecls m c decls = .ok rs) :
    List.Forall₂ (fun f r => lowerFunction m c f = .ok r) (functionDecls decls) rs := by
  induction decls generalizing rs with
  | nil =>
    cases h
    exact .nil
  | cons d decls ih =>
    cases d with
    | func f =>
      obtain ⟨r, hr, h⟩ := bind_eq_ok h
      obtain ⟨rest, hrest, h⟩ := bind_eq_ok h
      cases h
      exact .cons hr (ih hrest)
    | gen g =>
      unfold lowerDecls at h
      split at h
      · cases h
      · exact ih h

end Fun

theorem SourceUnit.noBlank_operands {name text : String} {u : SourceUnit}
    (h : read? name text = some u) {f : FuncDecl} (hf : .func f ∈ u.file.decls) {body : Block}
    (hbody : f.body = some body) {s : Stmt} (hs : body.list = [s]) :
    Fun.NoBlank s.operands := by
  intro x hx hobj hblank
  rw [operand_obj h hf hbody hs hx, if_neg fun hbinds => hbinds.1 hblank,
    lookup_packageFrame_eq_none.2 (.inl hblank)] at hobj
  exact hobj rfl

/-- Every function of a module that is lowered from a source has the shape of Fun functions and the
signature of its declaration, and they stand in the order of the declarations. -/
theorem SourceUnit.lower_shaped {name text : String} {u : SourceUnit} (h : read? name text = some u)
    {c : Fun.Config} {m : Fun.Module} (hm : u.lower c = .ok m) :
    List.Forall₂ Fun.Function.Shaped (Fun.functionDecls u.file.decls) m.functions := by
  obtain ⟨imports, -, hm⟩ := Fun.bind_eq_ok hm
  obtain ⟨functions, hdecls, hm⟩ := Fun.bind_eq_ok hm
  cases hm
  have hmem : ∀ f ∈ Fun.functionDecls u.file.decls, .func f ∈ u.file.decls :=
    Fun.func_mem_of_mem_functionDecls
  refine ((List.forall₂_and_left _ _).2 ⟨hmem, Fun.forall₂_lowerDecls hdecls⟩).imp fun f r
    ⟨hf, hr⟩ => ?_
  refine Fun.shaped_lowerFunction hr (fun n hn => read?_formed h n ?_) fun body s hbody hs =>
    noBlank_operands h hf hbody hs
  exact List.mem_append.2 (.inr (List.mem_flatMap.2 ⟨.func f, hf, hn⟩))

/-- Several results with a call and operators in them, a method whose body is kept as text, and a
call alone. -/
def shapedText : String :=
  "package p\nfunc f(a, b int, _ string) (int, int) \x7b\nreturn fmt.Max(a<<1, b &^ 2), a\n\x7d\n" ++
    "func (t T) g() \x7b\nx := 1\nh(x)\n\x7d\nvar v = 1\nfunc h() \x7b\nq.F(v)\n\x7d\n"

theorem shapedText_shaped :
    ∃ u m, SourceUnit.read? "p.go" shapedText = some u ∧ u.lower {} = .ok m ∧
    m.functions.map Fun.Function.name = ["f", "g", "h"] ∧
    List.Forall₂ Fun.Function.Shaped (Fun.functionDecls u.file.decls) m.functions := by
  have h : (SourceUnit.read? "p.go" shapedText).any fun u => (u.lower {}).toOption.any fun m =>
      m.functions.map Fun.Function.name == ["f", "g", "h"] := by decide +kernel
  obtain ⟨u, hu, h⟩ := (Option.any_eq_true _ _).1 h
  cases hm : u.lower {} with
  | error e => rw [hm] at h; cases h
  | ok m =>
    rw [hm] at h
    exact ⟨u, m, hu, hm, eq_of_beq h, SourceUnit.lower_shaped hu hm⟩

end GoFun
