import GoFun.Proofs.Fun.Fragment
import GoFun.Proofs.Source.Leading
import GoFun.Proofs.Source.Order

/-!
# What the operands of a function mean

The operands of a statement are the names that lowering takes the values of. An operand of a
function means a field of its signature, if there is one of that name, and otherwise what the last
declaration of the name in the package says.
-/
namespace GoFun

open List

variable {s : Stmt} {f : FuncDecl}

mutual

/-- The names whose values are taken, in the order of lowering. A name in front of a dot is no
value. -/
def Expr.operands : Expr → List Ident
  | .ident id => [id]
  | .binary x _ _ y => x.operands ++ y.operands
  | .call f _ args _ _ => f.operands ++ exprsOperands args
  | _ => []

def exprsOperands : List Expr → List Ident
  | [] => []
  | e :: es => e.operands ++ exprsOperands es

end

def Stmt.operands : Stmt → List Ident
  | .ret _ results => exprsOperands results
  | .expr x => x.operands
  | _ => []

mutual

theorem Expr.operands_move (m : Nat → Nat) (e : Expr) :
    (e.move m).operands = e.operands.map (Ident.move m) := by
  cases e with
  | binary x _ _ y => simp [Expr.move, Expr.operands, x.operands_move m, y.operands_move m]
  | call f _ args _ _ =>
    simp [Expr.move, Expr.operands, f.operands_move m, exprsOperands_move m args]
  | _ => rfl

theorem exprsOperands_move (m : Nat → Nat) (es : List Expr) :
    exprsOperands (moveExprs m es) = (exprsOperands es).map (Ident.move m) := by
  cases es with
  | nil => rfl
  | cons e es => simp [moveExprs, exprsOperands, e.operands_move m, exprsOperands_move m es]

end

theorem Stmt.operands_move (m : Nat → Nat) (s : Stmt) :
    (s.move m).operands = s.operands.map (Ident.move m) := by
  cases s with
  | ret _ results => exact exprsOperands_move m results
  | expr x => exact x.operands_move m
  | _ => rfl

theorem Expr.resolve_scopes (e : Expr) (scopes : Scopes) : (e.resolve scopes).2 = scopes := by
  rw [(e.resolve_follows.2 scopes).2, e.advance_events]

theorem Expr.operands_resolve_nil {e : Expr} (h : e.operands = []) (scopes : Scopes) :
    (e.resolve scopes).1.operands = [] := by
  have hm := congrArg Expr.operands (e.resolve_move id scopes)
  simpa [Expr.operands_move, h] using hm

theorem Stmt.operands_resolve_nil (h : s.operands = []) (scopes : Scopes) :
    (s.resolve scopes).1.operands = [] := by
  have hm := congrArg Stmt.operands (s.resolve_move id scopes)
  simpa [Stmt.operands_move, h] using hm

mutual

/-- No part of an expression changes what its operands are looked up in. -/
theorem Expr.operands_resolve (scopes : Scopes) (e : Expr) :
    (e.resolve scopes).1.operands = e.operands.map fun id => (Scoping.use id scopes).1 := by
  cases e with
  | ident => rfl
  | binary x opPos op y =>
    have he : ((Expr.binary x opPos op y).resolve scopes).1 =
        .binary (x.resolve scopes).1 opPos op
          (y.resolve (x.resolve scopes).2).1 := by rw [Expr.resolve]; rfl
    rw [he, x.resolve_scopes]
    simp [Expr.operands, x.operands_resolve scopes, y.operands_resolve scopes]
  | call f lparen args dots rparen =>
    have he : ((Expr.call f lparen args dots rparen).resolve scopes).1 =
        .call (f.resolve scopes).1 lparen (resolveExprs args (f.resolve scopes).2).1 dots
          rparen := by
      rw [Expr.resolve]; rfl
    rw [he, f.resolve_scopes]
    simp [Expr.operands, f.operands_resolve scopes, exprsOperands_resolve scopes args]
  | _ => exact Expr.operands_resolve_nil rfl scopes

theorem exprsOperands_resolve (scopes : Scopes) (es : List Expr) :
    exprsOperands (resolveExprs es scopes).1 =
      (exprsOperands es).map fun id => (Scoping.use id scopes).1 := by
  cases es with
  | nil => rfl
  | cons e es =>
    have he : (resolveExprs (e :: es) scopes).1 = (e.resolve scopes).1 ::
        (resolveExprs es (e.resolve scopes).2).1 := by
      rw [resolveExprs]; rfl
    rw [he, e.resolve_scopes]
    simp [exprsOperands, e.operands_resolve scopes, exprsOperands_resolve scopes es]

end

theorem Stmt.operands_resolve (scopes : Scopes) (s : Stmt) :
    (s.resolve scopes).1.operands = s.operands.map fun id => (Scoping.use id scopes).1 := by
  cases s with
  | ret _ results => rw [Stmt.resolve]; exact exprsOperands_resolve scopes results
  | expr x => rw [Stmt.resolve]; exact x.operands_resolve scopes
  | _ => exact Stmt.operands_resolve_nil rfl scopes

def Spec.names : Spec → List Ident
  | .value names _ _ => names
  | .type name _ _ => [name]

/-- The declaration gives the package a name of this kind. Methods give it none. -/
def Decl.Declares (name : String) (kind : ObjKind) : Decl → Prop
  | .func f => f.recv = none ∧ f.name.name = name ∧ kind = .func
  | .gen g => (∃ spec ∈ g.specs, ∃ id ∈ spec.names, id.name = name) ∧ kind = g.word.objKind

/-- The last declaration of the name among these is of this kind. -/
def LastDeclared (name : String) (kind : ObjKind) (decls : List Decl) : Prop :=
  ∃ before d after, decls = before ++ d :: after ∧ d.Declares name kind ∧ ∀ d' ∈ after, ∀ k,
    ¬ d'.Declares name k

theorem Spec.nameEvents_eq (kind : ObjKind) (spec : Spec) :
    spec.nameEvents kind = declarations kind spec.names := by
  cases spec <;> rfl

theorem lastDeclared_cons {name : String} {kind : ObjKind} {d : Decl} {decls : List Decl} :
    LastDeclared name kind (d :: decls) ↔
      LastDeclared name kind decls ∨ d.Declares name kind ∧
      ∀ d' ∈ decls, ∀ k, ¬ d'.Declares name k := by
  constructor
  · rintro ⟨before, d₀, after, h, hd, hlast⟩
    rcases cons_eq_append_iff.1 h with ⟨-, h⟩ | ⟨before', -, h⟩
    · obtain ⟨rfl, rfl⟩ := List.cons.inj h
      exact .inr ⟨hd, hlast⟩
    · exact .inl ⟨before', d₀, after, h, hd, hlast⟩
  · rintro (⟨before, d₀, after, rfl, hd, hlast⟩ | ⟨hd, hlast⟩)
    · exact ⟨d :: before, d₀, after, rfl, hd, hlast⟩
    · exact ⟨[], d, decls, rfl, hd, hlast⟩

/-- Where all declarations are of one kind only their names matter. -/
theorem lookup_declares {es : List Event} {kind : ObjKind} (h : ∀ e ∈ es, ∃ n, e = .declares n kind)
    (name : String) :
    (es.filterMap Event.binding?).reverse.lookup name =
      if name ≠ "_" ∧ .declares name kind ∈ es then some kind else none := by
  induction es with
  | nil => simp
  | cons e es ih =>
    obtain ⟨n, rfl⟩ := h e (by simp)
    have ih := ih fun e he => h e (by simp [he])
    by_cases hn : n = "_"
    · have hskip : (Event.declares n kind).binding? = none := by simp [Event.binding?, hn]
      rw [filterMap_cons_none hskip, ih]
      grind
    · have hbind : (Event.declares n kind).binding? = some (n, kind) := by simp [Event.binding?, hn]
      rw [filterMap_cons_some hbind, reverse_cons, lookup_append, ih]
      by_cases hname : name = n
      · subst hname
        simp only [lookup_cons, beq_self_eq_true, mem_cons]
        grind
      · have hb : (name == n) = false := by simp [hname]
        simp only [lookup_cons, hb, lookup_nil, mem_cons, Event.declares.injEq]
        grind

theorem Decl.nameEvents_kind (d : Decl) : ∃ kind, (∀ e ∈ d.nameEvents, ∃ n, e = .declares n kind) ∧
    ∀ name k, d.Declares name k ↔ .declares name kind ∈ d.nameEvents ∧ k = kind := by
  cases d with
  | func f =>
    refine ⟨.func, ?_, ?_⟩
    · intro e he
      simp only [Decl.nameEvents] at he
      split at he
      · simp at he
      · exact ⟨_, by simpa using he⟩
    · intro name k
      cases hr : f.recv <;> simp [Decl.Declares, Decl.nameEvents, hr, eq_comm]
  | gen g =>
    refine ⟨g.word.objKind, ?_, ?_⟩
    · intro e he
      obtain ⟨spec, -, he⟩ := mem_flatMap.1 he
      rw [Spec.nameEvents_eq] at he
      obtain ⟨id, -, rfl⟩ := mem_map.1 he
      exact ⟨_, rfl⟩
    · intro name k
      simp [Decl.Declares, Decl.nameEvents, Spec.nameEvents_eq, declarations]

theorem mem_packageFrame {decls : List Decl} {name : String} {kind : ObjKind} :
    (name, kind) ∈ packageFrame decls ↔ name ≠ "_" ∧ ∃ d ∈ decls, d.Declares name kind := by
  have hbind : ∀ e : Event, e.binding? = some (name, kind) ↔ name ≠ "_" ∧
      e = .declares name kind := by
    intro e
    cases e <;> simp [Event.binding?]
    grind
  simp only [packageFrame, mem_reverse, mem_filterMap, mem_flatMap, hbind]
  constructor
  · rintro ⟨e, ⟨d, hd, he⟩, hname, rfl⟩
    obtain ⟨k, hk, hdecl⟩ := d.nameEvents_kind
    obtain ⟨n, hn⟩ := hk _ he
    cases hn
    exact ⟨hname, d, hd, (hdecl name kind).2 ⟨he, rfl⟩⟩
  · rintro ⟨hname, d, hd, h⟩
    obtain ⟨k, hk, hdecl⟩ := d.nameEvents_kind
    obtain ⟨he, rfl⟩ := (hdecl name kind).1 h
    exact ⟨_, ⟨d, hd, he⟩, hname, rfl⟩

theorem lookup_packageFrame_eq_none {decls : List Decl} {name : String} :
    (packageFrame decls).lookup name = none ↔ name = "_" ∨
    ∀ d ∈ decls, ∀ kind, ¬ d.Declares name kind := by
  rw [lookup_eq_none_iff]
  constructor
  · intro h
    by_contra! hd
    obtain ⟨hname, d, hmem, kind, hdecl⟩ := hd
    simpa using h _ (mem_packageFrame.2 ⟨hname, d, hmem, hdecl⟩)
  · rintro h ⟨n, kind⟩ hmem
    obtain ⟨hn, d, hd, hdecl⟩ := mem_packageFrame.1 hmem
    rcases h with rfl | h
    · simpa using Ne.symm hn
    · have hne : name ≠ n := by
        rintro rfl
        exact h d hd kind hdecl
      simpa using hne

/-- The scope of a package tells its last declarations. -/
theorem lookup_packageFrame {decls : List Decl} {name : String} {kind : ObjKind} :
    (packageFrame decls).lookup name = some kind ↔ name ≠ "_" ∧ LastDeclared name kind decls := by
  induction decls generalizing kind with
  | nil => simp [packageFrame, LastDeclared]
  | cons d decls ih =>
    have hsplit : packageFrame (d :: decls) = packageFrame decls ++
        (d.nameEvents.filterMap Event.binding?).reverse := by
      simp [packageFrame]
    obtain ⟨k, hk, hdecl⟩ := d.nameEvents_kind
    rw [hsplit, lookup_append, Option.or_eq_some_iff, ih, lookup_packageFrame_eq_none,
      lookup_declares hk, lastDeclared_cons, hdecl]
    grind

def FuncDecl.fields (f : FuncDecl) : List Field :=
  (f.recv.map FieldList.list).getD [] ++ f.params.list ++ (f.results.map FieldList.list).getD []

def FuncDecl.Binds (name : String) (f : FuncDecl) : Prop :=
  name ≠ "_" ∧ ∃ field ∈ f.fields, ∃ id ∈ field.names, id.name = name

def FuncDecl.frame (f : FuncDecl) : Frame :=
  ((f.fields.flatMap fun field => declarations .var field.names).filterMap Event.binding?).reverse

instance (name : String) (f : FuncDecl) : Decidable (f.Binds name) :=
  inferInstanceAs (Decidable (_ ∧ _))

theorem lookup_fields (kind : ObjKind) (fields : List Field) (name : String) :
    ((fields.flatMap fun field => declarations kind field.names).filterMap
      Event.binding?).reverse.lookup name =
      if name ≠ "_" ∧ ∃ field ∈ fields, ∃ id ∈ field.names, id.name =
      name then some kind else none := by
  have hkind : ∀ e ∈ fields.flatMap fun field => declarations kind field.names, ∃ n,
      e = .declares n kind := by
    intro e he
    obtain ⟨field, -, he⟩ := mem_flatMap.1 he
    obtain ⟨id, -, rfl⟩ := mem_map.1 he
    exact ⟨_, rfl⟩
  rw [lookup_declares hkind]
  exact if_congr (by simp [declarations]) rfl rfl

theorem FuncDecl.lookup_frame (f : FuncDecl) (name : String) :
    f.frame.lookup name = if f.Binds name then some .var else none :=
  lookup_fields .var f.fields name

theorem advance_fieldsEvents (kind : ObjKind) (frame : Frame) (outer : Scopes)
    (fields : List Field) :
    advance (frame :: outer) (fieldsEvents kind fields) =
      (((fields.flatMap fun field => declarations kind field.names).filterMap
      Event.binding?).reverse ++ frame) ::
        outer := by
  induction fields generalizing frame with
  | nil => rfl
  | cons field fields ih =>
    obtain ⟨names, type, tag⟩ := field
    rw [fieldsEvents, advance_append, advance_append, type.advance_events,
      advance_declares declarations_declares, ih]
    simp

theorem advance_fieldList?Events (frame : Frame) (outer : Scopes) (fields : Option FieldList) :
    advance (frame :: outer) (fieldList?Events fields) =
      (((((fields.map FieldList.list).getD []).flatMap fun field => declarations .var
      field.names).filterMap
        Event.binding?).reverse ++ frame) :: outer := by
  cases fields with
  | none => rfl
  | some fields =>
    obtain ⟨opening, list, closing⟩ := fields
    exact advance_fieldsEvents .var frame outer list

theorem FuncDecl.resolve_body (f : FuncDecl) (scopes : Scopes) : (f.resolve scopes).1.body =
    f.body.map fun b => { b with list := (resolveStmts b.list (f.frame :: scopes)).1 } := by
  have hrecv := ((resolveFieldList?_follows f.recv).2 ([] :: scopes)).2
  have htype := ((FuncType.resolve_follows ⟨f.funcPos, f.params, f.results⟩).2
    (resolveFieldList? f.recv ([] :: scopes)).2).2
  have hscopes :
      ((FuncType.resolve ⟨f.funcPos, f.params, f.results⟩)
        (resolveFieldList? f.recv ([] :: scopes)).2).2 =
      f.frame :: scopes := by
    obtain ⟨funcPos, recv, name, ⟨opening, params, closing⟩, results, body⟩ := f
    rw [htype, hrecv, advance_fieldList?Events, FuncType.events, FieldList.events, advance_append,
      advance_fieldsEvents, advance_fieldList?Events]
    simp [FuncDecl.frame, FuncDecl.fields]
  change ((f.body.mapM fun b : Block => return { b with list := ← resolveStmts b.list })
    ((FuncType.resolve ⟨f.funcPos, f.params, f.results⟩)
      (resolveFieldList? f.recv ([] :: scopes)).2).2).1 = _
  rw [hscopes]
  cases f.body <;> rfl

theorem FuncDecl.fields_move (m : Nat → Nat) (f : FuncDecl) :
    (f.move m).fields = f.fields.map (Field.move m) := by
  obtain ⟨funcPos, recv, name, ⟨opening, params, closing⟩, results, body⟩ := f
  have hlist : ∀ fields : Option FieldList, ((moveFieldList? m fields).map FieldList.list).getD [] =
      ((fields.map FieldList.list).getD []).map (Field.move m) := by
    rintro (_ | ⟨opening, list, closing⟩)
    · rfl
    · exact moveFields_eq_map m list
  simp [FuncDecl.fields, FuncDecl.move, hlist, FieldList.move, moveFields_eq_map]

theorem FuncDecl.binds_move (m : Nat → Nat) (name : String) (f : FuncDecl) :
    (f.move m).Binds name ↔ f.Binds name := by
  simp [FuncDecl.Binds, FuncDecl.fields_move, Field.move, Ident.move]

/-- Resolution gives a function the objects that its body finds in its signature and in the
package. -/
theorem File.resolve_func {file : File} (h : .func f ∈ file.resolve.decls) :
    ∃ f₀ f₁ : FuncDecl, .func f₀ ∈ file.decls ∧ f₁.body = f₀.body ∧
    f = (f₁.resolve [packageFrame file.decls]).1 := by
  rw [File.resolve, resolveDecls_eq] at h
  obtain ⟨d, hd, h⟩ := mem_map.1 h
  cases d with
  | gen g => cases h
  | func f₀ =>
    obtain ⟨f₁, hnamed, hbody⟩ : ∃ f₁ : FuncDecl, Decl.named (.func f₀) = .func f₁ ∧
        f₁.body = f₀.body := by
      unfold Decl.named
      rw [Decl.declareNames]
      split
      · exact ⟨f₀, rfl, rfl⟩
      · exact ⟨_, rfl, rfl⟩
    rw [hnamed] at h
    exact ⟨f₀, f₁, hd, hbody, (Decl.func.inj h).symm⟩

theorem File.packageFrame_resolve (file : File) :
    packageFrame file.resolve.decls = packageFrame file.decls := by
  have hs := congrArg (List.flatMap Decl.nameEvents) (file.resolve_decls_move id)
  rw [flatMap_map, flatMap_map] at hs
  simp only [Decl.nameEvents_move] at hs
  rw [packageFrame, packageFrame, hs]

theorem resolveStmts_singleton {ss : List Stmt} {scopes : Scopes}
    (h : (resolveStmts ss scopes).1 = [s]) :
    ∃ s₀, ss = [s₀] ∧ (s₀.resolve scopes).1 = s := by
  have hlength := congrArg List.length (((resolveStmts_follows ss).2 scopes).1.2 id)
  rw [h] at hlength
  simp only [moveStmts_eq_map, length_map, length_singleton] at hlength
  obtain ⟨s₀, rfl⟩ := length_eq_one_iff.1 hlength.symm
  rw [resolveStmts] at h
  exact ⟨s₀, rfl, (List.cons.inj h).1⟩

theorem Grammar.operand_obj_none {text : String} {file : File} (h : parse? text = some file)
    (hf : .func f ∈ file.decls) {body : Block} (hbody : f.body = some body) (hs : s ∈ body.list)
    {id₀ : Ident} (hid : id₀ ∈ s.operands) :
    id₀.obj = none := by
  have hsame : ∀ {α : Type} {g : α → α} {l : List α}, l.map g = l → ∀ a ∈ l, g a = a := fun hl =>
    map_inj_left.1 (hl.trans (map_id _).symm)
  have hfile := congrArg File.decls (move_parse? h)
  have hmoved := FuncDecl.mk.inj (Decl.func.inj (hsame hfile _ hf))
  have hblock : body.move id = body := by
    have hb := hmoved.2.2.2.2.2
    rw [hbody] at hb
    exact Option.some.inj hb
  have hlist : body.list.map (Stmt.move id) = body.list := by
    obtain ⟨lbrace, list, rbrace⟩ := body
    rw [← moveStmts_eq_map]
    exact (Block.mk.inj hblock).2.1
  have hoperands :
      s.operands.map (Ident.move id) = s.operands := by rw [← s.operands_move, hsame hlist s hs]
  exact (congrArg Ident.obj (hsame hoperands id₀ hid)).symm

theorem SourceUnit.operand_obj {name text : String} {u : SourceUnit} (h : read? name text = some u)
    (hf : .func f ∈ u.file.decls) {body : Block} (hbody : f.body = some body) (hs : body.list = [s])
    {x : Ident} (hx : x ∈ s.operands) :
    x.obj = (if f.Binds x.name then some .var else (packageFrame u.file.decls).lookup x.name).map
      fun kind => ⟨kind, x.name⟩ := by
  obtain ⟨file, hfile, rfl⟩ := Option.map_eq_some_iff.1 h
  obtain ⟨f₀, f₁, hmem, hsame, rfl⟩ := File.resolve_func hf
  have hbinds : ∀ name, (f₁.resolve [packageFrame file.decls]).1.Binds name ↔ f₁.Binds name := by
    intro name
    rw [← FuncDecl.binds_move id, (f₁.resolve_follows.2 _).1.2, FuncDecl.binds_move]
  -- the statement before its names were resolved
  rw [FuncDecl.resolve_body, hsame] at hbody
  obtain ⟨b, hb, rfl⟩ := Option.map_eq_some_iff.1 hbody
  obtain ⟨s₀, hs₀, rfl⟩ := resolveStmts_singleton hs
  rw [Stmt.operands_resolve] at hx
  obtain ⟨x₀, hx₀, rfl⟩ := mem_map.1 hx
  have hobj : x₀.obj = none :=
    Grammar.operand_obj_none hfile hmem hb (hs₀ ▸ mem_singleton_self s₀) hx₀
  have hname : (Scoping.use x₀ [f₁.frame, packageFrame file.decls]).1.name = x₀.name := by
    rw [Scoping.use_eq]
    split <;> rfl
  rw [hname, File.packageFrame_resolve, Scoping.use_eq]
  by_cases hblank : x₀.name = "_"
  · have hpackage : (packageFrame file.decls).lookup x₀.name = none :=
      lookup_packageFrame_eq_none.2 (.inl hblank)
    have hunbound : ¬ f₁.Binds x₀.name := fun hb => hb.1 hblank
    rw [if_pos hblank, if_neg (mt (hbinds _).1 hunbound), hpackage, hobj]
    rfl
  · rw [if_neg hblank, hobj, Option.or_none, if_congr (hbinds _) rfl rfl, Scopes.find?_cons,
      f₁.lookup_frame]
    by_cases hb : f₁.Binds x₀.name
    · simp [hb]
    · simp [hb, Scopes.find?]

namespace Fun

variable {r : Expr}

mutual

def Expr.vars : Expr → List String
  | .var name => [name]
  | .binary x _ y => x.vars ++ y.vars
  | .application _ args => exprsVars args
  | .results values => exprsVars values
  | .funcName _ | .int _ | .double _ | .string _ | .char _ => []

def exprsVars : List Expr → List String
  | [] => []
  | e :: es => e.vars ++ exprsVars es

end

theorem lowerIdent_eq_ok {x : Ident} (h : lowerIdent x = .ok r) : r = .var x.name := by
  unfold lowerIdent at h
  split at h
  · split at h
    · exact (Except.ok.inj h).symm
    · cases h
  · cases h

theorem vars_lowerLiteral {c : Config} {l : Literal} (h : lowerLiteral c l = .ok r) :
    r.vars = [] := by
  have hkind := literalOf_lowerLiteral h
  cases r with
  | int _ | double _ | string _ | char _ | funcName _ => rfl
  | var _ | binary _ _ _ | application _ _ | results _ =>
    cases hl : l.kind <;> simp [hl, literalOf] at hkind

mutual

theorem vars_lowerExpr (c : Config) {e : GoFun.Expr} {r : Expr} (h : lowerExpr c e = .ok r) :
    r.vars = e.operands.map Ident.name := by
  cases e with
  | ident x =>
    rw [lowerExpr] at h
    rw [lowerIdent_eq_ok h]
    rfl
  | binary x _ op y =>
    rw [lowerExpr] at h
    obtain ⟨a, ha, h⟩ := bind_eq_ok h
    obtain ⟨b, hb, h⟩ := bind_eq_ok h
    cases h
    simp [Expr.vars, GoFun.Expr.operands, vars_lowerExpr c ha, vars_lowerExpr c hb]
  | call f _ args _ _ =>
    rw [lowerExpr] at h
    obtain ⟨g, hg, h⟩ := bind_eq_ok h
    have hf := vars_lowerExpr c hg
    cases g with
    | funcName name =>
      obtain ⟨as, has, h⟩ := bind_eq_ok h
      cases h
      have hnil : f.operands.map Ident.name = [] := hf.symm
      simp [Expr.vars, GoFun.Expr.operands, hnil, vars_lowerExprs c has]
    | _ => cases h
  | selector x sel =>
    cases x <;> cases h
    rfl
  | lit l =>
    rw [lowerExpr] at h
    exact vars_lowerLiteral h
  | _ => cases h

theorem vars_lowerExprs (c : Config) {es : List GoFun.Expr} {rs : List Expr}
    (h : lowerExprs c es = .ok rs) : exprsVars rs = (exprsOperands es).map Ident.name := by
  cases es with
  | nil =>
    cases h
    rfl
  | cons e es =>
    rw [lowerExprs] at h
    obtain ⟨a, ha, h⟩ := bind_eq_ok h
    obtain ⟨as, has, h⟩ := bind_eq_ok h
    cases h
    simp [exprsVars, exprsOperands, vars_lowerExpr c ha, vars_lowerExprs c has]

end

theorem vars_lowerStmt {c : Config} (h : lowerStmt c s = .ok r) :
    r.vars = s.operands.map Ident.name := by
  cases s with
  | expr x => exact vars_lowerExpr c h
  | ret retPos results =>
    match results with
    | [] => cases h
    | [result] =>
      have he := vars_lowerExpr c h
      simpa [Stmt.operands, exprsOperands] using he
    | x :: y :: results =>
      obtain ⟨rs, hrs, h⟩ := bind_eq_ok h
      cases h
      exact vars_lowerExprs c hrs
  | _ => cases h

end Fun

/-- Each operand in the only statement of a function is lowered by what its name means there: a
field of the signature, or else the last declaration of the name in the package. The operands are
what the Fun form has for variables. -/
theorem SourceUnit.operand_meaning {name text : String} {u : SourceUnit}
    (h : read? name text = some u) {f : FuncDecl} (hf : .func f ∈ u.file.decls) {body : Block}
    (hbody : f.body = some body) {s : Stmt} (hs : body.list = [s]) (c : Fun.Config) :
    (∀ e, Fun.lowerStmt c s = .ok e → e.vars = s.operands.map Ident.name) ∧ ∀ x ∈ s.operands,
      (f.Binds x.name → Fun.lowerExpr c (.ident x) = .ok (.var x.name)) ∧
      (¬ f.Binds x.name → x.name ≠ "_" → ∀ kind, LastDeclared x.name kind u.file.decls →
      Fun.lowerExpr c (.ident x) =
        if kind = .var then .ok (.var x.name) else Fun.unsupported .unsupportedObjKind
        (Object.outline ⟨kind, x.name⟩)) ∧
      (¬ f.Binds x.name → (x.name = "_" ∨ ∀ d ∈ u.file.decls, ∀ kind, ¬ d.Declares x.name kind) →
        Fun.lowerExpr c (.ident x) = Fun.unsupported .unresolvedIdent x.outline) := by
  refine ⟨fun e he => Fun.vars_lowerStmt he, fun x hx => ?_⟩
  have hobj := operand_obj h hf hbody hs hx
  refine ⟨fun hbinds => ?_, fun hfree hname kind hlast => ?_, fun hfree hnone => ?_⟩
  · rw [if_pos hbinds] at hobj
    simp [Fun.lowerExpr, Fun.lowerIdent, hobj]
  · rw [if_neg hfree, lookup_packageFrame.2 ⟨hname, hlast⟩] at hobj
    simp [Fun.lowerExpr, Fun.lowerIdent, hobj]
  · rw [if_neg hfree, lookup_packageFrame_eq_none.2 hnone] at hobj
    simp [Fun.lowerExpr, Fun.lowerIdent, hobj]

/-- A receiver and a parameter, a function and a variable of one name, a variable and a type of
another, and methods. -/
def clashText : String :=
  "package p\nfunc x() \x7b\n\x7d\nfunc (r T) f(a int) \x7b\nreturn m.g(a, x, y, r), z\n\x7d\nvar x, y int\ntype y int\n" ++
    "func (t T) x() \x7b\n\x7d\nfunc (t T) z() \x7b\n\x7d\n"

def isClash : Decl → Bool
  | .func f => f.Binds "a" && !f.Binds "x" && !f.Binds "y" && f.Binds "r" && !f.Binds "z" &&
      f.body.any fun b =>
    match b.list with
    | [s] => s.operands.map Ident.name = ["a", "x", "y", "r", "z"]
    | _ => false
  | .gen _ => false

theorem clash_meaning :
    ∃ u f body s, SourceUnit.read? "p.go" clashText = some u ∧ .func f ∈ u.file.decls ∧
    f.body = some body ∧ body.list = [s] ∧ s.operands.map Ident.name = ["a", "x", "y", "r", "z"] ∧
    ∀ x ∈ s.operands, Fun.lowerExpr {} (.ident x) =
      if x.name = "y" then Fun.unsupported .unsupportedObjKind (Object.outline ⟨.type, "y"⟩)
      else if x.name = "z" then Fun.unsupported .unresolvedIdent x.outline else .ok
      (.var x.name) := by
  have h : (SourceUnit.read? "p.go" clashText).any fun u =>
      (packageFrame u.file.decls).lookup "x" = some .var && (packageFrame u.file.decls).lookup "y" =
        some .type &&
      (packageFrame u.file.decls).lookup "z" = none && u.file.decls.any isClash := by decide +kernel
  obtain ⟨u, hu, h⟩ := (Option.any_eq_true _ _).1 h
  simp only [Bool.and_eq_true, decide_eq_true_eq] at h
  obtain ⟨⟨⟨hx, hy⟩, hz⟩, h⟩ := h
  obtain ⟨d, hd, h⟩ := List.any_eq_true.1 h
  cases d with
  | gen g => cases h
  | func f =>
    simp only [isClash, Bool.and_eq_true, Bool.not_eq_true', decide_eq_true_eq,
      decide_eq_false_iff_not] at h
    obtain ⟨⟨⟨⟨⟨ha, hx'⟩, hy'⟩, hr⟩, hz'⟩, h⟩ := h
    obtain ⟨body, hbody, h⟩ := (Option.any_eq_true _ _).1 h
    split at h
    case h_2 => cases h
    case h_1 s hs =>
      have hnames := of_decide_eq_true h
      obtain ⟨-, hall⟩ := SourceUnit.operand_meaning hu hd hbody hs {}
      refine ⟨u, f, body, s, hu, hd, hbody, hs, hnames, fun x hmem => ?_⟩
      obtain ⟨hbound, hlast, hnone⟩ := hall x hmem
      have hname : x.name ∈ ["a", "x", "y", "r", "z"] := hnames ▸ List.mem_map_of_mem hmem
      simp only [List.mem_cons, List.not_mem_nil, or_false] at hname
      rcases hname with hn | hn | hn | hn | hn <;> rw [hn] at hbound hlast hnone ⊢
      · exact hbound ha
      · exact hlast hx' (by decide) .var (lookup_packageFrame.1 hx).2
      · exact hlast hy' (by decide) .type (lookup_packageFrame.1 hy).2
      · exact hbound hr
      · exact hnone hz' (lookup_packageFrame_eq_none.1 hz)

end GoFun
