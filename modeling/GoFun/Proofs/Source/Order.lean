import GoFun.Fun.Lowering
import GoFun.Proofs.Scope.Lexical
import GoFun.Proofs.Scope.Parallel

/-!
# The order of declarations

All names of a package are declared before any definition is resolved, and no definition adds to the
scope of the package. So a declaration is resolved in the same scope wherever it stands, as long as
no name of the package has two kinds; otherwise the last declaration wins. Lowering takes the
declarations one by one.
-/
namespace GoFun

open List

attribute [local instance (high)] Applicative.toFunctor

variable {es : List Event} {scopes : Scopes} {ds : List Decl}

theorem Balanced.advance_cons (h : Balanced es) (frame : Frame) (outer : Scopes) :
    ∃ frame', advance (frame :: outer) es = frame' :: outer := by
  induction h generalizing frame outer with
  | nil => exact ⟨frame, rfl⟩
  | declares _ ih =>
    simp only [advance, Event.apply]
    split
    · exact ih frame outer
    · exact ih _ outer
  | uses _ ih => exact ih frame outer
  | scope _ _ ih ih' =>
    obtain ⟨inner, hi⟩ := ih [] (frame :: outer)
    simp only [cons_append, advance, Event.apply, advance_append, hi, tail_cons]
    exact ih' frame outer

theorem Balanced.advance_inScope (h : Balanced es) (scopes : Scopes) :
    advance scopes (GoFun.inScope es) = scopes := by
  obtain ⟨inner, hi⟩ := h.advance_cons [] scopes
  simp [GoFun.inScope, advance, Event.apply, advance_append, hi]

theorem advance_elemEvents {e : Expr} (h : advance scopes e.events = scopes) :
    advance scopes (elemEvents e) = scopes := by
  cases e with
  | keyValue key colon value => cases key <;> exact h
  | _ => exact h

mutual

theorem Expr.advance_events (scopes : Scopes) (e : Expr) : advance scopes e.events = scopes := by
  cases e with
  | struct _ fields => exact (fields.resolve_follows .var).1.advance_inScope scopes
  | interface _ methods => exact (methods.resolve_follows .func).1.advance_inScope scopes
  | func t => exact t.resolve_follows.1.advance_inScope scopes
  | funcLit t body =>
    cases body
    exact (t.resolve_follows.1.append (resolveStmts_follows _).1).advance_inScope scopes
  | _ =>
    simp [Expr.events, advance, Event.apply, advance_append, Expr.advance_events,
      advance_exprsEvents, advance_expr?Events, advance_elemsEvents]

theorem advance_exprsEvents (scopes : Scopes) (es : List Expr) :
    advance scopes (exprsEvents es) = scopes := by
  cases es <;> simp [exprsEvents, advance, advance_append, Expr.advance_events, advance_exprsEvents]

theorem advance_expr?Events (scopes : Scopes) (e : Option Expr) :
    advance scopes (expr?Events e) = scopes := by
  cases e <;> simp [expr?Events, advance, Expr.advance_events]

theorem advance_elemsEvents (scopes : Scopes) (es : List Expr) :
    advance scopes (elemsEvents es) = scopes := by
  cases es with
  | nil => rfl
  | cons e es =>
    rw [elemsEvents_cons, advance_append, advance_elemEvents (Expr.advance_events scopes e),
      advance_elemsEvents scopes es]

end

theorem Spec.advance_definitionEvents (scopes : Scopes) (spec : Spec) :
    advance scopes spec.definitionEvents = scopes := by
  cases spec with
  | value names t values =>
    simp [Spec.definitionEvents, advance_append, advance_expr?Events, advance_exprsEvents]
  | type name equals t => exact t.advance_events scopes

theorem Decl.advance_events (scopes : Scopes) (d : Decl) : advance scopes d.events = scopes := by
  cases d with
  | func f =>
    have hbody : Balanced (f.body.toList.flatMap fun b => stmtsEvents b.list) := by
      cases f.body with
      | none => exact .nil
      | some b => simpa using (resolveStmts_follows b.list).1
    exact (((resolveFieldList?_follows f.recv).1.append (FuncType.resolve_follows _).1).append
      hbody).advance_inScope scopes
  | gen g =>
    obtain ⟨wordPos, word, lparen, specs, rparen⟩ := g
    change advance scopes (specs.flatMap Spec.definitionEvents) = scopes
    induction specs with
    | nil => rfl
    | cons spec specs ih => rw [flatMap_cons, advance_append, spec.advance_definitionEvents, ih]

theorem Decl.resolve_scopes (d : Decl) (scopes : Scopes) : (d.resolve scopes).2 = scopes := by
  rw [(d.resolve_follows.2 scopes).2, d.advance_events]

/-- What a declaration adds to its scope. -/
def Event.binding? : Event → Option (String × ObjKind)
  | declares name kind => if name = "_" then none else some (name, kind)
  | _ => none

/-- No name is declared with two kinds. Low lines are no names. -/
def OneKind (es : List Event) : Prop :=
  ∀ x ∈ es.filterMap Event.binding?, ∀ y ∈ es.filterMap Event.binding?, x.1 = y.1 → x.2 = y.2

instance (es : List Event) : Decidable (OneKind es) := inferInstanceAs (Decidable (∀ x ∈ _, _))

def packageFrame (decls : List Decl) : Frame :=
  ((decls.flatMap Decl.nameEvents).filterMap Event.binding?).reverse

theorem declarations_declares {kind : ObjKind} {names : List Ident} :
    ∀ e ∈ declarations kind names, ∃ name kind, e = .declares name kind := by
  intro e he
  obtain ⟨id, -, rfl⟩ := mem_map.1 he
  exact ⟨_, _, rfl⟩

theorem Decl.nameEvents_declares (d : Decl) :
    ∀ e ∈ d.nameEvents, ∃ name kind, e = .declares name kind := by
  intro e he
  cases d with
  | func f =>
    simp only [Decl.nameEvents] at he
    split at he
    · simp at he
    · exact ⟨_, _, by simpa using he⟩
  | gen g =>
    obtain ⟨spec, -, he⟩ := mem_flatMap.1 he
    cases spec with
    | value names t values => exact declarations_declares e he
    | type name equals t => exact ⟨_, _, by simpa [Spec.nameEvents] using he⟩

theorem advance_declares (h : ∀ e ∈ es, ∃ name kind, e = .declares name kind) (frame : Frame)
    (outer : Scopes) :
    advance (frame :: outer) es = ((es.filterMap Event.binding?).reverse ++ frame) :: outer := by
  induction es generalizing frame with
  | nil => rfl
  | cons e es ih =>
    obtain ⟨name, kind, rfl⟩ := h e (by simp)
    have ih := fun frame => ih (fun e he => h e (by simp [he])) frame
    by_cases hn : name = "_"
    · simp [advance, Event.apply, Event.binding?, hn, ih]
    · simp [advance, Event.apply, Event.binding?, hn, ih, Scopes.declare]

theorem Frame.mem_of_lookup {frame : Frame} {name : String} {kind : ObjKind}
    (h : frame.lookup name = some kind) :
    (name, kind) ∈ frame := by
  obtain ⟨before, after, rfl, -⟩ := lookup_eq_some_iff.1 h
  simp

/-- Where no name has two kinds the order of the declarations does not matter. -/
theorem Frame.Agree.of_perm {a b : Frame} (h : a.Perm b)
    (hk : ∀ x ∈ a, ∀ y ∈ a, x.1 = y.1 → x.2 = y.2) :
    Frame.Agree a b := by
  intro name
  cases hb : b.lookup name with
  | none =>
    rw [lookup_eq_none_iff] at hb ⊢
    exact fun p hp => hb p (h.mem_iff.1 hp)
  | some kind =>
    have hmem := h.mem_iff.2 (Frame.mem_of_lookup hb)
    cases ha : a.lookup name with
    | none => simpa using lookup_eq_none_iff.1 ha _ hmem
    | some kind' => exact congrArg some (hk _ (Frame.mem_of_lookup ha) _ hmem rfl)

theorem packageFrame_agree {decls : List Decl} (hk : OneKind (decls.flatMap Decl.nameEvents))
    (h : ds.Perm decls) :
    Frame.Agree (packageFrame decls) (packageFrame ds) := by
  have hp : (packageFrame decls).Perm (packageFrame ds) :=
    (reverse_perm _).trans (((h.symm.flatMap_right _).filterMap _).trans (reverse_perm _).symm)
  exact .of_perm hp fun x hx y hy => hk x (mem_reverse.1 hx) y (mem_reverse.1 hy)

/-- The declaration with the objects of the names that it adds to the package. -/
def Decl.named (d : Decl) : Decl := (d.declareNames []).1

theorem Scoping.declare_returns (kind : ObjKind) (id : Ident) :
    Returns (Scoping.declare kind id) (· = (Scoping.declare kind id []).1) := by
  intro scopes
  unfold Scoping.declare
  split <;> rfl

theorem declareNames_returns (kind : ObjKind) (names : List Ident) :
    Returns (names.mapM (Scoping.declare kind)) (· = (names.mapM (Scoping.declare kind) []).1) := by
  have h := Returns.mapM (g := id) names (Scoping.declare_returns kind)
  simp only [map_id_fun, id_eq] at h
  exact fun scopes => (h scopes).trans (h []).symm

theorem Spec.declareNames_returns (kind : ObjKind) (spec : Spec) :
    Returns (spec.declareNames kind) (· = (spec.declareNames kind []).1) := by
  cases spec with
  | value names t values => exact .bind (GoFun.declareNames_returns kind names) fun _ h => .pure (by rw [h]; rfl)
  | type name equals t => exact .bind (Scoping.declare_returns kind name) fun _ h => .pure (by rw [h]; rfl)

/-- What is declared already has no influence on the declared names. -/
theorem Decl.declareNames_returns (d : Decl) : Returns d.declareNames (· = d.named) := by
  cases d with
  | func f =>
    unfold Decl.named
    simp only [Decl.declareNames]
    split
    · exact .pure rfl
    · exact .bind (Scoping.declare_returns .func f.name) fun _ h => .pure (by rw [h]; rfl)
  | gen g =>
    have h := Returns.mapM (g := id) g.specs (Spec.declareNames_returns g.word.objKind)
    simp only [map_id_fun, id_eq] at h
    refine .bind h fun specs hs => .pure ?_
    rw [hs, ← h []]
    rfl

theorem mapM_scopes {α β : Type} {f : α → Scoping β} (as : List α)
    (h : ∀ a, (f a scopes).2 = scopes) :
    as.mapM f scopes = (as.map fun a => (f a scopes).1, scopes) := by
  induction as with
  | nil => rfl
  | cons a as ih =>
    rw [mapM_cons]
    change (let r := as.mapM f (f a scopes).2; ((f a scopes).1 :: r.1, r.2)) = _
    rw [h a, ih]
    rfl

/-- A declaration is resolved in the scope of the whole package. -/
theorem resolveDecls_eq (decls : List Decl) :
    (resolveDecls decls).run' [] = decls.map fun d => (d.named.resolve [packageFrame decls]).1 := by
  have hnames : (decls.mapM Decl.declareNames [[]]).1 = decls.map Decl.named := by
    simpa using Returns.mapM (g := id) decls Decl.declareNames_returns [[]]
  have hdeclares : ∀ e ∈ decls.flatMap Decl.nameEvents, ∃ name kind, e = .declares name kind := by
    intro e he
    obtain ⟨d, -, he⟩ := mem_flatMap.1 he
    exact d.nameEvents_declares e he
  have hscopes : (decls.mapM Decl.declareNames [[]]).2 = [packageFrame decls] := by
    have h := ((Resolves.mapM Decl.declareNames_follows decls).2 [[]]).2
    rw [h, advance_declares hdeclares, append_nil]
    rfl
  change ((decls.mapM Decl.declareNames [[]]).1.mapM Decl.resolve
    (decls.mapM Decl.declareNames [[]]).2).1 = _
  rw [hnames, hscopes, mapM_scopes _ fun d => d.resolve_scopes _, map_map]
  rfl

theorem resolveDecls_perm {decls : List Decl} (hk : OneKind (decls.flatMap Decl.nameEvents))
    (h : ds.Perm decls) :
    (resolveDecls ds).run' [] = ds.map fun d => (d.named.resolve [packageFrame decls]).1 := by
  rw [resolveDecls_eq]
  refine map_congr_left fun d _ => ?_
  have hd := (d.named.resolve_place id _ _ (.cons (packageFrame_agree hk h) .nil)).1
  simpa only [Decl.place_id] using hd

namespace Fun

/-- The function that a declaration becomes. Other declarations become nothing, or are failures. -/
def lowerDecl (m : SourceMap) (c : Config) : Decl → Lowering (Option Function)
  | .func f => some <$> lowerFunction m c f
  | .gen g => if c.strictTopLevels then unsupported .unsupportedTopLevel g.outline else .ok none

def loweredDecl? (m : SourceMap) (c : Config) (d : Decl) : Option Function :=
  (lowerDecl m c d).toOption.join

theorem lowerDecls_cons (m : SourceMap) (c : Config) (d : Decl) (decls : List Decl) :
    lowerDecls m c (d :: decls) = do
      let f ← lowerDecl m c d
      let fs ← lowerDecls m c decls
      return f.toList ++ fs := by
  cases d with
  | func f =>
    simp only [lowerDecls, lowerDecl]
    cases lowerFunction m c f <;> rfl
  | gen g =>
    simp only [lowerDecls, lowerDecl]
    split
    · rfl
    · cases lowerDecls m c decls <;> rfl

theorem lowerDecls_eq_ok_iff {m : SourceMap} {c : Config} {decls : List Decl} {fs : List Function} :
    lowerDecls m c decls = .ok fs ↔
      (∀ d ∈ decls, ∃ f, lowerDecl m c d = .ok f) ∧ fs = decls.filterMap (loweredDecl? m c) := by
  induction decls generalizing fs with
  | nil => exact ⟨fun h => ⟨by simp, (Except.ok.inj h).symm⟩, fun h => congrArg Except.ok h.2.symm⟩
  | cons d decls ih =>
    rw [lowerDecls_cons]
    cases hd : lowerDecl m c d with
    | error failure => exact ⟨fun h => (nomatch h), fun h => by simpa [hd] using h.1 d (by simp)⟩
    | ok f =>
      have hhead : (loweredDecl? m c d) = f := by rw [loweredDecl?, hd]; rfl
      cases hds : lowerDecls m c decls with
      | error failure =>
        refine ⟨fun h => (nomatch h), fun h => ?_⟩
        have hok : lowerDecls m c decls = .ok (decls.filterMap (loweredDecl? m c)) :=
          ih.2 ⟨fun d hd => h.1 d (by simp [hd]), rfl⟩
        rw [hok] at hds
        cases hds
      | ok gs =>
        obtain ⟨hall, rfl⟩ := ih.1 hds
        have htail : (d :: decls).filterMap (loweredDecl? m c) = f.toList ++
            decls.filterMap (loweredDecl? m c) := by
          cases f <;> simp [hhead]
        rw [htail]
        constructor
        · intro h
          exact ⟨forall_mem_cons.2 ⟨⟨f, hd⟩, hall⟩, (Except.ok.inj h).symm⟩
        · exact fun h => congrArg Except.ok h.2.symm

/-- Where no name of the package has two kinds, the order of the declarations matters neither for
names nor for lowering: a declaration is resolved to the same one wherever it stands, and when the
file is lowered, so is the permuted file, to the functions of its declarations in their order. -/
theorem lowerFile_reordered {file : File} (hk : OneKind (file.decls.flatMap Decl.nameEvents)) :
    ∃ resolved : Decl → Decl, ∀ ds, ds.Perm file.decls →
      ({ file with decls := ds } : File).resolve = { file with decls := ds.map resolved } ∧
      ∀ m c module, lowerFile m c file.resolve = .ok module →
        module.functions = (file.decls.map resolved).filterMap (loweredDecl? m c) ∧
        lowerFile m c ({ file with decls := ds } : File).resolve =
          .ok { module with functions := (ds.map resolved).filterMap (loweredDecl? m c) } := by
  let resolved : Decl → Decl := fun d => (d.named.resolve [packageFrame file.decls]).1
  have hresolve : ∀ ds, ds.Perm file.decls →
      ({ file with decls := ds } : File).resolve = { file with decls := ds.map resolved } :=
        fun ds h =>
    congrArg (File.mk _ _ _) (resolveDecls_perm hk h)
  refine ⟨resolved, fun ds h => ⟨hresolve ds h, fun m c module hm => ?_⟩⟩
  rw [hresolve file.decls (.refl _)] at hm
  rw [hresolve ds h]
  unfold lowerFile at hm ⊢
  dsimp only at hm ⊢
  cases himports : lowerImports c file.imports with
  | error failure =>
    rw [himports] at hm
    cases hm
  | ok imports =>
    rw [himports] at hm
    cases hdecls : lowerDecls m c (file.decls.map resolved) with
    | error failure =>
      rw [hdecls] at hm
      cases hm
    | ok fs =>
      rw [hdecls] at hm
      obtain rfl := Except.ok.inj hm
      obtain ⟨hall, rfl⟩ := lowerDecls_eq_ok_iff.1 hdecls
      have hds :
          lowerDecls m c (ds.map resolved) = .ok ((ds.map resolved).filterMap (loweredDecl? m c)) :=
        lowerDecls_eq_ok_iff.2 ⟨fun d hd => hall d ((h.map resolved).mem_iff.1 hd), rfl⟩
      rw [hds]
      exact ⟨rfl, rfl⟩

end Fun

/-- A function that uses a variable declared behind it, and another function of the name of its
parameter. -/
def forwardText : String :=
  "package p\nfunc f(g int) int \x7b\nreturn g + x\n\x7d\nvar x = 1\nfunc g() \x7b\n\x7d\n"

theorem reordered_forward : ∃ file, Grammar.parse? forwardText = some file ∧
    OneKind (file.decls.flatMap Decl.nameEvents) ∧
    (∃ module, Fun.lowerFile .empty {} file.resolve = .ok module) ∧
    ∃ resolved : Decl → Decl,
      ({ file with decls := file.decls.reverse } : File).resolve =
      { file with decls := file.decls.reverse.map resolved } ∧
      ∀ m c module, Fun.lowerFile m c file.resolve = .ok module →
        module.functions = (file.decls.map resolved).filterMap (Fun.loweredDecl? m c) ∧
        Fun.lowerFile m c ({ file with decls := file.decls.reverse } : File).resolve =
          .ok { module with functions := (file.decls.reverse.map resolved).filterMap (Fun.loweredDecl? m c) } := by
  have h : (Grammar.parse? forwardText).any fun file =>
      decide (OneKind (file.decls.flatMap Decl.nameEvents)) && (Fun.lowerFile .empty {} file.resolve).isOk := by
    decide +kernel
  obtain ⟨file, hf, h⟩ := (Option.any_eq_true _ _).1 h
  obtain ⟨hk, hok⟩ := Bool.and_eq_true_iff.1 h
  have hmodule : ∃ module, Fun.lowerFile .empty {} file.resolve = .ok module := by
    cases hm : Fun.lowerFile .empty {} file.resolve with
    | ok module => exact ⟨module, rfl⟩
    | error failure => simp [hm, Except.isOk, Except.toBool] at hok
  obtain ⟨resolved, hresolved⟩ := Fun.lowerFile_reordered (of_decide_eq_true hk)
  exact ⟨file, hf, of_decide_eq_true hk, hmodule, resolved, hresolved _ (List.reverse_perm _)⟩

end GoFun
