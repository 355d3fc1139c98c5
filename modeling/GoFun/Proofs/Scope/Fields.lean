import GoFun.Proofs.Source.Operand

/-!
# Names in the types of a field list

A field list is resolved field by field in one scope, the type of a field in front of its names. So
a type sees the names of the fields before it. Any other name means what it means without the names
of the list.
-/
namespace GoFun

open List

variable {es rest : List Event} {id : Ident} {earlier : List Field}

def Phrase.events : Phrase → List Event
  | expr e => e.events
  | stmt s => s.events

/-- Every scope that opens in one of the phrases opens in the events, with all that happens
there. -/
def Spread (l : List Phrase) (es : List Event) : Prop :=
  ∀ c ∈ l, ∀ p, .opens :: p <:+: c.events → .opens :: p <:+: es

namespace Spread

variable {l : List Phrase} {es : List Event}

theorem nil : Spread [] es := by simp [Spread]

theorem append {l' : List Phrase} (h : Spread l es) (h' : Spread l' es) : Spread (l ++ l') es :=
  forall_mem_append.2 ⟨h, h'⟩

theorem cons {c : Phrase} (hc : Spread [c] es) (h : Spread l es) : Spread (c :: l) es := hc.append h

theorem left (es' : List Event) (h : Spread l es) : Spread l (es ++ es') :=
  fun c hc p hp => (h c hc p hp).trans (prefix_append es es').isInfix

theorem right (es' : List Event) (h : Spread l es) : Spread l (es' ++ es) :=
  fun c hc p hp => (h c hc p hp).trans (suffix_append es' es).isInfix

theorem inScope (h : Spread l es) : Spread l (inScope es) := (h.right [.opens]).left [.closes]

theorem expr (e : Expr) : Spread [.expr e] e.events := by simp [Spread, Phrase.events]

theorem stmt (s : Stmt) : Spread [.stmt s] s.events := by simp [Spread, Phrase.events]

theorem exprs (es : List Expr) : Spread (es.map .expr) (exprsEvents es) := by
  induction es with
  | nil => exact nil
  | cons e es ih => exact ((expr e).left _).cons (ih.right _)

theorem expr? (e : Option Expr) : Spread (e.toList.map .expr) (expr?Events e) := by
  cases e with
  | none => exact nil
  | some e => exact expr e

theorem stmts (ss : List Stmt) : Spread (ss.map .stmt) (stmtsEvents ss) := by
  induction ss with
  | nil => exact nil
  | cons s ss ih => exact ((stmt s).left _).cons (ih.right _)

theorem stmt? (s : Option Stmt) : Spread (s.toList.map .stmt) (stmt?Events s) := by
  cases s with
  | none => exact nil
  | some s => exact stmt s

/-- The key of a field value opens no scope. -/
theorem elem (e : Expr) : Spread [.expr e] (elemEvents e) := by
  unfold elemEvents
  split
  · simp [Spread, Phrase.events, Expr.events, infix_cons_iff]
  · exact expr _

theorem elems (es : List Expr) : Spread (es.map .expr) (elemsEvents es) := by
  induction es with
  | nil => exact nil
  | cons e es ih =>
    rw [elemsEvents_cons]
    exact ((elem e).left _).cons (ih.right _)

theorem target (defines : Bool) (e : Expr) : Spread [.expr e] (targetEvents defines e) := by
  unfold targetEvents
  split
  · simp [Spread, Phrase.events, Expr.events, infix_cons_iff]
  · exact expr _

theorem targets (defines : Bool) (es : List Expr) :
    Spread (es.map .expr) (targetsEvents defines es) := by
  induction es with
  | nil => exact nil
  | cons e es ih =>
    rw [targetsEvents_cons]
    exact ((target defines e).left _).cons (ih.right _)

theorem target? (defines : Bool) (e : Option Expr) :
    Spread (e.toList.map .expr) (target?Events defines e) := by
  cases e with
  | none => exact nil
  | some e =>
    rw [target?Events_some]
    exact target defines e

theorem fields (kind : ObjKind) (list : List Field) :
    Spread (list.map fun f => .expr f.type) (fieldsEvents kind list) := by
  induction list with
  | nil => exact nil
  | cons f list ih =>
    obtain ⟨names, t, tag⟩ := f
    exact (((expr t).left _).left _).cons (ih.right _)

theorem fieldList (kind : ObjKind) (list : FieldList) :
    Spread list.children (list.events kind) := by
  obtain ⟨_, list, _⟩ := list
  exact fields kind list

theorem fieldList? (list : Option FieldList) :
    Spread (list.toList.flatMap FieldList.children) (fieldList?Events list) := by
  cases list with
  | none => exact nil
  | some list => exact (fieldList .var list).append nil

theorem type (t : FuncType) : Spread t.children t.events := by
  obtain ⟨_, params, results⟩ := t
  exact ((fieldList .var params).left _).append ((fieldList? results).right _)

theorem block (b : Block) : Spread b.children b.events := by
  obtain ⟨_, list, _⟩ := b
  exact (stmts list).inScope

theorem specs (kind : ObjKind) (list : List Spec) :
    Spread (list.flatMap Spec.children) (specsEvents kind list) := by
  induction list with
  | nil => exact nil
  | cons spec list ih =>
    cases spec with
    | value names t values =>
      exact .append (.append ((((expr? t).left _).left _).left _)
        ((((exprs values).right _).left _).left _)) (ih.right _)
    | type name equals t => exact (((expr t).right [_]).left _).append (ih.right _)

theorem ofExpr (e : Expr) : Spread e.children e.events := by
  cases e with
  | funcLit t body =>
    obtain ⟨_, list, _⟩ := body
    exact .append ((type t).left _).inScope ((stmts list).right _).inScope
  | _ =>
    simp only [Expr.children, Expr.events]
    grind [nil, cons, append, left, right, inScope, expr, exprs, expr?, elems, fieldList, type]

theorem ofStmt (s : Stmt) : Spread s.children s.events := by
  cases s with
  | decl d =>
    obtain ⟨_, word, _, list, _⟩ := d
    exact specs word.objKind list
  | ifElse _ init cond body other =>
    exact .inScope (((((stmt? init).left _).left _).left _).append
      (.cons ((((expr cond).right _).left _).left _)
      ((((block body).right _).left _).append ((stmt? other).right _))))
  | range _ key value _ op x body =>
    have htargets :=
      ((target? (op == some .define) key).left _).append
        ((target? (op == some .define) value).right _)
    exact ((htargets.left _).inScope.right _).append
      (.cons ((expr x).left _) (((block body).right _).inScope.right _))
  | switch _ init tag body =>
    obtain ⟨_, list, _⟩ := body
    exact .inScope (((((stmt? init).left _).left _).append (((expr? tag).right _).left _)).append
      ((stmts list).right _))
  | typeSwitch _ init guard body =>
    obtain ⟨_, list, _⟩ := body
    exact .inScope ((((stmt? init).left _).left _).append
      (.cons (((stmt guard).right _).left _) ((stmts list).right _)))
  | select _ body =>
    obtain ⟨_, list, _⟩ := body
    exact stmts list
  | _ =>
    simp only [Stmt.children, Stmt.events]
    grind [nil, cons, append, left, right, inScope, expr, exprs, expr?, stmt, stmts, stmt?, targets,
      block]

theorem definitions (list : List Spec) :
    Spread (list.flatMap Spec.children) (list.flatMap Spec.definitionEvents) := by
  induction list with
  | nil => exact nil
  | cons spec list ih =>
    refine .append (.left _ ?_) (ih.right _)
    cases spec with
    | value names t values => exact ((expr? t).left _).append ((exprs values).right _)
    | type name equals t => exact expr t

theorem body (b : Option Block) :
    Spread (b.toList.flatMap Block.children) (b.toList.flatMap fun b => stmtsEvents b.list) := by
  cases b with
  | none => exact nil
  | some b => exact ((stmts b.list).left _).append nil

theorem func (f : FuncDecl) : Spread f.children f.events := by
  have htype : Spread (f.params.children ++ f.results.toList.flatMap FieldList.children)
      (FuncType.events _) :=
    type ⟨f.funcPos, f.params, f.results⟩
  rw [FuncDecl.children, append_assoc _ f.params.children]
  exact .inScope ((((fieldList? f.recv).left _).left _).append ((htype.right _).left _) |>.append
    ((body f.body).right _))

theorem decls (list : List Decl) :
    Spread (list.flatMap Decl.children) (list.flatMap Decl.events) := by
  induction list with
  | nil => exact nil
  | cons d list ih =>
    refine .append (.left _ ?_) (ih.right _)
    cases d with
    | func f => exact func f
    | gen g => exact definitions g.specs

theorem occurs {n m : Phrase} (h : Occurs n m) {p : List Event} (hp : .opens :: p <:+: n.events) :
    .opens :: p <:+: m.events := by
  induction h with
  | self => exact hp
  | @deeper c m hc _ ih =>
    cases m with
    | expr e => exact ofExpr e c hc p ih
    | stmt s => exact ofStmt s c hc p ih

end Spread

def Expr.fieldLists : Expr → List FieldList
  | .struct _ fields => [fields]
  | .func t | .funcLit t _ => t.params :: t.results.toList
  | _ => []

def FuncDecl.fieldLists (f : FuncDecl) : List FieldList :=
  f.recv.toList ++ f.params :: f.results.toList

/-- The fields are those of a signature or of a struct in the file. -/
def File.HasFields (file : File) (fields : FieldList) : Prop :=
  (∃ f, .func f ∈ file.decls ∧ fields ∈ f.fieldLists) ∨
    ∃ root ∈ file.decls.flatMap Decl.children, ∃ e, Occurs (.expr e) root ∧ fields ∈ e.fieldLists

theorem FuncType.events_infix {t : FuncType} {fields : FieldList}
    (h : fields ∈ t.params :: t.results.toList) :
    fields.events .var <:+: t.events := by
  obtain ⟨_, params, results⟩ := t
  rw [FuncType.events]
  rcases mem_cons.1 h with rfl | h
  · exact (prefix_append _ _).isInfix
  · obtain rfl : results = some fields := by simpa using h
    exact (suffix_append _ _).isInfix

theorem exists_opens {es' : List Event} (h : es <:+: es') :
    ∃ p, .opens :: p ++ es <:+: inScope es' := by
  obtain ⟨before, after, rfl⟩ := h
  exact ⟨before, [], after ++ [.closes], by simp [inScope]⟩

/-- The fields of an expression stand in a scope that it opens. -/
theorem Expr.exists_opens {e : Expr} {fields : FieldList} (h : fields ∈ e.fieldLists) :
    ∃ p, .opens :: p ++ fields.events .var <:+: e.events := by
  cases e with
  | struct _ list =>
    obtain rfl := mem_singleton.1 h
    exact GoFun.exists_opens (infix_refl _)
  | func t => exact GoFun.exists_opens (t.events_infix h)
  | funcLit t body =>
    obtain ⟨_, list, _⟩ := body
    exact GoFun.exists_opens ((t.events_infix h).trans (prefix_append _ _).isInfix)
  | _ => cases h

theorem FuncDecl.exists_opens {f : FuncDecl} {fields : FieldList} (h : fields ∈ f.fieldLists) :
    ∃ p, .opens :: p ++ fields.events .var <:+: f.events := by
  refine GoFun.exists_opens ((List.IsInfix.trans ?_ (prefix_append _ _).isInfix))
  rcases mem_append.1 h with h | h
  · obtain hrecv : f.recv = some fields := by simpa using h
    rw [hrecv, fieldList?Events]
    exact (prefix_append _ _).isInfix
  · exact (FuncType.events_infix h).trans (suffix_append _ _).isInfix

/-- A field list of a file has a place among its events. -/
theorem File.HasFields.exists_place {file : File} {fields : FieldList} (h : file.HasFields fields) :
    ∃ before after, file.events = .opens :: before ++ fields.events .var ++ after := by
  obtain ⟨p, hp⟩ : ∃ p, .opens :: p ++ fields.events .var <:+: file.decls.flatMap Decl.events := by
    rcases h with ⟨f, hf, hfields⟩ | ⟨root, hroot, e, he, hfields⟩
    · obtain ⟨p, hp⟩ := FuncDecl.exists_opens hfields
      exact ⟨p, hp.trans (infix_of_mem_flatten (mem_map_of_mem hf))⟩
    · obtain ⟨p, hp⟩ := Expr.exists_opens hfields
      exact ⟨p, Spread.decls file.decls root hroot _ (Spread.occurs he hp)⟩
  obtain ⟨before, after, hevents⟩ := hp
  refine ⟨file.decls.flatMap Decl.nameEvents ++ before ++ .opens :: p, after ++ [.closes], ?_⟩
  simp [File.events, inScope, ← hevents]

def Field.unnamed (f : Field) : Field := { f with names := [] }

def FieldList.unnamed (fields : FieldList) : FieldList :=
  { fields with list := fields.list.map Field.unnamed }

/-- A name that one of the earlier fields has, and that nothing in the type has declared so far. -/
def Captured (earlier : List Field) (inner : List Event) (name : String) : Prop :=
  (name ≠ "_" ∧ ∃ field ∈ earlier, ∃ id ∈ field.names, id.name = name) ∧ ∀ kind,
    ¬ Declared inner name kind

instance (earlier : List Field) (inner : List Event) (name : String) :
    Decidable (Captured earlier inner name) :=
  decidable_of_iff (_ ∧ latest? name inner = none) (and_congr_right' latest?_eq_none)

theorem Scopes.length_declare (name : String) (kind : ObjKind) (scopes : Scopes) :
    (scopes.declare name kind).length = scopes.length := by
  cases scopes <;> rfl

theorem advance_ne_nil {scopes : Scopes} (h : closed es < scopes.length) :
    advance scopes es ≠ [] := by
  induction es generalizing scopes with
  | nil => exact ne_nil_of_length_pos h
  | cons e es ih =>
    refine ih ?_
    cases e with
    | opens =>
      simp only [closed, Event.apply, length_cons] at h ⊢
      omega
    | closes =>
      simp only [closed, Event.apply, length_tail] at h ⊢
      omega
    | declares name kind =>
      simp only [closed, Event.apply] at h ⊢
      split
      · exact h
      · rwa [Scopes.length_declare]
    | uses id => exact h

theorem length_annotate (scopes : Scopes) (es : List Event) :
    (annotate scopes es).length = es.length := by
  simpa using congrArg List.length (unresolved_annotate scopes es)

theorem fieldsEvents_append (kind : ObjKind) (fields fields' : List Field) :
    fieldsEvents kind (fields ++ fields') = fieldsEvents kind fields ++
      fieldsEvents kind fields' := by
  induction fields with
  | nil => rfl
  | cons f fields ih =>
    obtain ⟨names, t, tag⟩ := f
    simp [fieldsEvents, ih]

def objectAt (es : List Event) (place : Nat) : Option Object := es[place]?.bind Event.obj?

theorem objectAt_annotate (scopes : Scopes) (before after : List Event) (id : Ident) :
    objectAt (annotate scopes (before ++ .uses id :: after)) before.length =
      (Scoping.use id (advance scopes before)).1.obj := by
  rw [objectAt, annotate_append, getElem?_append_right (Nat.le_of_eq (length_annotate ..)),
    length_annotate, Nat.sub_self]
  rfl

theorem Expr.find?_events {t : Expr} {inner : List Event}
    (ht : t.events = inner ++ .uses id :: rest) (hid : id.name ≠ "_") (frame : Frame)
    (outer : Scopes) : Scopes.find? id.name (advance (frame :: outer) inner) =
      (latest? id.name inner).or (Scopes.find? id.name (frame :: outer)) := by
  have hclosed : ∀ es₁ es₂, inner = es₁ ++ es₂ → closed es₁ = 0 := fun es₁ es₂ hi =>
    t.resolve_follows.1.closed_take (es₂ ++ .uses id :: rest) (by rw [ht, hi, append_assoc])
  rw [find?_advance hid fun es₁ es₂ hi => by simp [hclosed es₁ es₂ hi],
    hclosed inner [] (append_nil inner).symm, drop_zero]

/-- A use in the type of a field is looked up in the type itself, then among the fields before it,
and then where the list stands. -/
theorem use_fieldsEvents {t : Expr} {inner : List Event} (ht : t.events = inner ++ .uses id :: rest)
    (frame : Frame) (outer : Scopes) :
    (Scoping.use id (advance (frame :: outer) (fieldsEvents .var earlier ++ inner))).1.obj =
      if Captured earlier inner id.name then some ⟨.var, id.name⟩
      else (Scoping.use id (advance (frame :: outer) inner)).1.obj := by
  rw [Scoping.use_eq, Scoping.use_eq]
  by_cases hblank : id.name = "_"
  · rw [if_pos hblank, if_pos hblank, if_neg fun h => h.1.1 hblank]
  · rw [if_neg hblank, if_neg hblank, advance_append, advance_fieldsEvents,
      Expr.find?_events ht hblank, Expr.find?_events ht hblank, Scopes.find?_cons,
        Scopes.find?_cons, lookup_append, lookup_fields]
    by_cases hc : Captured earlier inner id.name
    · rw [if_pos hc, if_pos hc.1, latest?_eq_none.2 hc.2]
      rfl
    · rw [if_neg hc]
      by_cases hbinds : id.name ≠ "_" ∧ ∃ field ∈ earlier, ∃ n ∈ field.names, n.name = id.name
      · -- the type has a declaration of its own
        obtain ⟨kind, hkind⟩ :=
          Option.ne_none_iff_exists'.1 fun hn => hc ⟨hbinds, latest?_eq_none.1 hn⟩
        rw [hkind]
        rfl
      · rw [if_neg hbinds]
        rfl

theorem advance_unnamed (frame : Frame) (outer : Scopes) (fields : List Field) :
    advance (frame :: outer) (fieldsEvents .var (fields.map Field.unnamed)) = frame :: outer := by
  rw [advance_fieldsEvents]
  simp [flatMap_map, Field.unnamed, declarations]

theorem FieldList.events_split {fields : FieldList} {later : List Field} {field : Field}
    (hlist : fields.list = earlier ++ field :: later) {inner : List Event}
    (htype : field.type.events = inner ++ .uses id :: rest) :
    fields.events .var = fieldsEvents .var earlier ++ inner ++
      .uses id :: (rest ++ declarations .var field.names ++ fieldsEvents .var later) := by
  obtain ⟨opening, list, closing⟩ := fields
  obtain ⟨names, t, tag⟩ := field
  obtain rfl : list = _ := hlist
  rw [FieldList.events, fieldsEvents_append, fieldsEvents, htype]
  simp

theorem objectAt_fieldsEvents {fields : FieldList} {later : List Field} {field : Field}
    (hlist : fields.list = earlier ++ field :: later) {inner : List Event}
    (htype : field.type.events = inner ++ .uses id :: rest) (before after : List Event) :
    objectAt (annotate [] (before ++ fields.events .var ++ after))
      (before ++ fieldsEvents .var earlier ++ inner).length =
      (Scoping.use id (advance (advance [] before) (fieldsEvents .var earlier ++
      inner))).1.obj := by
  have hplace :
      before ++ fields.events .var ++ after = before ++ fieldsEvents .var earlier ++ inner ++
      .uses id :: (rest ++ declarations .var field.names ++ fieldsEvents .var later ++ after) := by
    simp [FieldList.events_split hlist htype]
  rw [hplace, objectAt_annotate, append_assoc before, advance_append]

/-- A scope is open where a name will still be used. -/
theorem File.advance_eq_cons {file : File} {before : List Event}
    (h : file.events = .opens :: before ++ es)
    (hid : .uses id ∈ es) : ∃ frame outer, advance [] (.opens :: before) = frame :: outer := by
  obtain ⟨inner, after, rfl⟩ := append_of_mem hid
  have hbody : file.decls.flatMap Decl.nameEvents ++ file.decls.flatMap Decl.events ++ [.closes] =
      (before ++ inner) ++ .uses id :: after := by
    rw [append_assoc before]
    exact (List.cons.inj h).2
  have hclosed : closed before = 0 :=
    (resolveDecls_follows file.decls).1.closed_before hbody before inner rfl
  have hne : advance [[]] before ≠ [] := advance_ne_nil (by simp [hclosed])
  exact ne_nil_iff_exists_cons.1 hne

/-- Resolution gives a name in the type of a field the object that it has without the names of the
list, unless an earlier field of the list has the name. Then it is that field, whatever the name
means where the list stands. -/
theorem File.object_fieldType {file : File} {fields : FieldList} (h : file.HasFields fields) :
    (∃ before after, file.events = .opens :: before ++ fields.events .var ++ after) ∧
    ∀ before after, file.events = .opens :: before ++ fields.events .var ++ after →
    ∀ earlier field later, fields.list = earlier ++ field :: later →
    ∀ inner id rest, field.type.events = inner ++ .uses id :: rest →
      objectAt file.resolve.events (.opens :: before ++ fieldsEvents .var earlier ++ inner).length =
        if Captured earlier inner id.name then some ⟨.var, id.name⟩
        else objectAt (annotate [] (.opens :: before ++ fields.unnamed.events .var ++ after))
          (.opens :: before ++ fieldsEvents .var (earlier.map Field.unnamed) ++ inner).length := by
  refine ⟨h.exists_place, fun before after hplace earlier field later hlist inner id rest htype =>
    ?_⟩
  have hunnamed : fields.unnamed.list = earlier.map Field.unnamed ++ field.unnamed ::
      later.map Field.unnamed := by
    simp [FieldList.unnamed, hlist]
  have huse : .uses id ∈ fields.events .var ++ after := by
    rw [FieldList.events_split hlist htype]
    simp
  obtain ⟨frame, outer, hopen⟩ := File.advance_eq_cons (hplace.trans (List.append_assoc ..)) huse
  rw [file.resolve_events, hplace, objectAt_fieldsEvents hlist htype,
    objectAt_fieldsEvents hunnamed htype, hopen, advance_append (frame :: outer)
    (fieldsEvents .var (earlier.map Field.unnamed)), advance_unnamed, use_fieldsEvents htype]

/-- A parameter with the name of its type, and another of the same type. -/
def captureText : String := "package p\ntype n int\nfunc f(n n, m n) \x7b\n\x7d\n"

def capturesName (file : File) : Decl → Bool
  | .func f => match f.params.list with
    | [first, second] => match second.type.events with
      | [.uses id] =>
        file.events = .opens :: file.events.tail.take 4 ++ f.params.events .var ++
        file.events.drop 9 ∧
        Captured [first] [] id.name ∧ (fieldsEvents .var [first]).length = 2 ∧
        (file.events.tail.take 4).length = 4 ∧ id.name = "n"
      | _ => false
    | _ => false
  | .gen _ => false

/-- Four events stand between the opening of the package and the parameters. -/
theorem captureText_params :
    ∃ file, ∃ f : FuncDecl, ∃ first second id, Grammar.parse? captureText = some file ∧
    .func f ∈ file.decls ∧ f.params.list = [first, second] ∧ second.type.events = [.uses id] ∧
    file.events = .opens :: file.events.tail.take 4 ++ f.params.events .var ++ file.events.drop 9 ∧
    Captured [first] [] id.name ∧ (fieldsEvents .var [first]).length = 2 ∧
    (file.events.tail.take 4).length = 4 ∧
    id.name = "n" := by
  have h : (Grammar.parse? captureText).any fun file =>
      file.decls.any (capturesName file) := by decide +kernel
  obtain ⟨file, hfile, h⟩ := (Option.any_eq_true _ _).1 h
  obtain ⟨d, hd, h⟩ := any_eq_true.1 h
  cases d with
  | gen g => cases h
  | func f =>
    simp only [capturesName] at h
    split at h
    case h_2 => cases h
    case h_1 first second hlist =>
      split at h
      case h_2 => cases h
      case h_1 id htype => exact ⟨file, f, first, second, id, hfile, hd, hlist, htype,
        of_decide_eq_true h⟩

/-- The type of the second parameter is the first parameter. -/
theorem captured_parameter : ∃ file, ∃ f : FuncDecl, Grammar.parse? captureText = some file ∧
    file.HasFields f.params ∧ objectAt file.resolve.events 7 = some ⟨.var, "n"⟩ := by
  obtain ⟨file, f, first, second, id, hfile, hf, hlist, htype, hplace, hcaptured, hfirst, hbefore,
    hname⟩ :=
    captureText_params
  have hfields : file.HasFields f.params := .inl ⟨f, hf, by simp [FuncDecl.fieldLists]⟩
  have hobject :=
    (File.object_fieldType hfields).2 _ _ hplace [first] second [] hlist [] id [] htype
  rw [if_pos hcaptured, hname] at hobject
  simp only [List.cons_append, List.append_nil, List.length_cons, List.length_append, hfirst,
    hbefore] at hobject
  exact ⟨file, f, hfile, hfields, hobject⟩

def losesName (file : File) : Decl → Bool
  | .func f =>
    file.events = .opens :: file.events.tail.take 4 ++ f.params.events .var ++ file.events.drop 9 ∧
    objectAt file.resolve.events 7 = some ⟨.var, "n"⟩ ∧
    objectAt (annotate [] (.opens :: file.events.tail.take 4 ++ f.params.unnamed.events .var ++
      file.events.drop 9)) 6 = some ⟨.type, "n"⟩
  | .gen _ => false

/-- Without the names of the parameters it is the type of the package. -/
theorem capture_differs :
    ∃ file, ∃ f : FuncDecl, Grammar.parse? captureText = some file ∧ .func f ∈ file.decls ∧
    file.events = .opens :: file.events.tail.take 4 ++ f.params.events .var ++ file.events.drop 9 ∧
    objectAt file.resolve.events 7 = some ⟨.var, "n"⟩ ∧
    objectAt (annotate [] (.opens :: file.events.tail.take 4 ++ f.params.unnamed.events .var ++
      file.events.drop 9)) 6 =
      some ⟨.type, "n"⟩ := by
  have h : (Grammar.parse? captureText).any fun file =>
      file.decls.any (losesName file) := by decide +kernel
  obtain ⟨file, hfile, h⟩ := (Option.any_eq_true _ _).1 h
  obtain ⟨d, hd, h⟩ := List.any_eq_true.1 h
  cases d with
  | gen g => cases h
  | func f => exact ⟨file, f, hfile, hd, of_decide_eq_true h⟩

end GoFun
