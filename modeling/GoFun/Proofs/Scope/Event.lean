import GoFun.Scope.Resolve

/-!
# Scope events

Walking a tree in the order of the scope rules gives a list of events: scopes open and close, names
are declared and used. The events before a use decide what it means: a declaration counts while its
scope is open, and the latest one that counts wins.
-/
namespace GoFun

variable {e : Event} {es history : List Event}

inductive Event where
  | opens
  | closes
  | declares (name : String) (kind : ObjKind)
  | uses (id : Ident)
  deriving DecidableEq, Repr

def inScope (events : List Event) : List Event := .opens :: events ++ [.closes]

def declarations (kind : ObjKind) (names : List Ident) : List Event :=
  names.map fun id => .declares id.name kind

mutual

def Expr.events : Expr → List Event
  | .ident id => [.uses id]
  | .lit _ => []
  | .paren _ x _ | .selector x _ | .star _ x | .unary _ _ x | .chan _ _ x => x.events
  | .index x _ y _ | .binary x _ _ y | .map _ x y | .keyValue x _ y => x.events ++ y.events
  | .call f _ args _ _ => f.events ++ exprsEvents args
  | .array _ len elem => expr?Events len ++ elem.events
  | .struct _ fields => inScope (fields.events .var)
  | .composite type _ elems _ => expr?Events type ++ elemsEvents elems
  | .funcLit type ⟨_, list, _⟩ => inScope (type.events ++ stmtsEvents list)
  | .slice x _ low high max _ => x.events ++ expr?Events low ++ expr?Events high ++ expr?Events max
  | .assertion x _ type _ => x.events ++ expr?Events type
  | .ellipsis _ elem => expr?Events elem
  | .func type => inScope type.events
  | .interface _ methods => inScope (methods.events .func)

def exprsEvents : List Expr → List Event
  | [] => []
  | e :: es => e.events ++ exprsEvents es

def expr?Events : Option Expr → List Event
  | none => []
  | some e => e.events

/-- A key that is a plain name belongs to a field and is no use. -/
def elemsEvents : List Expr → List Event
  | [] => []
  | .keyValue (.ident _) _ value :: es => value.events ++ elemsEvents es
  | e :: es => e.events ++ elemsEvents es

/-- Plain names on the left of an assignment that defines are declared. -/
def targetsEvents (defines : Bool) : List Expr → List Event
  | [] => []
  | .ident id :: es => (if defines then .declares id.name .var else .uses id) ::
      targetsEvents defines es
  | e :: es => e.events ++ targetsEvents defines es

def target?Events (defines : Bool) : Option Expr → List Event
  | none => []
  | some (.ident id) => [if defines then .declares id.name .var else .uses id]
  | some e => e.events

def FieldList.events (kind : ObjKind) : FieldList → List Event
  | ⟨_, list, _⟩ => fieldsEvents kind list

def fieldsEvents (kind : ObjKind) : List Field → List Event
  | [] => []
  | ⟨names, type, _⟩ :: fields => type.events ++ declarations kind names ++ fieldsEvents kind fields

def fieldList?Events : Option FieldList → List Event
  | none => []
  | some fields => fields.events .var

def FuncType.events : FuncType → List Event
  | ⟨_, params, results⟩ => params.events .var ++ fieldList?Events results

def Block.events : Block → List Event
  | ⟨_, list, _⟩ => inScope (stmtsEvents list)

/-- A value is declared behind its definition, a type in front of it. -/
def specsEvents (kind : ObjKind) : List Spec → List Event
  | [] => []
  | .value names type values :: specs =>
    expr?Events type ++ exprsEvents values ++ declarations kind names ++ specsEvents kind specs
  | .type name _ type :: specs => .declares name.name kind :: type.events ++ specsEvents kind specs

def Stmt.events : Stmt → List Event
  | .decl ⟨_, word, _, specs, _⟩ => specsEvents word.objKind specs
  | .expr x | .incDec x _ _ | .go _ x | .defer _ x => x.events
  | .assign lhs _ op rhs => exprsEvents rhs ++ targetsEvents (op == .define) lhs
  | .ret _ results => exprsEvents results
  | .jump _ _ _ => []
  | .block b => b.events
  | .ifElse _ init cond body other =>
    inScope (stmt?Events init ++ cond.events ++ body.events ++ stmt?Events other)
  | .forLoop _ init cond post body =>
    inScope (stmt?Events init ++ expr?Events cond ++ stmt?Events post ++ body.events)
  | .range _ key value _ op x body =>
    x.events ++ inScope (target?Events (op == some .define) key ++
      target?Events (op == some .define) value ++ body.events)
  | .labeled _ _ stmt => stmt.events
  | .send chan _ value => chan.events ++ value.events
  | .switch _ init tag ⟨_, list, _⟩ => inScope
      (stmt?Events init ++ expr?Events tag ++ stmtsEvents list)
  | .typeSwitch _ init guard ⟨_, list, _⟩ => inScope
      (stmt?Events init ++ guard.events ++ stmtsEvents list)
  | .select _ ⟨_, list, _⟩ => stmtsEvents list
  | .caseClause _ list _ body => exprsEvents list ++ inScope (stmtsEvents body)
  | .commClause _ comm _ body => inScope (stmt?Events comm ++ stmtsEvents body)

def stmtsEvents : List Stmt → List Event
  | [] => []
  | s :: ss => s.events ++ stmtsEvents ss

def stmt?Events : Option Stmt → List Event
  | none => []
  | some s => s.events

end

/-- The names that a declaration adds to the package. -/
def Spec.nameEvents (kind : ObjKind) : Spec → List Event
  | .value names _ _ => declarations kind names
  | .type name _ _ => [.declares name.name kind]

def Decl.nameEvents : Decl → List Event
  | .func f => if f.recv.isSome then [] else [.declares f.name.name .func]
  | .gen g => g.specs.flatMap (Spec.nameEvents g.word.objKind)

def Spec.definitionEvents : Spec → List Event
  | .value _ t values => expr?Events t ++ exprsEvents values
  | .type _ _ t => t.events

/-- Receiver, parameters, results and body share one scope. -/
def FuncDecl.events (f : FuncDecl) : List Event :=
  inScope (fieldList?Events f.recv ++ FuncType.events ⟨f.funcPos, f.params, f.results⟩ ++
    f.body.toList.flatMap fun b => stmtsEvents b.list)

def Decl.events : Decl → List Event
  | .func f => f.events
  | .gen g => g.specs.flatMap Spec.definitionEvents

/-- All names of the package come first. -/
def File.events (file : File) : List Event :=
  inScope (file.decls.flatMap Decl.nameEvents ++ file.decls.flatMap Decl.events)

/-- How many of the scopes that are open before the events are closed by them. -/
def closed : List Event → Nat
  | [] => 0
  | .opens :: es => closed es - 1
  | .closes :: es => closed es + 1
  | .declares _ _ :: es => closed es
  | .uses _ :: es => closed es

/-- The name has been declared in a scope that is still open. -/
def Declared (history : List Event) (name : String) (kind : ObjKind) : Prop :=
  ∃ before since, history = before ++ .declares name kind :: since ∧ closed since = 0

/-- The kind of the latest declaration of the name in a scope that is still open. -/
def Latest (history : List Event) (name : String) (kind : ObjKind) : Prop :=
  ∃ before since, history = before ++ .declares name kind :: since ∧ closed since = 0 ∧
    ∀ later, ¬ Declared since name later

def latest? (name : String) : List Event → Option ObjKind
  | [] => none
  | .declares n kind :: es => (latest? name es).or
      (if n = name ∧ closed es = 0 then some kind else none)
  | _ :: es => latest? name es

theorem declared_nil (name : String) (kind : ObjKind) : ¬ Declared [] name kind := by
  rintro ⟨before, since, h, -⟩
  simp at h

theorem exists_eq_append_cons {a : Event} {P : List Event → Prop} :
    (∃ before since, e :: es = before ++ a :: since ∧ P since) ↔
      e = a ∧ P es ∨ ∃ before since, es = before ++ a :: since ∧ P since := by
  constructor
  · rintro ⟨before, since, h, hp⟩
    rcases List.cons_eq_append_iff.1 h with ⟨-, h⟩ | ⟨before', -, h⟩
    · obtain ⟨rfl, rfl⟩ := List.cons.inj h
      exact .inl ⟨rfl, hp⟩
    · exact .inr ⟨before', since, h, hp⟩
  · rintro (⟨rfl, hp⟩ | ⟨before, since, rfl, hp⟩)
    · exact ⟨[], es, rfl, hp⟩
    · exact ⟨e :: before, since, rfl, hp⟩

theorem declared_cons {name : String} {kind : ObjKind} :
    Declared (e :: es) name kind ↔ e = .declares name kind ∧ closed es = 0 ∨
    Declared es name kind :=
  exists_eq_append_cons

theorem latest_cons {name : String} {kind : ObjKind} : Latest (e :: es) name kind ↔
      (e = .declares name kind ∧ closed es = 0 ∧ ∀ later, ¬ Declared es name later) ∨
      Latest es name kind :=
  exists_eq_append_cons

theorem latest?_eq_none {name : String} :
    latest? name history = none ↔ ∀ kind, ¬ Declared history name kind := by
  induction history with
  | nil => simp [latest?, declared_nil]
  | cons e es ih =>
    cases e with
    | declares n k =>
      simp only [latest?, Option.or_eq_none_iff, ih, declared_cons, Event.declares.injEq]
      grind
    | opens | closes | uses _ => simp [latest?, ih, declared_cons]

theorem latest?_eq_some {name : String} {kind : ObjKind} :
    latest? name history = some kind ↔ Latest history name kind := by
  induction history with
  | nil =>
    refine ⟨by simp [latest?], ?_⟩
    rintro ⟨before, since, h, -⟩
    simp at h
  | cons e es ih =>
    cases e with
    | declares n k =>
      simp only [latest?, Option.or_eq_some_iff, ih, latest_cons, ← latest?_eq_none,
        Event.declares.injEq]
      grind
    | opens | closes | uses _ => simp [latest?, ih, latest_cons]

end GoFun
