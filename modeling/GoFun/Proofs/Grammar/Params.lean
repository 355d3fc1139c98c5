import GoFun.Grammar.Type
import GoFun.Proofs.Fun.Faithful

/-!
# Parameters and their types

The entries of a parameter list are types, or names with types. Once one of them has both, a plain
identifier in front of it is a name too and waits for that type. Grouping loses no entry and takes
none twice, and what waits gets the type of the next entry that has a name.
-/
namespace GoFun

open List

/-- What a field declares: each of its names with the type, or the type alone. -/
def Field.entries (f : Field) : List (Option Ident × Expr) :=
  if f.names.isEmpty then [(none, f.type)] else f.names.map fun name => (some name, f.type)

theorem Field.entries_bare (type : Expr) (tag : Option Literal) :
    Field.entries ⟨[], type, tag⟩ = [(none, type)] := rfl

theorem entries_bareFields {α : Type} (as : List α) (type : α → Expr) :
    (as.map fun a => (⟨[], type a, none⟩ : Field)).flatMap Field.entries =
      as.map fun a => (none, type a) := by
  rw [flatMap_map, map_eq_flatMap]
  rfl

theorem Field.entries_named {names : List Ident} (h : names ≠ []) (type : Expr)
    (tag : Option Literal) :
    Field.entries ⟨names, type, tag⟩ = names.map fun name => (some name, type) :=
  if_neg (by simpa using h)

theorem forall_entries_iff {P : Expr → Prop} {fields : List Field} :
    (∀ entry ∈ fields.flatMap Field.entries, P entry.2) ↔ ∀ field ∈ fields, P field.type := by
  have hfield : ∀ field : Field, (∀ entry ∈ field.entries, P entry.2) ↔ P field.type := by
    rintro ⟨_ | ⟨name, names⟩, type, tag⟩
    · simp [Field.entries_bare]
    · simp +contextual [Field.entries_named]
  simp only [← hfield, mem_flatMap]
  exact ⟨fun h field hf entry he => h entry ⟨field, hf, he⟩, fun h entry ⟨field, hf, he⟩ =>
    h field hf entry he⟩

namespace Grammar

/-- What an entry shows of its own: its name, or its type where it has no name. -/
def label : Option Ident × Expr → Expr
  | (some name, _) => .ident name
  | (none, type) => type

/-- The type of the first entry that has a name. -/
def nextType? (entries : List (Option Ident × Expr)) : Option Expr :=
  entries.findSome? fun entry => entry.1.map fun _ => entry.2

/-- A plain identifier is a name when a type is there for it, and a type otherwise. -/
def given (type? : Option Expr) (name : Ident) : Option Ident × Expr :=
  match type? with
  | some type => (some name, type)
  | none => (none, .ident name)

/-- The entries, each with the type that is meant. -/
def assigned : List (Option Ident × Expr) → List (Option Ident × Expr)
  | [] => []
  | (none, .ident name) :: entries => given (nextType? entries) name :: assigned entries
  | entry :: entries => entry :: assigned entries

def IsNamed (entries : List (Option Ident × Expr)) : Prop :=
  ∃ entry ∈ entries, entry.1.isSome = true

/-- An entry without a name is a plain identifier. -/
def BarePlain (entries : List (Option Ident × Expr)) : Prop :=
  ∀ type, (none, type) ∈ entries → ∃ name, type = .ident name

theorem groupFrom_labels (waiting : List Ident) (entries : List (Option Ident × Expr)) :
    (((groupFrom waiting entries).flatMap Field.entries).map label).Perm
      (waiting.map .ident ++ entries.map label) := by
  fun_induction groupFrom waiting entries with
  | case1 waiting => simp [entries_bareFields, Function.comp_def, label]
  | case2 waiting name type entries ih =>
    have hnames : waiting ++ [name] ≠ [] := by simp
    simp only [flatMap_cons, Field.entries_named hnames, map_append, map_map, map_cons,
      append_assoc]
    exact .append_left _ (.append_left _ ih)
  | case3 waiting name entries ih => simpa [label] using ih
  | case4 waiting type entries _ ih =>
    simp only [flatMap_cons, Field.entries_bare, cons_append, nil_append, map_cons]
    exact (ih.cons _).trans perm_middle.symm

theorem groupFrom_entries (waiting : List Ident) (entries : List (Option Ident × Expr))
    (h : BarePlain entries) :
    (groupFrom waiting entries).flatMap Field.entries = waiting.map (given (nextType? entries)) ++
      assigned entries := by
  fun_induction groupFrom waiting entries with
  | case1 waiting =>
    rw [entries_bareFields, assigned, append_nil]
    rfl
  | case2 waiting name type entries ih =>
    have hnames : waiting ++ [name] ≠ [] := by simp
    rw [flatMap_cons, Field.entries_named hnames, ih fun t ht => h t (.tail _ ht)]
    simp [nextType?, given, assigned]
  | case3 waiting name entries ih =>
    rw [ih fun t ht => h t (.tail _ ht)]
    simp [nextType?, assigned]
  | case4 waiting type entries hne _ =>
    obtain ⟨name, rfl⟩ := h type (.head _)
    exact absurd rfl (hne name)

theorem groupParams_of_isNamed {entries : List (Option Ident × Expr)} (h : IsNamed entries) :
    groupParams entries = groupFrom [] entries := by
  obtain ⟨entry, hmem, hname⟩ := h
  refine if_neg fun hall => ?_
  have := all_eq_true.1 hall entry hmem
  simp_all

theorem groupParams_of_not_isNamed {entries : List (Option Ident × Expr)} (h : ¬ IsNamed entries) :
    groupParams entries = entries.map fun entry => ⟨[], entry.2, none⟩ := by
  refine if_pos (all_eq_true.2 fun entry hmem => ?_)
  rw [Option.isNone_iff_eq_none, ← Option.not_isSome_iff_eq_none]
  exact fun hname => h ⟨entry, hmem, hname⟩

theorem groupParams_labels (entries : List (Option Ident × Expr)) :
    (((groupParams entries).flatMap Field.entries).map label).Perm (entries.map label) := by
  by_cases h : IsNamed entries
  · simpa [groupParams_of_isNamed h] using groupFrom_labels [] entries
  · have hlabel : ∀ entry ∈ entries, label entry = entry.2 := by
      rintro ⟨_ | name, type⟩ hmem
      · rfl
      · exact absurd ⟨_, hmem, rfl⟩ h
    rw [groupParams_of_not_isNamed h, map_congr_left hlabel, entries_bareFields, map_map]
    rfl

end Grammar

namespace Fun

/-- The parameter that an entry with a plain type gives. -/
def param? (entry : Option Ident × GoFun.Expr) : Option Param := do
  let name ← entry.1
  let .ident type := entry.2 | none
  return ⟨name.name, .atomic type.name⟩

theorem param?_entries {field : Field} {type : Ident} (h : field.type = .ident type) :
    field.entries.filterMap param? = field.names.map (⟨·.name, .atomic type.name⟩) := by
  unfold Field.entries
  split
  case isTrue hempty => simp [isEmpty_iff.1 hempty, param?]
  case isFalse => simp [filterMap_map, Function.comp_def, h, param?]

theorem lowerType_eq_ok {e : GoFun.Expr} {type : Ty} :
    lowerType e = .ok type ↔ ∃ id, e = .ident id ∧ type = .atomic id.name := by
  cases e with
  | ident id => simp [lowerType, eq_comm]
  | _ => simp [lowerType, unsupported]

/-- Parameters are lowered when all types are plain, to their names in the order of the fields. -/
theorem lowerParams_eq_ok {fields : List Field} {params : List Param} :
    lowerParams fields = .ok params ↔ (∀ field ∈ fields, ∃ id, field.type = .ident id) ∧
      params = (fields.flatMap Field.entries).filterMap param? := by
  induction fields generalizing params with
  | nil => simp [lowerParams, pure, Except.pure, eq_comm]
  | cons field fields ih =>
    rw [forall_mem_cons, flatMap_cons, filterMap_append]
    constructor
    · intro h
      obtain ⟨type, htype, h⟩ := bind_eq_ok h
      obtain ⟨rest, hrest, h⟩ := bind_eq_ok h
      obtain ⟨hnamed, rfl⟩ := ih.1 hrest
      obtain ⟨id, hid, rfl⟩ := lowerType_eq_ok.1 htype
      rw [param?_entries hid]
      exact ⟨⟨⟨id, hid⟩, hnamed⟩, (Except.ok.inj h).symm⟩
    · rintro ⟨⟨⟨id, hid⟩, hnamed⟩, rfl⟩
      rw [lowerParams, lowerType_eq_ok.2 ⟨id, hid, rfl⟩, ih.2 ⟨hnamed, rfl⟩, param?_entries hid]
      rfl

theorem lowerFunction_params {m : SourceMap} {c : Config} {f : FuncDecl} {fn : Function}
    (h : lowerFunction m c f = .ok fn) : lowerParams f.params.list = .ok fn.params := by
  obtain ⟨params, hparams, h⟩ := bind_eq_ok h
  obtain ⟨results, -, h⟩ := bind_eq_ok h
  cases hbody : f.body with
  | none =>
    rw [hbody] at h
    cases h
  | some body =>
    rw [hbody] at h
    obtain ⟨b, -, h⟩ := bind_eq_ok h
    obtain rfl := Except.ok.inj h
    exact hparams

/-- Objects play no part in the entries that become parameters. -/
theorem param?_entries_move (field : Field) :
    (field.move id).entries.filterMap param? = field.entries.filterMap param? := by
  have hentries : (field.move id).entries = field.entries.map fun entry =>
      (entry.1.map (Ident.move id), entry.2.move id) := by
    obtain ⟨_ | ⟨name, names⟩, type, tag⟩ := field
    · rfl
    · simp [Field.move, Field.entries_named]
  rw [hentries, filterMap_map]
  refine filterMap_congr fun entry _ => ?_
  obtain ⟨_ | name, type⟩ := entry
  · rfl
  · cases type <;> rfl

theorem lowerParams_of_move_eq {fields fields' : List Field}
    (h : fields.map (Field.move id) = fields'.map (Field.move id)) {params : List Param} :
    lowerParams fields = .ok params ↔ lowerParams fields' = .ok params := by
  suffices hmove : ∀ fields : List Field, lowerParams fields = .ok params ↔
      lowerParams (fields.map (Field.move id)) = .ok params by
    rw [hmove fields, hmove fields', h]
  intro fields
  have htype : ∀ field : Field, (∃ x, (field.move id).type = .ident x) ↔ ∃ x,
      field.type = .ident x := by
    rintro ⟨names, type, tag⟩
    cases type <;> simp [Field.move, Expr.move]
  simp only [lowerParams_eq_ok, forall_mem_map, htype, flatMap_map, filterMap_flatMap,
    param?_entries_move]

end Fun

/-- Grouping gives every entry its type: none is lost or taken twice; without a name all are types;
and where a bare entry is an identifier it goes with the next entry that has a name, if there is
one, in the order of the source. A function whose parameters are grouped so, whatever objects they
have got since, is lowered to a function with these parameters. -/
theorem Grammar.groupParams_assigns (entries : List (Option Ident × Expr)) :
    (((groupParams entries).flatMap Field.entries).map label).Perm (entries.map label) ∧
    (¬ IsNamed entries → groupParams entries = entries.map fun entry => ⟨[], entry.2, none⟩) ∧
    (IsNamed entries → BarePlain entries →
      (groupParams entries).flatMap Field.entries = assigned entries ∧
      ∀ f : FuncDecl, f.params.list.map (Field.move id) =
      (groupParams entries).map (Field.move id) →
        (∀ params, Fun.lowerParams f.params.list = .ok params ↔
          (∀ entry ∈ assigned entries, ∃ type, entry.2 = .ident type) ∧
            params = (assigned entries).filterMap Fun.param?) ∧
        ∀ m c fn, Fun.lowerFunction m c f = .ok fn → fn.params =
        (assigned entries).filterMap Fun.param?) := by
  refine ⟨groupParams_labels entries, groupParams_of_not_isNamed, fun hnamed hplain => ?_⟩
  have hentries : (groupParams entries).flatMap Field.entries = assigned entries := by
    rw [groupParams_of_isNamed hnamed, groupFrom_entries [] entries hplain]
    rfl
  refine ⟨hentries, fun f hf => ?_⟩
  have htypes : (∀ field ∈ groupParams entries, ∃ type, field.type = .ident type) ↔
      ∀ entry ∈ assigned entries, ∃ type, entry.2 = .ident type := by
    rw [← hentries]
    exact (forall_entries_iff (P := fun e => ∃ type, e = .ident type)).symm
  have hparams : ∀ params, Fun.lowerParams f.params.list = .ok params ↔
      (∀ entry ∈ assigned entries, ∃ type, entry.2 = .ident type) ∧
        params = (assigned entries).filterMap Fun.param? := fun params => by
    rw [Fun.lowerParams_of_move_eq hf, Fun.lowerParams_eq_ok, htypes, hentries]
  exact ⟨hparams, fun m c fn h => ((hparams _).1 (Fun.lowerFunction_params h)).2⟩

/-- `a, b int, c, d string, T` -/
def mixedEntries : List (Option Ident × Expr) :=
  [(none, .ident ⟨none, "a", none⟩), (some ⟨none, "b", none⟩, .ident ⟨none, "int", none⟩),
    (none, .ident ⟨none, "c", none⟩), (some ⟨none, "d", none⟩, .ident ⟨none, "string", none⟩),
    (none, .ident ⟨none, "T", none⟩)]

def mixedFunction : FuncDecl where
  funcPos := none
  recv := none
  name := ⟨none, "f", none⟩
  params := ⟨none, Grammar.groupParams mixedEntries, none⟩
  results := none
  body := some ⟨none, [], none⟩

theorem mixed_assigns : Grammar.IsNamed mixedEntries ∧ Grammar.BarePlain mixedEntries ∧
    (Grammar.groupParams mixedEntries).flatMap Field.entries = Grammar.assigned mixedEntries ∧
    ∃ fn, Fun.lowerFunction (.ofText "p.go" "") {} mixedFunction = .ok fn ∧
      fn.params = [⟨"a", .atomic "int"⟩, ⟨"b", .atomic "int"⟩, ⟨"c", .atomic "string"⟩,
      ⟨"d", .atomic "string"⟩] := by
  have hnamed : Grammar.IsNamed mixedEntries := ⟨_, .tail _ (.head _), rfl⟩
  have hplain : Grammar.BarePlain mixedEntries := by
    simp [Grammar.BarePlain, mixedEntries]
  obtain ⟨hentries, hlower⟩ := (Grammar.groupParams_assigns mixedEntries).2.2 hnamed hplain
  refine ⟨hnamed, hplain, hentries, _, rfl, ?_⟩
  exact (hlower mixedFunction rfl).2 (.ofText "p.go" "") {} _ rfl

end GoFun
