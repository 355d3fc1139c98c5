import GoFun.Outline.Tree
import GoFun.Proofs.Outline.Lines

/-!
# Outlines that look alike

Two outlines are alike under a filter when the same is seen of both. Fields are told apart by their
names, so alike nodes of one kind have alike fields, also where fields are left out.
-/
namespace GoFun

/-- What a filter lets through of a position. -/
def Filter.erase (f : Filter) (p : Pos) : Pos := if f = .compact then none else p

/-- What is seen of an outline under a filter. -/
def Outline.seen (m : SourceMap) (f : Filter) (o : Outline) : Outline := (o.select f).spell m

/-- Whether a value is shown in a field of its role. -/
def Filter.shows (f : Filter) (v : Value) : Bool :=
  f.keeps (if v.isPos then .position else .value) v.isEmpty

/-- Both values are left out, or the same is seen of both. -/
def Value.Alike (m : SourceMap) (f : Filter) (v v' : Value) : Prop :=
  f.shows v = f.shows v' ∧ (f.shows v = true → (v.select f).spell m = (v'.select f).spell m)

/-- The values of two lists of fields are alike one by one. -/
def FieldsAlike (m : SourceMap) (f : Filter) : List Entry → List Entry → Prop
  | [], [] => True
  | e :: es, e' :: es' => e.value.Alike m f e'.value ∧ FieldsAlike m f es es'
  | _, _ => False

def Outline.kind : Outline → String
  | .node kind _ => kind

def Outline.entries : Outline → List Entry
  | .node _ entries => entries

variable {m : SourceMap} {f : Filter}
variable {es es' : List Entry}

theorem Outline.kind_seen (o : Outline) : (o.seen m f).kind = o.kind := by
  obtain ⟨kind, entries⟩ := o
  simp only [Outline.seen, Outline.select, Outline.spell, Outline.kind]

theorem Filter.keeps_eq_shows {role : Entry.Role} {v : Value}
    (h : role = .position ↔ v.isPos = true) :
    f.keeps role v.isEmpty = f.shows v := by
  cases f with
  | all | notEmpty => rfl
  | compact =>
    rw [Bool.eq_iff_iff]
    cases hv : v.isPos <;> simp [Filter.shows, Filter.keeps, h, hv]

theorem name_mem_of_mem_spellEntries {e : Entry} (h : e ∈ spellEntries m (selectEntries f es)) :
    e.name ∈ es.map Entry.name := by
  induction es with
  | nil => simp [selectEntries, spellEntries] at h
  | cons a es ih =>
    obtain ⟨name, role, v⟩ := a
    rw [selectEntries] at h
    split at h
    · rw [spellEntries] at h
      rcases List.mem_cons.1 h with rfl | h
      · simp
      · simp [ih h]
    · simp [ih h]

theorem fieldsAlike_of_spell_eq (he : PlainEntries es) (he' : PlainEntries es')
    (hn : es.map Entry.name = es'.map Entry.name) (hd : (es.map Entry.name).Nodup)
    (h : spellEntries m (selectEntries f es) = spellEntries m (selectEntries f es')) :
    FieldsAlike m f es es' := by
  induction es generalizing es' with
  | nil =>
    obtain rfl : es' = [] := by simpa using hn.symm
    trivial
  | cons a es ih =>
    cases es' with
    | nil => simp at hn
    | cons a' es' =>
      obtain ⟨name, role, v⟩ := a
      obtain ⟨name', role', v'⟩ := a'
      rw [PlainEntries] at he he'
      simp only [List.map_cons, List.cons.injEq] at hn
      obtain ⟨rfl, hn⟩ := hn
      simp only [List.map_cons, List.nodup_cons] at hd
      rw [selectEntries, selectEntries, Filter.keeps_eq_shows he.2.1,
        Filter.keeps_eq_shows he'.2.1] at h
      -- a field that only one side shows would have to be one of the later fields of the other side
      cases hk : f.shows v <;> cases hk' : f.shows v'
        <;> simp only [hk, hk', if_true, spellEntries] at h
      case false.false => exact ⟨⟨hk.trans hk'.symm, by simp [hk]⟩, ih he.2.2.2 he'.2.2.2 hn hd.2 h⟩
      case false.true => exact absurd (name_mem_of_mem_spellEntries (h ▸ List.mem_cons_self)) hd.1
      case true.false => exact absurd (name_mem_of_mem_spellEntries (h ▸ List.mem_cons_self)) (hn ▸ hd.1)
      case true.true =>
        simp only [List.cons.injEq, Entry.mk.injEq, true_and] at h
        exact ⟨⟨hk.trans hk'.symm, fun _ => h.1⟩, ih he.2.2.2 he'.2.2.2 hn hd.2 h.2⟩

theorem Outline.fieldsAlike {kind : String}
    (h : (Outline.node kind es).seen m f = (Outline.node kind es').seen m f)
    (ho : (Outline.node kind es).IsPlain) (ho' : (Outline.node kind es').IsPlain)
    (hn : es.map Entry.name = es'.map Entry.name) (hd : (es.map Entry.name).Nodup) :
    FieldsAlike m f es es' := by
  simp only [Outline.seen, Outline.select, Outline.spell, Outline.node.injEq, true_and] at h
  rw [Outline.IsPlain] at ho ho'
  exact fieldsAlike_of_spell_eq ho.2 ho'.2 hn hd h

theorem spellNodes_selectNodes (os : List Outline) :
    spellNodes m (selectNodes f os) = os.map (Outline.seen m f) := by
  induction os with
  | nil => simp [selectNodes, spellNodes]
  | cons o os ih => simp [selectNodes, spellNodes, ih, Outline.seen]

namespace Value.Alike

variable {s t : String} {o : Outline} {v : Value}

theorem pos (hb : m.Built) {p q : Pos} (h : (Value.pos p).Alike m f (.pos q)) :
    f.erase p = f.erase q := by
  cases f with
  | compact => rfl
  | all | notEmpty =>
    have hs := h.2 rfl
    simp only [Value.select, Value.spell, Value.token.injEq] at hs
    exact congrArg _ (hb.text_inj hs)

theorem text (h : (Value.text s).Alike m f (.text t)) : s = t := by
  have hs := h.2 (by cases f <;> rfl)
  simp only [Value.select, Value.spell, Value.token.injEq] at hs
  exact Text.quoteString_inj hs

theorem token (h : (Value.token s).Alike m f (.token t)) : s = t := by
  have hs := h.2 (by cases f <;> rfl)
  simpa only [Value.select, Value.spell, Value.token.injEq] using hs

theorem node {o' : Outline} (h : (Value.node o).Alike m f (.node o')) :
    o.seen m f = o'.seen m f := by
  have hs := h.2 (by cases f <;> rfl)
  simp only [Value.select, Value.spell, Value.node.injEq] at hs
  exact hs

theorem nodes {os os' : List Outline} (h : (Value.nodes os).Alike m f (.nodes os')) :
    os.map (Outline.seen m f) = os'.map (Outline.seen m f) := by
  by_cases hk : f.shows (.nodes os) = true
  · have hs := h.2 hk
    simpa only [Value.select, Value.spell, Value.nodes.injEq, spellNodes_selectNodes] using hs
  · -- only empty lists are left out
    have hempty : ∀ os : List Outline, f.shows (.nodes os) ≠ true → os = [] := by
      cases f <;> simp [Filter.shows, Filter.keeps, Value.isEmpty, Value.isPos]
    rw [hempty os hk, hempty os' (h.1 ▸ hk)]

theorem symm {v' : Value} (h : v.Alike m f v') : v'.Alike m f v :=
  ⟨h.1.symm, fun hk => (h.2 (h.1 ▸ hk)).symm⟩

/-- A missing value is like no value that is always shown, unless that is shown as `nil` too. -/
theorem ne_absent (he : v.isEmpty = false) (hp : v.isPos = false)
    (hs : (v.select f).spell m ≠ .token "nil") :
    ¬ v.Alike m f .absent := by
  intro h
  have hk : f.shows v = true := by cases f <;> simp [Filter.shows, Filter.keeps, he, hp]
  refine hs ((h.2 hk).trans ?_)
  simp only [Value.select, Value.spell]

theorem node_ne_absent : ¬ (Value.node o).Alike m f .absent :=
  ne_absent rfl rfl (by simp [Value.select, Value.spell])

theorem ofOption {o o' : Option Outline} (h : (Value.ofOption o).Alike m f (.ofOption o')) :
    o.map (Outline.seen m f) = o'.map (Outline.seen m f) := by
  cases o <;> cases o'
  case none.none => rfl
  case none.some => exact absurd h.symm node_ne_absent
  case some.none => exact absurd h node_ne_absent
  case some.some => exact congrArg some h.node

theorem assignOp? {op op' : Option AssignOp}
    (h : ((op.map fun o => Value.token o.symbol).getD .absent).Alike m f
      ((op'.map fun o => Value.token o.symbol).getD .absent)) :
      op.map AssignOp.symbol = op'.map AssignOp.symbol := by
  have hop : ∀ op : AssignOp, ¬ (Value.token op.symbol).Alike m f .absent := fun op =>
    ne_absent rfl rfl (by cases op <;> simp [Value.select, Value.spell, AssignOp.symbol])
  cases op <;> cases op'
  case none.none => rfl
  case none.some op' => exact absurd h.symm (hop op')
  case some.none op => exact absurd h (hop op)
  case some.some => exact congrArg some h.token

end Value.Alike

end GoFun
