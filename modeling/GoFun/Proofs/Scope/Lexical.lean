import GoFun.Grammar.File
import GoFun.Proofs.Scope.Follow

/-!
# Lexical scoping

Every use is looked up in the stack of scopes at its own place, and the stack at that place holds
what the events before it say. So a name that is used means its latest declaration in a scope that
is still open.
-/
namespace GoFun

open List

variable {es before : List Event} {id : Ident}

theorem Scopes.find?_cons (name : String) (frame : Frame) (outer : Scopes) :
    Scopes.find? name (frame :: outer) = (frame.lookup name).or (Scopes.find? name outer) := by
  simp only [Scopes.find?, findSome?_cons]
  cases frame.lookup name <;> rfl

theorem find?_drop_declare (name n : String) (kind : ObjKind) (frame : Frame) (outer : Scopes)
    (k : Nat) :
    Scopes.find? name ((Scopes.declare n kind (frame :: outer)).drop k) =
      if n = name ∧ k = 0 then some kind else Scopes.find? name ((frame :: outer).drop k) := by
  cases k with
  | zero =>
    by_cases h : n = name
    · simp [Scopes.declare, Scopes.find?_cons, h]
    · have h' : (name == n) = false := by simpa using fun he => h he.symm
      simp [Scopes.declare, Scopes.find?_cons, lookup_cons, h, h']
  | succ k => simp [Scopes.declare]

/-- After events that never close the outermost scope, a name means its latest declaration by them,
or else what it meant before in the scopes that they leave open. -/
theorem find?_advance {name : String} (hname : name ≠ "_") {scopes : Scopes}
    (hopen : ∀ es₁ es₂, es = es₁ ++ es₂ → closed es₁ < scopes.length) :
    Scopes.find? name (advance scopes es) =
      (latest? name es).or (Scopes.find? name (scopes.drop (closed es))) := by
  induction es generalizing scopes with
  | nil => simp [advance, latest?, closed]
  | cons e es ih =>
    have hcons : ∀ es₁ es₂, es = es₁ ++ es₂ → closed (e :: es₁) < scopes.length :=
      fun es₁ es₂ h => hopen (e :: es₁) es₂ (by simp [h])
    cases e with
    | opens =>
      have hlen : ∀ es₁ es₂, es = es₁ ++ es₂ → closed es₁ < ([] :: scopes : Scopes).length := by
        intro es₁ es₂ h
        have := hcons es₁ es₂ h
        simp only [closed] at this
        simp only [length_cons]
        omega
      simp only [advance, Event.apply, latest?, closed, ih hlen]
      cases closed es <;> simp [Scopes.find?_cons]
    | closes =>
      have hlen : ∀ es₁ es₂, es = es₁ ++ es₂ → closed es₁ < scopes.tail.length := by
        intro es₁ es₂ h
        have := hcons es₁ es₂ h
        simp only [closed] at this
        simp only [length_tail]
        omega
      simp only [advance, Event.apply, latest?, closed, ih hlen, drop_tail]
    | uses id => exact ih hcons
    | declares n kind =>
      obtain ⟨frame, outer, rfl⟩ := exists_cons_of_length_pos (hopen [] _ rfl)
      simp only [advance, Event.apply, latest?, closed]
      split
      · next hn =>
        have hne : n ≠ name := fun h => hname (h ▸ hn)
        simp [ih hcons, hne]
      · have hlen : ∀ es₁ es₂, es = es₁ ++ es₂ →
            closed es₁ < (Scopes.declare n kind (frame :: outer)).length := hcons
        rw [ih hlen, find?_drop_declare, Option.or_assoc]
        split <;> simp

namespace Balanced

theorem closed_append (h : Balanced es) (es' : List Event) : closed (es ++ es') = closed es' := by
  induction h generalizing es' with
  | nil => rfl
  | declares _ ih => exact ih es'
  | uses _ ih => exact ih es'
  | @scope inner rest _ _ ih ih' =>
    have hi := ih (.closes :: (rest ++ es'))
    simp [closed, hi, ih']

/-- Balanced events close no scope that was open before, at no point. -/
theorem closed_take {es₁ : List Event} (h : Balanced es) (es₂ : List Event) (hs : es = es₁ ++ es₂) :
    closed es₁ = 0 := by
  induction h generalizing es₁ es₂ with
  | nil =>
    obtain ⟨rfl, -⟩ := append_eq_nil_iff.1 hs.symm
    rfl
  | declares _ ih =>
    rcases cons_eq_append_iff.1 hs with ⟨rfl, -⟩ | ⟨t, rfl, ht⟩
    · rfl
    · simp [closed, ih _ ht]
  | uses _ ih =>
    rcases cons_eq_append_iff.1 hs with ⟨rfl, -⟩ | ⟨t, rfl, ht⟩
    · rfl
    · simp [closed, ih _ ht]
  | @scope inner rest hin _ ih ih' =>
    rcases cons_eq_append_iff.1 hs with ⟨rfl, -⟩ | ⟨t, rfl, ht⟩
    · rfl
    · rcases append_eq_append_iff.1 ht with ⟨u, rfl, hu⟩ | ⟨u, hu, -⟩
      · rcases cons_eq_append_iff.1 hu with ⟨rfl, -⟩ | ⟨v, rfl, hv⟩
        · simp [closed, ih _ (append_nil inner).symm]
        · have hc := hin.closed_append (.closes :: v)
          simp [closed, hc, ih' _ hv]
      · simp [closed, ih _ hu]

end Balanced

/-- The event without the object of a use. -/
def Event.unresolved : Event → Event
  | uses id => uses { id with obj := none }
  | e => e

theorem Event.unresolved_resolve (scopes : Scopes) (e : Event) :
    (e.resolve scopes).unresolved = e.unresolved := by
  cases e with
  | uses id =>
    simp only [Event.resolve, Event.unresolved, Scoping.use_eq]
    split <;> rfl
  | _ => rfl

theorem unresolved_annotate (scopes : Scopes) (es : List Event) :
    (annotate scopes es).map Event.unresolved = es.map Event.unresolved := by
  induction es generalizing scopes with
  | nil => rfl
  | cons e es ih => simp [annotate, Event.unresolved_resolve, ih]

theorem closed_annotate (scopes : Scopes) (es : List Event) :
    closed (annotate scopes es) = closed es := by
  induction es generalizing scopes with
  | nil => rfl
  | cons e es ih => cases e <;> simp [annotate, Event.resolve, closed, ih]

theorem latest?_annotate (name : String) (scopes : Scopes) (es : List Event) :
    latest? name (annotate scopes es) = latest? name es := by
  induction es generalizing scopes with
  | nil => rfl
  | cons e es ih => cases e <;> simp [annotate, Event.resolve, latest?, ih, closed_annotate]

/-- What stands somewhere in annotated events stood there before, and was looked up in the scopes
there. -/
theorem annotate_eq_append_cons {scopes : Scopes} {after : List Event} {e : Event}
    (h : annotate scopes es = before ++ e :: after) :
    ∃ before₀ e₀ after₀, es = before₀ ++ e₀ :: after₀ ∧ before = annotate scopes before₀ ∧
      e = e₀.resolve (advance scopes before₀) := by
  induction before generalizing scopes es with
  | nil =>
    cases es with
    | nil => simp [annotate] at h
    | cons e₀ es =>
      obtain ⟨rfl, -⟩ := List.cons.inj h
      exact ⟨[], e₀, es, rfl, rfl, rfl⟩
  | cons b before ih =>
    cases es with
    | nil => simp [annotate] at h
    | cons b₀ es =>
      obtain ⟨rfl, ht⟩ := List.cons.inj h
      obtain ⟨before₀, e₀, after₀, rfl, rfl, rfl⟩ := ih ht
      exact ⟨b₀ :: before₀, e₀, after₀, rfl, rfl, rfl⟩

/-- At a use in balanced events nothing has been closed that was open before. -/
theorem Balanced.closed_before {body inner after : List Event} (hb : Balanced body)
    (h : body ++ [.closes] = inner ++ .uses id :: after) (es₁ es₂ : List Event)
    (hi : inner = es₁ ++ es₂) :
    closed es₁ = 0 := by
  rcases append_eq_append_iff.1 h with ⟨u, hu, hr⟩ | ⟨u, hu, -⟩
  · cases u with
    | nil => exact hb.closed_take es₂ (by rw [← hi, hu, append_nil])
    | cons e u => simp at hr
  · exact hb.closed_take (es₂ ++ u) (by rw [hu, hi, append_assoc])

/-- In one balanced scope, the open scopes at a use hold the latest declarations. -/
theorem find?_advance_inScope {body after : List Event} (hb : Balanced body)
    (h : inScope body = before ++ .uses id :: after) (hid : id.name ≠ "_") :
    Scopes.find? id.name (advance [] before) = latest? id.name before := by
  rcases cons_eq_append_iff.1 h with ⟨-, h'⟩ | ⟨inner, rfl, h'⟩
  · simp at h'
  · have hclosed := hb.closed_before h'
    have hopen : ∀ es₁ es₂, inner = es₁ ++ es₂ → closed es₁ < ([[]] : Scopes).length := by
      intro es₁ es₂ hi
      simp [hclosed es₁ es₂ hi]
    simp only [advance, Event.apply, latest?]
    rw [find?_advance hid hopen, hclosed inner [] (append_nil inner).symm]
    simp [Scopes.find?]

/-- The object that is set before anything is resolved. -/
def Event.obj? : Event → Option Object
  | uses id => id.obj
  | _ => none

theorem File.obj_eq_latest? {file : File} (hobj : ∀ e ∈ file.events, e.obj? = none)
    {after : List Event} (h : file.resolve.events = before ++ .uses id :: after) :
    id.obj = if id.name = "_" then none else (latest? id.name before).map fun kind =>
      ⟨kind, id.name⟩ := by
  rw [file.resolve_events] at h
  obtain ⟨before₀, e₀, after₀, hsplit, rfl, he⟩ := annotate_eq_append_cons h
  cases e₀ with
  | uses id₀ =>
    have hnone : id₀.obj = none := hobj (.uses id₀) (by simp [hsplit])
    obtain rfl := Event.uses.inj he
    rw [Scoping.use_eq, latest?_annotate]
    by_cases hblank : id₀.name = "_"
    · simp [hblank, hnone]
    · have hfind := find?_advance_inScope (resolveDecls_follows file.decls).1 hsplit hblank
      simp [hblank, hnone, hfind]
  | opens | closes | declares _ _ => simp [Event.resolve] at he

/-- Resolution is lexical scoping: it changes nothing in the events but the objects of uses. A name
that is used gets an object exactly when it is no low line and has been declared in a scope that is
still open. The object has the kind of the latest such declaration, and the name. -/
theorem File.resolve_lexical {file : File} (hobj : ∀ e ∈ file.events, e.obj? = none) :
    file.resolve.events.map Event.unresolved = file.events.map Event.unresolved ∧
    ∀ before id after, file.resolve.events = before ++ .uses id :: after →
      (id.obj.isSome ↔ id.name ≠ "_" ∧ ∃ kind, Declared before id.name kind) ∧
      ∀ o ∈ id.obj, o.name = id.name ∧ Latest before id.name o.kind := by
  refine ⟨by rw [file.resolve_events, unresolved_annotate], fun before id after h => ?_⟩
  rw [File.obj_eq_latest? hobj h]
  by_cases hblank : id.name = "_"
  · simp [hblank]
  · rw [if_neg hblank]
    cases hl : latest? id.name before with
    | none => simp [latest?_eq_none.1 hl]
    | some kind =>
      obtain ⟨bef, since, hsplit, hopen, hlater⟩ := latest?_eq_some.1 hl
      refine ⟨by simpa [hblank] using ⟨kind, bef, since, hsplit, hopen⟩, ?_⟩
      simpa using ⟨bef, since, hsplit, hopen, hlater⟩

/-- A type, a variable in a function and a constant in a block, all of one name. -/
def shadowingText : String :=
  "package p\ntype x int\nfunc f() x \x7b\nx := x(1)\n\x7b\nconst x = 2\n\x7d\nreturn x\n\x7d\n"

theorem shadowing_lexical : ∃ file, Grammar.parse? shadowingText = some file ∧
    (∀ e ∈ file.events, e.obj? = none) ∧
    file.resolve.events.map Event.unresolved = file.events.map Event.unresolved ∧
    ∀ before id after, file.resolve.events = before ++ .uses id :: after →
      (id.obj.isSome ↔ id.name ≠ "_" ∧ ∃ kind, Declared before id.name kind) ∧
      ∀ o ∈ id.obj, o.name = id.name ∧ Latest before id.name o.kind := by
  have h : (Grammar.parse? shadowingText).any fun file =>
      decide (∀ e ∈ file.events, e.obj? = none) := by
    decide +kernel
  obtain ⟨file, hf, h⟩ := (Option.any_eq_true _ _).1 h
  have hobj := of_decide_eq_true h
  exact ⟨file, hf, hobj, File.resolve_lexical hobj⟩

end GoFun
