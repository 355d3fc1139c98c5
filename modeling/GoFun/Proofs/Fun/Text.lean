import GoFun.Proofs.Fun.Layout
import GoFun.Proofs.Number.ReadBack

/-!
# The text of a module determines the module

Every text inside a module is quoted, so that nothing in it looks like the layout around it. The
texts of numbers are read back as these numbers.
-/
namespace GoFun.Fun

open Number (Double)

mutual

def Expr.hasNaN : Expr → Bool
  | .double value => value.isNaN
  | .binary x _ y => x.hasNaN || y.hasNaN
  | .application _ args => anyNaN args
  | .results values => anyNaN values
  | .var _ | .funcName _ | .int _ | .string _ | .char _ => false

def anyNaN : List Expr → Bool
  | [] => false
  | e :: es => e.hasNaN || anyNaN es

end

def Body.hasNaN : Body → Bool
  | .single e => e.hasNaN
  | .inline _ => false

def Module.hasNaN (m : Module) : Bool := m.functions.any (·.body.hasNaN)

theorem Doc.IsPlain.atom {text : String} (hline : '\n' ∉ text.toList) (hopen : '[' ∉ text.toList) :
    (Doc.atom text).IsPlain := by
  rw [Doc.IsPlain]
  exact ⟨hline, by rintro rfl; exact hopen (by decide)⟩

theorem Doc.isPlain_string (s : String) : (Doc.string s).IsPlain := by
  rw [Doc.string, Doc.IsPlain]
  exact ⟨Text.newline_notMem_quoteString s, fun h => by simpa [Text.quoteString] using congrArg String.toList h⟩

theorem Doc.isPlain_char (c : Char) : (Doc.atom (Text.quoteChar c)).IsPlain := by
  rw [Doc.IsPlain]
  exact ⟨Text.newline_notMem_quoteChar c, fun h => by simpa [Text.quoteChar] using congrArg String.toList h⟩

theorem plainItems_map {α : Type} {f : α → Doc} (h : ∀ x, (f x).IsPlain) (xs : List α) :
    PlainItems (xs.map f) := by
  induction xs with
  | nil => simp [PlainItems]
  | cons x xs ih => exact ⟨h x, ih⟩

section Plain

attribute [local simp] Doc.IsPlain PlainFields PlainItems Doc.isPlain_string Doc.isPlain_char
  plainItems_map

theorem Doc.isPlain_int (n : Int) : (Doc.atom (toString n)).IsPlain :=
  .atom (Double.notMem_toString (by decide) (by decide) n)
    (Double.notMem_toString (by decide) (by decide) n)

theorem Doc.isPlain_double (d : Double) : (Doc.atom d.text).IsPlain :=
  .atom (Double.notMem_text (by decide) (by decide) d)
    (Double.notMem_text (by decide) (by decide) d)

mutual

theorem Expr.isPlain_doc : ∀ e : Expr, e.doc.IsPlain
  | .var _ | .funcName _ | .string _ => by simp [Expr.doc]
  | .char c => by simpa [Expr.doc] using Doc.isPlain_char c
  | .int n => by simpa [Expr.doc] using Doc.isPlain_int n.toInt
  | .double d => by simpa [Expr.doc] using Doc.isPlain_double d
  | .binary x op y => by simp [Expr.doc, x.isPlain_doc, y.isPlain_doc]
  | .application name args => by simp [Expr.doc, plainItems_exprDocs args]
  | .results values => by simp [Expr.doc, plainItems_exprDocs values]

theorem plainItems_exprDocs : ∀ es : List Expr, PlainItems (exprDocs es)
  | [] => by simp [exprDocs]
  | e :: es => ⟨e.isPlain_doc, plainItems_exprDocs es⟩

end

theorem Function.isPlain_doc (f : Function) : f.doc.IsPlain := by
  have hparam : ∀ p : Param, p.doc.IsPlain := fun p => by simp [Param.doc, Ty.doc]
  have hresult : ∀ t : Ty, t.doc.IsPlain := fun t => by simp [Ty.doc]
  have hbody : f.body.doc.IsPlain := by cases f.body <;> simp [Body.doc, Expr.isPlain_doc]
  simp [Function.doc, hparam, hresult, hbody]

theorem Module.isPlain_doc (m : Module) : m.doc.IsPlain := by
  have himports :=
    plainItems_map (f := fun path => .record "Import" [("path", .string path)]) (by simp) m.imports
  have hfunctions := plainItems_map (f := fun f : Function => .apply "FuncDecl" [f.doc])
    (by simp [Function.isPlain_doc]) m.functions
  simp [Module.doc, himports, hfunctions]

end Plain

theorem toString_int_inj {a b : Int} (h : toString a = toString b) : a = b := by
  have hread := Number.readExponent_toString a
  rw [h, Number.readExponent_toString] at hread
  exact (Option.some.inj hread).symm

theorem eq_of_map_eq {α β : Type} {f : α → β} {p : α → Prop}
    (hf : ∀ {x y}, p x → p y → f x = f y → x = y) {xs ys : List α}
    (hxs : ∀ x ∈ xs, p x) (hys : ∀ y ∈ ys, p y) (h : xs.map f = ys.map f) : xs = ys := by
  induction xs generalizing ys with
  | nil => simpa using h.symm
  | cons x xs ih =>
    cases ys with
    | nil => simp at h
    | cons y ys =>
      rw [List.forall_mem_cons] at hxs hys
      obtain ⟨hhead, htail⟩ := List.cons.inj h
      rw [hf hxs.1 hys.1 hhead, ih hxs.2 hys.2 htail]

theorem Doc.string_inj {s s' : String} (h : Doc.string s = Doc.string s') : s = s' :=
  Text.quoteString_inj (Doc.atom.inj h)

mutual

theorem Expr.doc_inj :
    ∀ {e e' : Expr}, e.hasNaN = false → e'.hasNaN = false → e.doc = e'.doc → e = e'
  | .var name, e', _, _, h => by
    cases e' <;> simp [Expr.doc] at h
    rw [Doc.string_inj h]
  | .funcName name, e', _, _, h => by
    cases e' <;> simp [Expr.doc] at h
    rw [Doc.string_inj h]
  | .string value, e', _, _, h => by
    cases e' <;> simp [Expr.doc] at h
    rw [Doc.string_inj h]
  | .char value, e', _, _, h => by
    cases e' <;> simp [Expr.doc] at h
    rw [Text.quoteChar_inj h]
  | .int value, e', _, _, h => by
    cases e' <;> simp [Expr.doc, -Int.toString_eq_repr] at h
    rw [Int64.toInt_inj.1 (toString_int_inj h)]
  | .double value, e', hnan, hnan', h => by
    cases e' <;> simp [Expr.doc] at h
    rw [Double.text_inj hnan hnan' h]
  | .binary x op y, e', hnan, hnan', h => by
    cases e' <;> simp [Expr.doc] at h
    simp only [Expr.hasNaN, Bool.or_eq_false_iff] at hnan hnan'
    rw [Expr.doc_inj hnan.1 hnan'.1 h.1, Doc.string_inj h.2.1, Expr.doc_inj hnan.2 hnan'.2 h.2.2]
  | .application name args, e', hnan, hnan', h => by
    cases e' <;> simp [Expr.doc] at h
    rw [Doc.string_inj h.1, exprDocs_inj hnan hnan' h.2]
  | .results values, e', hnan, hnan', h => by
    cases e' <;> simp [Expr.doc] at h
    rw [exprDocs_inj hnan hnan' h]

theorem exprDocs_inj :
    ∀ {es es' : List Expr}, anyNaN es = false → anyNaN es' = false → exprDocs es = exprDocs es' →
    es = es'
  | [], [], _, _, _ => rfl
  | [], e' :: es', _, _, h => by simp [exprDocs] at h
  | e :: es, [], _, _, h => by simp [exprDocs] at h
  | e :: es, e' :: es', hnan, hnan', h => by
    simp only [anyNaN, Bool.or_eq_false_iff] at hnan hnan'
    obtain ⟨hhead, htail⟩ := List.cons.inj h
    rw [Expr.doc_inj hnan.1 hnan'.1 hhead, exprDocs_inj hnan.2 hnan'.2 htail]

end

theorem Ty.doc_inj {t t' : Ty} (h : t.doc = t'.doc) : t = t' := by
  obtain ⟨name⟩ := t
  obtain ⟨name'⟩ := t'
  simp only [Ty.doc, Doc.apply.injEq, List.cons.injEq, and_true, true_and] at h
  rw [Doc.string_inj h]

theorem Param.doc_inj {p p' : Param} (h : p.doc = p'.doc) : p = p' := by
  obtain ⟨name, type⟩ := p
  obtain ⟨name', type'⟩ := p'
  simp only [Param.doc, Doc.record.injEq, List.cons.injEq, Prod.mk.injEq, and_true, true_and] at h
  rw [Doc.string_inj h.1, Ty.doc_inj h.2]

theorem Body.doc_inj {b b' : Body} (hb : b.hasNaN = false) (hb' : b'.hasNaN = false)
    (h : b.doc = b'.doc) : b = b' := by
  cases b <;> cases b' <;> simp [Body.doc] at h
  case single.single e e' => rw [Expr.doc_inj hb hb' h]
  case inline.inline stmts stmts' => rw [(List.map_inj_right fun _ _ => Doc.string_inj).1 h]

theorem Function.doc_inj {f f' : Function} (hf : f.body.hasNaN = false)
    (hf' : f'.body.hasNaN = false) (h : f.doc = f'.doc) : f = f' := by
  obtain ⟨name, params, results, body⟩ := f
  obtain ⟨name', params', results', body'⟩ := f'
  simp only [Function.doc, Doc.record.injEq, Doc.list.injEq, List.cons.injEq, Prod.mk.injEq,
    and_true, true_and] at h
  obtain ⟨hname, hparams, hresults, hbody⟩ := h
  have hbody : body = body' := Body.doc_inj hf hf' hbody
  rw [Doc.string_inj hname, (List.map_inj_right fun _ _ => Param.doc_inj).1 hparams,
    (List.map_inj_right fun _ _ => Ty.doc_inj).1 hresults, hbody]

theorem Module.doc_inj {m m' : Module} (hm : m.hasNaN = false) (hm' : m'.hasNaN = false)
    (h : m.doc = m'.doc) : m = m' := by
  obtain ⟨name, imports, functions⟩ := m
  obtain ⟨name', imports', functions'⟩ := m'
  simp only [Module.doc, Doc.record.injEq, Doc.list.injEq, List.cons.injEq, Prod.mk.injEq, and_true,
    true_and] at h
  obtain ⟨hname, himports, hfunctions⟩ := h
  simp only [Module.hasNaN, List.any_eq_false, Bool.not_eq_true] at hm hm'
  have himports := (List.map_inj_right fun s s' h => Doc.string_inj (by simpa using h)).1 himports
  have hfunctions :=
    eq_of_map_eq (fun hf hf' h => Function.doc_inj hf hf' (by simpa using h)) hm hm' hfunctions
  rw [Doc.string_inj hname, himports, hfunctions]

/-- Modules without doubles that are no numbers have the same text only if they are the same. -/
theorem Module.text_eq_iff {m m' : Module} (hm : m.hasNaN = false) (hm' : m'.hasNaN = false) :
    m.text = m'.text ↔ m = m' := by
  constructor
  · intro h
    exact Module.doc_inj hm hm' (Doc.render_inj m.isPlain_doc m'.isPlain_doc h)
  · rintro rfl
    rfl

/-- A statement that holds the end of its line and the beginning of the next one is not taken for
two statements. -/
theorem Module.text_ne_of_imitation :
    let tenth : Function :=
  ⟨"tenth", [], [.atomic "float64"], .single (.double ⟨0x3FB999999999999A⟩)⟩
    let two : Module := ⟨"p", [], [⟨"f", [], [], .inline ["a", "b"]⟩, tenth]⟩
    let one : Module :=
      ⟨"p", [], [⟨"f", [], [], .inline ["a\",\n                        \"b"]⟩, tenth]⟩
    two.hasNaN = false ∧ one.hasNaN = false ∧ two.text ≠ one.text := by
  intro tenth two one
  have htwo : two.hasNaN = false := by decide
  have hone : one.hasNaN = false := by decide
  refine ⟨htwo, hone, fun h => ?_⟩
  have heq : two = one := (Module.text_eq_iff htwo hone).1 h
  simp [two, one] at heq

end GoFun.Fun
