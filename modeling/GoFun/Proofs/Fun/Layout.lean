import GoFun.Fun.Text
import GoFun.Proofs.Text.Quoted

/-!
# Nested text is read in one way

The first line of a part tells what it is: a part that stands on one line has a comma at the end of
it, every other part what opens it. The lines inside are deeper than the line that closes the part.
-/
namespace GoFun.Fun

open Text (eq_and_eq_of_append_cons)

variable {a b : Doc} {c : Char} {u v : List Char}

mutual

/-- Atoms stay on their line and do not look like an empty list, and names of fields end at the
first colon. -/
def Doc.IsPlain : Doc → Prop
  | .atom text => '\n' ∉ text.toList ∧ text ≠ "[]"
  | .record name fields => '\n' ∉ name.toList ∧ PlainFields fields
  | .apply name args => '\n' ∉ name.toList ∧ PlainItems args
  | .list items => PlainItems items

def PlainFields : List (String × Doc) → Prop
  | [] => True
  | (name, doc) :: fields => ':' ∉ name.toList ∧ doc.IsPlain ∧ PlainFields fields

def PlainItems : List Doc → Prop
  | [] => True
  | doc :: docs => doc.IsPlain ∧ PlainItems docs

end

namespace Doc

def firstLine : Doc → List Char
  | .atom text => text.toList ++ [',']
  | .record name _ => name.toList ++ [' ', '\x7b']
  | .apply name _ => name.toList ++ ['(']
  | .list [] => ['[', ']', ',']
  | .list (_ :: _) => ['[']

def nextLines (level : Nat) : Doc → List Char
  | .atom _ => []
  | .record _ fields => (renderFields (level + 1) fields).toList ++
      ((margin level).toList ++ ['\x7d', ',', '\n'])
  | .apply _ args => (renderItems (level + 1) args).toList ++
      ((margin level).toList ++ [')', ',', '\n'])
  | .list [] => []
  | .list items => (renderItems (level + 1) items).toList ++
      ((margin level).toList ++ [']', ',', '\n'])

theorem render_append_eq (doc : Doc) (level : Nat) (rest : List Char) :
    (doc.render level).toList ++ ',' :: '\n' :: rest = doc.firstLine ++ '\n' ::
      (doc.nextLines level ++ rest) := by
  match doc with
  | .atom _ | .record _ _ | .apply _ _ | .list [] | .list (_ :: _) =>
    simp [Doc.render, firstLine, nextLines]

theorem newline_notMem_firstLine {doc : Doc} (h : doc.IsPlain) : '\n' ∉ doc.firstLine := by
  match doc with
  | .atom _ =>
    rw [IsPlain] at h
    simp [firstLine, h.1]
  | .record _ _ | .apply _ _ =>
    rw [IsPlain] at h
    simp [firstLine, h.1]
  | .list [] | .list (_ :: _) => simp [firstLine]

def mark : Doc → Char
  | .atom _ => ','
  | .record _ _ => '\x7b'
  | .apply _ _ => '('
  | .list [] => ','
  | .list (_ :: _) => '['

theorem getLast?_firstLine (doc : Doc) : doc.firstLine.getLast? = some doc.mark := by
  match doc with
  | .atom _ | .record _ _ | .apply _ _ | .list [] | .list (_ :: _) => simp [firstLine, mark]

/-- Parts with the same first line differ inside only. -/
inductive Alike : Doc → Doc → Prop
  | atom (text : String) : Alike (.atom text) (.atom text)
  | record (name : String) (fields fields' : List (String × Doc)) : Alike (.record name fields)
      (.record name fields')
  | apply (name : String) (args args' : List Doc) : Alike (.apply name args) (.apply name args')
  | empty : Alike (.list []) (.list [])
  | list (item item' : Doc) (items items' : List Doc) : Alike (.list (item :: items))
      (.list (item' :: items'))

theorem alike_of_firstLine_eq (ha : a.IsPlain) (hb : b.IsPlain) (h : a.firstLine = b.firstLine) :
    Alike a b := by
  have hmark : a.mark = b.mark := by
    have hlast := congrArg List.getLast? h
    rw [getLast?_firstLine, getLast?_firstLine] at hlast
    exact Option.some.inj hlast
  match a, b with
  | .atom s, .atom t =>
    obtain rfl : s = t := String.toList_inj.1 (List.append_cancel_right h)
    exact .atom s
  | .atom s, .list [] =>
    rw [IsPlain] at ha
    exact absurd (String.toList_inj.1 (List.append_cancel_right h)) ha.2
  | .list [], .atom t =>
    rw [IsPlain] at hb
    exact absurd (String.toList_inj.1 (List.append_cancel_right h.symm)) hb.2
  | .record name fields, .record name' fields' =>
    obtain rfl : name = name' := String.toList_inj.1 (List.append_cancel_right h)
    exact .record ..
  | .apply name args, .apply name' args' =>
    obtain rfl : name = name' := String.toList_inj.1 (List.append_cancel_right h)
    exact .apply ..
  | .list [], .list [] => exact .empty
  | .list (item :: items), .list (item' :: items') => exact .list ..
  | .record _ _, .list items | .apply _ _, .list items => cases items <;> simp [mark] at hmark

end Doc

theorem toList_margin_succ (level : Nat) :
    (margin (level + 1)).toList = (margin level).toList ++ [' ', ' ', ' ', ' '] := by
  rw [margin, margin, String.toList_ofList, String.toList_ofList, Nat.mul_add]
  exact List.replicate_append_replicate.symm

theorem toList_renderFields_cons (level : Nat) (name : String) (doc : Doc)
    (fields : List (String × Doc)) (rest : List Char) :
    (renderFields level ((name, doc) :: fields)).toList ++ rest = (margin level).toList ++
      (name.toList ++ ':' :: ' ' ::
      ((doc.render level).toList ++ ',' :: '\n' :: ((renderFields level fields).toList ++
      rest))) := by
  simp [renderFields]

theorem toList_renderItems_cons (level : Nat) (doc : Doc) (docs : List Doc) (rest : List Char) :
    (renderItems level (doc :: docs)).toList ++ rest = (margin level).toList ++
      ((doc.render level).toList ++ ',' :: '\n' :: ((renderItems level docs).toList ++ rest)) := by
  simp [renderItems]

/-- A line that is deeper than a closing line is not taken for it. -/
theorem margin_append_ne {level : Nat} (hc : c ≠ ' ') :
    (margin level).toList ++ c :: u ≠ (margin (level + 1)).toList ++ v := by
  rw [toList_margin_succ, List.append_assoc]
  intro h
  exact hc (List.cons.inj (List.append_cancel_left h)).1

/-- A part that a comma follows determines itself, and where it ends. -/
def Doc.IsRead (a : Doc) : Prop :=
  ∀ {b : Doc} {level : Nat} {u v : List Char}, a.IsPlain → b.IsPlain →
  (a.render level).toList ++ ',' :: '\n' :: u = (b.render level).toList ++ ',' :: '\n' :: v →
  a = b ∧ u = v

theorem renderFields_append_inj {as bs : List (String × Doc)} (hread : ∀ field ∈ as, field.2.IsRead)
    {level : Nat} (hc : c ≠ ' ') (ha : PlainFields as) (hb : PlainFields bs)
    (h : (renderFields (level + 1) as).toList ++ ((margin level).toList ++ c :: u) =
      (renderFields (level + 1) bs).toList ++ ((margin level).toList ++ c :: v)) :
    as = bs ∧ u = v := by
  induction as generalizing bs with
  | nil =>
    cases bs with
    | nil => simpa [renderFields] using h
    | cons field' bs =>
      rw [toList_renderFields_cons, renderFields, String.toList_empty, List.nil_append] at h
      exact absurd h (margin_append_ne hc)
  | cons field as ih =>
    cases bs with
    | nil =>
      rw [toList_renderFields_cons, renderFields, String.toList_empty, List.nil_append] at h
      exact absurd h.symm (margin_append_ne hc)
    | cons field' bs =>
      obtain ⟨name, a⟩ := field
      obtain ⟨name', b⟩ := field'
      rw [PlainFields] at ha hb
      rw [List.forall_mem_cons] at hread
      rw [toList_renderFields_cons, toList_renderFields_cons] at h
      obtain ⟨hname, hvalue⟩ := eq_and_eq_of_append_cons ha.1 hb.1 (List.append_cancel_left h)
      obtain ⟨rfl, hrest⟩ := hread.1 ha.2.1 hb.2.1 (List.cons.inj hvalue).2
      obtain ⟨rfl, huv⟩ := ih hread.2 ha.2.2 hb.2.2 hrest
      exact ⟨by rw [String.toList_inj.1 hname], huv⟩

theorem renderItems_append_inj {as bs : List Doc} (hread : ∀ a ∈ as, a.IsRead) {level : Nat}
    (hc : c ≠ ' ') (ha : PlainItems as) (hb : PlainItems bs)
    (h : (renderItems (level + 1) as).toList ++ ((margin level).toList ++ c :: u) =
      (renderItems (level + 1) bs).toList ++ ((margin level).toList ++ c :: v)) :
    as = bs ∧ u = v := by
  induction as generalizing bs with
  | nil =>
    cases bs with
    | nil => simpa [renderItems] using h
    | cons b bs =>
      rw [toList_renderItems_cons, renderItems, String.toList_empty, List.nil_append] at h
      exact absurd h (margin_append_ne hc)
  | cons a as ih =>
    cases bs with
    | nil =>
      rw [toList_renderItems_cons, renderItems, String.toList_empty, List.nil_append] at h
      exact absurd h.symm (margin_append_ne hc)
    | cons b bs =>
      rw [PlainItems] at ha hb
      rw [List.forall_mem_cons] at hread
      rw [toList_renderItems_cons, toList_renderItems_cons] at h
      obtain ⟨rfl, hrest⟩ := hread.1 ha.1 hb.1 (List.append_cancel_left h)
      obtain ⟨rfl, huv⟩ := ih hread.2 ha.2 hb.2 hrest
      exact ⟨rfl, huv⟩

theorem Doc.alike_of_render_eq {level : Nat} (ha : a.IsPlain) (hb : b.IsPlain)
    (h : (a.render level).toList ++ ',' :: '\n' :: u = (b.render level).toList ++ ',' :: '\n' ::
      v) :
    a.Alike b ∧ a.nextLines level ++ u = b.nextLines level ++ v := by
  rw [Doc.render_append_eq, Doc.render_append_eq] at h
  obtain ⟨hfirst, hnext⟩ :=
    eq_and_eq_of_append_cons (Doc.newline_notMem_firstLine ha) (Doc.newline_notMem_firstLine hb) h
  exact ⟨Doc.alike_of_firstLine_eq ha hb hfirst, hnext⟩

theorem Doc.isRead : ∀ a : Doc, a.IsRead
  | .atom text, b, level, u, v, ha, hb, h => by
    obtain ⟨halike, hnext⟩ := Doc.alike_of_render_eq ha hb h
    cases halike
    exact ⟨rfl, hnext⟩
  | .record name fields, b, level, u, v, ha, hb, h => by
    obtain ⟨halike, hnext⟩ := Doc.alike_of_render_eq ha hb h
    cases halike
    rw [Doc.IsPlain] at ha hb
    simp only [Doc.nextLines, List.append_assoc] at hnext
    obtain ⟨rfl, hrest⟩ :=
      renderFields_append_inj (fun field hfield => field.2.isRead) (by decide) ha.2 hb.2 hnext
    exact ⟨rfl, by simpa using hrest⟩
  | .apply name args, b, level, u, v, ha, hb, h => by
    obtain ⟨halike, hnext⟩ := Doc.alike_of_render_eq ha hb h
    cases halike
    rw [Doc.IsPlain] at ha hb
    simp only [Doc.nextLines, List.append_assoc] at hnext
    obtain ⟨rfl, hrest⟩ :=
      renderItems_append_inj (fun arg harg => arg.isRead) (by decide) ha.2 hb.2 hnext
    exact ⟨rfl, by simpa using hrest⟩
  | .list items, b, level, u, v, ha, hb, h => by
    obtain ⟨halike, hnext⟩ := Doc.alike_of_render_eq ha hb h
    have hread : ∀ item ∈ items, item.IsRead := fun item hitem => item.isRead
    cases halike with
    | empty => exact ⟨rfl, hnext⟩
    | list item item' items items' =>
      rw [Doc.IsPlain] at ha hb
      simp only [Doc.nextLines, List.append_assoc] at hnext
      obtain ⟨hitems, hrest⟩ := renderItems_append_inj hread (by decide) ha hb hnext
      exact ⟨by rw [hitems], by simpa using hrest⟩
termination_by a => a
decreasing_by
  · have hlt := List.sizeOf_lt_of_mem hfield
    obtain ⟨name', doc⟩ := field
    simp only [Prod.mk.sizeOf_spec, Doc.record.sizeOf_spec] at hlt ⊢
    omega
  · have hlt := List.sizeOf_lt_of_mem harg
    simp only [Doc.apply.sizeOf_spec]
    omega
  · have hlt := List.sizeOf_lt_of_mem hitem
    simp only [Doc.list.sizeOf_spec]
    omega

theorem Doc.render_inj (ha : a.IsPlain) (hb : b.IsPlain) {level : Nat}
    (h : a.render level = b.render level) : a = b :=
  (a.isRead ha hb (congrArg (·.toList ++ [',', '\n']) h)).1

end GoFun.Fun
