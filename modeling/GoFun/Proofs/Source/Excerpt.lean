import GoFun.Proofs.Grammar.Sourced
import GoFun.Proofs.Printer.Place
import GoFun.Proofs.Source.Read

/-!
# Extents of expressions in a source

The extent of an expression or a type is a stretch of the source text, and this stretch alone spells
the expression again. There is one exception: where a type to receive from a channel stands directly
behind the word of another one, the grammar of expressions takes the second arrow to that word.
-/
namespace GoFun

open Parser Grammar

/-- The bytes of a text from `a` on and up to `b`. -/
def IsSlice (text : String) (a b : Nat) (part : String) : Prop :=
  ∃ pre post, text = pre ++ part ++ post ∧ a = pre.utf8ByteSize ∧ b = a + part.utf8ByteSize

theorem IsSlice.le {text part : String} {a b : Nat} (h : IsSlice text a b part) :
    b ≤ text.utf8ByteSize := by
  obtain ⟨pre, post, rfl, rfl, rfl⟩ := h
  simp only [String.utf8ByteSize_append]
  omega

theorem Leads.isSlice {text : String} {u w : Cursor} (h : Leads ⟨0, text.toList⟩ u)
    (h' : Leads u w) :
    ∃ part, u.rest = part ++ w.rest ∧ IsSlice text u.offset w.offset (String.ofList part) := by
  obtain ⟨pre, hpre, hu⟩ := h
  obtain ⟨part, hpart, hw⟩ := h'
  have hsize : ∀ cs, (String.ofList cs).utf8ByteSize = utf8Length cs := fun cs => by
    rw [utf8ByteSize_eq, String.toList_ofList]
  refine ⟨part, hpart, String.ofList pre, String.ofList w.rest, ?_, ?_, ?_⟩
  · rw [← String.ofList_append, ← String.ofList_append, List.append_assoc, ← hpart]
    exact (congrArg String.ofList hpre).symm ▸ (String.ofList_toList).symm
  · rw [hsize, hu, Nat.zero_add]
  · rw [hsize, hw]

@[simp] theorem Expr.standsAlone_move (f : Nat → Nat) (e : Expr) :
    (e.move f).standsAlone = e.standsAlone := by
  cases e with
  | composite t _ _ _ => cases t <;> rfl
  | func t => obtain ⟨_ | _, _, _⟩ := t <;> rfl
  | _ => rfl

theorem Expr.start_move (f : Nat → Nat) (e : Expr) : (e.move f).start = e.start.map f := by
  cases e with
  | selector x _ | index x _ _ _ | call x _ _ _ _ | binary x _ _ _ | keyValue x _ _
  | slice x _ _ _ _ _ | assertion x _ _ _ => exact x.start_move f
  | composite t _ _ _ =>
    cases t with
    | none => rfl
    | some x => exact x.start_move f
  | func t | funcLit t _ => cases t; rfl
  | _ => rfl

mutual

theorem Expr.stop_move (e : Expr) : (e.move id).stop = e.stop := by
  cases e with
  | star _ x | unary _ _ x | binary _ _ _ x | array _ _ x | map _ _ x | chan _ _ x
  | keyValue _ _ x => exact x.stop_move
  | ellipsis _ elem =>
    cases elem with
    | none => simp [Expr.move, Expr.stop, moveExpr?]
    | some x => exact x.stop_move
  | func t => exact t.stop_move
  | struct _ fields | interface _ fields =>
    cases fields
    simp [Expr.move, Expr.stop, FieldList.move]
  | funcLit _ body =>
    cases body
    simp [Expr.move, Expr.stop, Block.move]
  | _ => simp [Expr.move, Expr.stop, Ident.move, Ident.stop, Literal.move]

theorem FuncType.stop_move : ∀ t : FuncType, (t.move id).stop = t.stop
  | ⟨_, ⟨_, _, _⟩, none⟩ => by simp [FuncType.move, FieldList.move, moveFieldList?, FuncType.stop]
  | ⟨_, ⟨_, _, closing⟩, some ⟨_, list, _⟩⟩ => by
    simp [FuncType.move, FieldList.move, moveFieldList?, FuncType.stop,
      lastStop_move (Pos.plus closing 1) list]

theorem lastStop_move (before : Pos) :
    ∀ fields : List Field, lastStop before (moveFields id fields) = lastStop before fields
  | [] => rfl
  | [⟨_, t, _⟩] => t.stop_move
  | ⟨_, _, _⟩ :: ⟨names, t, tag⟩ :: fields => lastStop_move before (⟨names, t, tag⟩ :: fields)

end

theorem Expr.move_eq_of_move_id {e e' : Expr} (h : e.move id = e'.move id) (f : Nat → Nat) :
    e.move f = e'.move f := by
  rw [← Function.comp_id f, ← (place_move_all f id).1, ← (place_move_all f id).1, h]

/-- The extent of an expression or a type is a stretch of the text that is not empty. Read alone it
gives the same tree again, placed from its beginning on, exactly when the tree is no doubled channel
type. -/
theorem SourceUnit.excerpt_spells {name text : String} {u : SourceUnit}
    (h : read? name text = some u) {e : Expr} (he : u.file.Has (.expr e))
    (hs : e.standsAlone = true) :
    ∃ a b part, e.start = some a ∧ e.stop = some b ∧ a < b ∧ b ≤ text.utf8ByteSize ∧
    IsSlice text a b part ∧
      (parseExpr? part = some (e.move (· - a)) ↔ e.doubled = false) := by
  obtain ⟨f, hf, rfl⟩ := Option.map_eq_some_iff.1 h
  obtain ⟨k, hk, hmove⟩ := File.Has.of_resolve he
  obtain ⟨e', rfl⟩ : ∃ e', k = .expr e' := by
    cases k with
    | expr e' => exact ⟨e', rfl⟩
    | stmt s => cases hmove
  replace hmove : e.move id = e'.move id := Phrase.expr.inj hmove
  -- the tree before its names were resolved
  have hs' :
      e'.standsAlone = true := by rw [← e'.standsAlone_move id, ← hmove, e.standsAlone_move, hs]
  obtain ⟨v, t, hv, horigin⟩ := parse?_origin hf hk hs'
  obtain ⟨w, hway, hblanks, hstop⟩ := horigin.stretch (rules_spanned _) hv.trimmed
  obtain ⟨part, hpart, hslice⟩ := hv.leads.isSlice hway.leads
  have hstart := horigin.start
  rw [← e'.stop_move, ← hmove, e.stop_move] at hstop
  rw [← Option.map_id_apply (x := e'.start), ← e'.start_move id, ← hmove, e.start_move,
    Option.map_id_apply] at hstart
  have hlen : 2 * part.length ≤ depthFor text.toList := by
    have hlt := hv.length_lt
    rw [hpart, List.length_append] at hlt
    simp only [depthFor]
    omega
  refine ⟨v.offset, w.offset, String.ofList part, hstart, hstop, hway.offset_lt, hslice.le, hslice,
    ?_⟩
  rw [Expr.move_eq_of_move_id hmove, horigin.parseExpr?_iff hlen hv.trimmed hway hblanks hpart,
    ← e'.doubled_move id, ← hmove, e.doubled_move]

def isExcerpt (a b : Nat) (doubled : Bool) : Phrase → Bool
  | .expr e => e.standsAlone && e.start == some a && e.stop == some b && e.doubled == doubled
  | .stmt _ => false

theorem isExcerpt_spec {a b : Nat} {doubled : Bool} {n : Phrase}
    (h : isExcerpt a b doubled n = true) :
    ∃ e, n = .expr e ∧ e.standsAlone = true ∧ e.start = some a ∧ e.stop = some b ∧
    e.doubled = doubled := by
  cases n with
  | stmt s => cases h
  | expr e =>
    simp only [isExcerpt, Bool.and_eq_true, beq_iff_eq] at h
    exact ⟨e, rfl, h.1.1.1, h.1.1.2, h.1.2, h.2⟩

def channelsText : String :=
  "package p\nvar s = \"é\" + f(<-chan int(c))\nvar t <-chan <-chan int\n"

/-- The conversion to a channel type in the argument is read as such again. -/
theorem call_excerpt :
    ∃ u e part, SourceUnit.read? "p.go" channelsText = some u ∧ u.file.Has (.expr e) ∧
    e.standsAlone = true ∧ IsSlice channelsText 25 41 part ∧
    parseExpr? part = some (e.move (· - 25)) := by
  have h : (SourceUnit.read? "p.go" channelsText).any fun u =>
      (u.file.at? [0, 1]).any (isExcerpt 25 41 false) := by
    decide +kernel
  obtain ⟨u, hu, h⟩ := (Option.any_eq_true _ _).1 h
  obtain ⟨n, hn, h⟩ := (Option.any_eq_true _ _).1 h
  obtain ⟨e, rfl, halone, hstart, hstop, hdoubled⟩ := isExcerpt_spec h
  have he := File.has_of_at? hn
  obtain ⟨a, b, part, ha, hb, -, -, hslice, hiff⟩ := SourceUnit.excerpt_spells hu he halone
  cases ha.symm.trans hstart
  cases hb.symm.trans hstop
  exact ⟨u, e, part, hu, he, halone, hslice, hiff.2 hdoubled⟩

/-- The text of a channel of channels, read alone, receives from a channel to send to. -/
theorem channels_excerpt_differs :
    ∃ u e, SourceUnit.read? "p.go" channelsText = some u ∧ u.file.Has (.expr e) ∧
    e.standsAlone = true ∧ e.start = some 48 ∧ e.stop = some 65 ∧
    IsSlice channelsText 48 65 "<-chan <-chan int" ∧
    parseExpr? "<-chan <-chan int" ≠ some (e.move (· - 48)) := by
  have h : (SourceUnit.read? "p.go" channelsText).any fun u =>
      (u.file.at? [1]).any (isExcerpt 48 65 true) := by
    decide +kernel
  obtain ⟨u, hu, h⟩ := (Option.any_eq_true _ _).1 h
  obtain ⟨n, hn, h⟩ := (Option.any_eq_true _ _).1 h
  obtain ⟨e, rfl, halone, hstart, hstop, hdoubled⟩ := isExcerpt_spec h
  refine ⟨u, e, hu, File.has_of_at? hn, halone, hstart, hstop, ?_, fun heq => ?_⟩
  · exact ⟨"package p\nvar s = \"é\" + f(<-chan int(c))\nvar t ",
      "\n", by decide, by decide, by decide⟩
  · have hsingle : (parseExpr? "<-chan <-chan int").all fun e => !e.doubled := by decide +kernel
    rw [heq] at hsingle
    simp [hdoubled] at hsingle

end GoFun
