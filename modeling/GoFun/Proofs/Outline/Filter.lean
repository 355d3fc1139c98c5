import GoFun.Proofs.Outline.Plain

/-!
# Filters take lines away

The outlines of a tree under the three filters come from one list of lines. Without empty fields,
the lines that say `nil` and both lines of every empty list are gone. Without positions, the lines
of the fields that hold positions are gone as well. Whether a line goes can be seen from its text.
-/
namespace GoFun

open List

open Outline (Line)

namespace Outline.Line

def field (line : Line) : String := String.ofList (line.text.toList.takeWhile (· != ':'))

def value (line : Line) : String := String.ofList ((line.text.toList.dropWhile (· != ':')).drop 2)

def isMissing (line : Line) : Bool := line.value == "nil"

/-- The first line of a list without nodes. -/
def opensEmpty (line : Line) : Bool := line.value == "[] (len = 0) \x7b"

/-- A line that a closing line belongs to. -/
def opens (line : Line) : Bool := " \x7b".toList.isSuffixOf line.text.toList

/-- A field that holds a position. A type switch has a field of such a name that holds a
statement. -/
def isPosition (line : Line) : Bool := positionFields.contains line.field && !line.opens

end Outline.Line

open Outline.Line (positionFields)

/-- The lines without those of fields that have no value, and without both lines of lists that have
no nodes. -/
def withoutEmpty : List Line → List Line
  | [] => []
  | [line] => if line.isMissing then [] else [line]
  | line :: next :: rest =>
    if line.isMissing then withoutEmpty (next :: rest)
    else if line.opensEmpty && next == ⟨line.level, "\x7d"⟩ then withoutEmpty rest
    else line :: withoutEmpty (next :: rest)

def withoutPositions (ls : List Line) : List Line := ls.filter (!·.isPosition)

/-- Lines as they are shown, with their numbers. -/
def Outline.numbered (ls : List Line) : String := String.join (ls.mapIdx Line.render)

section Lines

variable {line : Line} (rest : List Line)

theorem withoutEmpty_of_missing (h : line.isMissing = true) :
    withoutEmpty (line :: rest) = withoutEmpty rest := by
  cases rest <;> simp [withoutEmpty, h]

theorem withoutEmpty_of_kept (h : line.isMissing = false) (he : line.opensEmpty = false) :
    withoutEmpty (line :: rest) = line :: withoutEmpty rest := by
  cases rest <;> simp [withoutEmpty, h, he]

theorem withoutEmpty_of_opensEmpty (h : line.isMissing = false) (he : line.opensEmpty = true) :
    withoutEmpty (line :: ⟨line.level, "\x7d"⟩ :: rest) = withoutEmpty rest := by
  simp [withoutEmpty, h, he]

end Lines

section Field

variable {name : String} (h : ':' ∉ name.toList) (level : Nat) (t : String)

include h

theorem Outline.Line.field_mk : (Line.mk level (name ++ ": " ++ t)).field = name := by
  have hall : ∀ c ∈ name.toList, (c != ':') = true :=
    fun c hc => bne_iff_ne.2 fun hcolon => h (hcolon ▸ hc)
  simp only [field, String.toList_append, append_assoc, takeWhile_append_of_pos hall]
  simp

theorem Outline.Line.value_mk : (Line.mk level (name ++ ": " ++ t)).value = t := by
  have hall : ∀ c ∈ name.toList, (c != ':') = true :=
    fun c hc => bne_iff_ne.2 fun hcolon => h (hcolon ▸ hc)
  simp only [value, String.toList_append, append_assoc, dropWhile_append_of_pos hall]
  simp

end Field

theorem not_opens_close (level : Nat) : (Line.mk level "\x7d").opens = false :=
  (by decide : " \x7b".toList.isSuffixOf "\x7d".toList = false)

theorem opens_append (level : Nat) (t : String) : (Line.mk level (t ++ " \x7b")).opens = true := by
  rw [Outline.Line.opens, String.toList_append]
  exact isSuffixOf_iff_suffix.2 (suffix_append _ _)

/-- A value that does not end in a brace opens no block. -/
theorem not_opens_of_getLast? {s : String} (h : s.toList.getLast? ≠ some '\x7b') (level : Nat)
    (name : String) :
    (Line.mk level (name ++ ": " ++ s)).opens = false := by
  rw [Outline.Line.opens, Bool.eq_false_iff]
  intro hsuffix
  obtain ⟨t, ht⟩ := isSuffixOf_iff_suffix.1 hsuffix
  have hlast : ((name ++ ": ").toList ++ s.toList).getLast? = some '\x7b' := by
    rw [← String.toList_append, ← show t ++ " \x7b".toList = (name ++ ": " ++ s).toList from ht]
    simp
  rw [getLast?_append] at hlast
  cases hs : s.toList.getLast? with
  | none => simp [hs] at hlast
  | some c => exact h (by simpa [hs] using hlast)

theorem isPosition_of_opens {line : Line} (h : line.opens = true) : line.isPosition = false := by
  simp [Outline.Line.isPosition, h]

/-- The first line of a node says its kind, unless it is the first line of all. -/
theorem IsTag.header_value {label kind : String} (hl : IsTag label) (hk : isLabel kind = true)
    (level : Nat) :
    (Line.mk level (label ++ kind ++ " \x7b")).value = "" ∨
      (Line.mk level (label ++ kind ++ " \x7b")).value = kind ++ " \x7b" := by
  cases hl with
  | root =>
    have hcolon : ':' ∉ ("" ++ kind ++ " \x7b").toList := by simpa using isLabel.notMem (c := ':') hk (by decide)
    have hall : ∀ c ∈ ("" ++ kind ++ " \x7b").toList, (c != ':') = true :=
      fun c hc => bne_iff_ne.2 fun h => hcolon (h ▸ hc)
    have hdrop : (("" ++ kind ++ " \x7b").toList ++ []).dropWhile (· != ':') = [] := dropWhile_append_of_pos hall
    rw [append_nil] at hdrop
    exact .inl (by rw [Outline.Line.value, hdrop]; rfl)
  | named h => exact .inr (by rw [String.append_assoc, Outline.Line.value_mk h.2.1])

theorem IsTag.header_kept {label kind : String} (hl : IsTag label) (hk : isLabel kind = true)
    (level : Nat) :
    (Line.mk level (label ++ kind ++ " \x7b")).isMissing = false ∧
      (Line.mk level (label ++ kind ++ " \x7b")).opensEmpty = false := by
  have hnil : kind ++ " \x7b" ≠ "nil" := fun h => by
    simpa using congrArg (fun s : String => s.toList.getLast?) h
  have hlist : kind ++ " \x7b" ≠ "[] (len = 0) \x7b" := kind_ne_list hk "0) \x7b"
  rcases hl.header_value hk level with h | h
    <;> simp [Outline.Line.isMissing, Outline.Line.opensEmpty, h, hnil, hlist]

theorem close_kept (level : Nat) :
    (Line.mk level "\x7d").isMissing = false ∧ (Line.mk level "\x7d").opensEmpty = false ∧
    (Line.mk level "\x7d").isPosition = false := by
  have hvalue : (Line.mk level "\x7d").value = "" :=
    (by decide : String.ofList (("\x7d".toList.dropWhile (· != ':')).drop 2) = "")
  have hfield : (Line.mk level "\x7d").field = "\x7d" :=
    (by decide : String.ofList ("\x7d".toList.takeWhile (· != ':')) = "\x7d")
  simp [Outline.Line.isMissing, Outline.Line.opensEmpty, Outline.Line.isPosition, hvalue, hfield,
    positionFields]

/-- A value that is there does not read like a missing value or like an empty list. -/
theorem Value.leaf_kept {m : SourceMap} {v : Value} {name s : String} (hs : v.leaf? m = some s)
    (hv : v.IsPlain name) (he : v.isEmpty = false) : s ≠ "nil" ∧ s ≠ "[] (len = 0) \x7b" := by
  have hmem : ∀ {c : Char}, c ∈ s.toList → c ∉ "nil".toList ∧ c ∉ "[] (len = 0) \x7b".toList →
      s ≠ "nil" ∧ s ≠ "[] (len = 0) \x7b" := by
    rintro c hc ⟨hnil, hlist⟩
    exact ⟨fun h => hnil (h ▸ hc), fun h => hlist (h ▸ hc)⟩
  cases v with
  | pos p =>
    obtain rfl := Option.some.inj hs
    by_cases hp : (m.position p).isKnown = true
    · exact hmem (Position.colon_mem_text hp) (by decide)
    · rw [Position.text, if_neg hp]
      decide
  | text t =>
    obtain rfl := Option.some.inj hs
    exact hmem (c := '"') (by simp [Text.quoteString]) (by decide)
  | token t =>
    obtain rfl := Option.some.inj hs
    rw [Value.IsPlain] at hv
    exact ⟨hv.1.2, fun h => hv.1.1.2 (by rw [h]; decide)⟩
  | absent => cases he
  | node o => cases hs
  | nodes os => cases hs

mutual

theorem Outline.select_all : ∀ o : Outline, o.select .all = o
  | .node kind entries => by rw [Outline.select, selectEntries_all entries]

theorem selectEntries_all : ∀ es : List Entry, selectEntries .all es = es
  | [] => rfl
  | ⟨name, _, v⟩ :: es => by simp [selectEntries, Filter.keeps, v.select_all, selectEntries_all es]

theorem Value.select_all : ∀ v : Value, v.select .all = v
  | .node o => by rw [Value.select, o.select_all]
  | .nodes os => by rw [Value.select, selectNodes_all os]
  | .pos _ | .text _ | .token _ | .absent => by rw [Value.select]

theorem selectNodes_all : ∀ os : List Outline, selectNodes .all os = os
  | [] => rfl
  | o :: os => by rw [selectNodes, o.select_all, selectNodes_all os]

end

theorem length_selectNodes (f : Filter) (os : List Outline) :
    (selectNodes f os).length = os.length := by
  induction os with
  | nil => rw [selectNodes]
  | cons o os ih => rw [selectNodes, length_cons, length_cons, ih]

theorem Value.select_of_leaf {m : SourceMap} {v : Value} {s : String} (h : v.leaf? m = some s)
    (f : Filter) :
    v.select f = v := by
  cases v <;> simp_all [Value.leaf?, Value.select]

theorem Value.withoutEmpty_leaf {m : SourceMap} {v : Value} {name s : String}
    (hs : v.leaf? m = some s) (hn : isLabel name = true) (hv : v.IsPlain name)
    (he : v.isEmpty = false) (level : Nat) (rest : List Line) :
    withoutEmpty (v.lines m level (name ++ ": ") ++ rest) =
      (v.select .notEmpty).lines m level (name ++ ": ") ++ withoutEmpty rest := by
  obtain ⟨hnil, hlist⟩ := Value.leaf_kept hs hv he
  have hvalue := Outline.Line.value_mk (isLabel.notMem hn (c := ':') (by decide)) level s
  rw [Value.select_of_leaf hs, Value.lines_of_leaf hs, singleton_append]
  exact withoutEmpty_of_kept rest (by simpa [Outline.Line.isMissing, hvalue] using hnil)
    (by simpa [Outline.Line.opensEmpty, hvalue] using hlist)

section List

variable {name : String} (hn : isLabel name = true) (level n : Nat)

include hn

theorem value_listHeader :
    (listHeader level name n).value = "[] (len = " ++ toString n ++ ") \x7b" :=
  Outline.Line.value_mk (isLabel.notMem hn (by decide)) level _

theorem isMissing_listHeader : (listHeader level name n).isMissing = false := by
  rw [Outline.Line.isMissing, value_listHeader hn, beq_eq_false_iff_ne]
  intro h
  simpa using congrArg (fun s : String => s.toList.head?) h

theorem opensEmpty_listHeader : (listHeader level name n).opensEmpty = (n == 0) := by
  rw [Outline.Line.opensEmpty, value_listHeader hn, Bool.eq_iff_iff, beq_iff_eq, beq_iff_eq]
  constructor
  · intro h
    rw [show "[] (len = 0) \x7b" = "[] (len = " ++ toString 0 ++ ") \x7b" from rfl,
      String.append_left_inj, String.append_right_inj] at h
    exact Position.toString_inj (congrArg String.toList h)
  · rintro rfl
    rfl

end List

mutual

theorem Outline.withoutEmpty_lines {m : SourceMap} :
    ∀ {o : Outline} {level : Nat} {label : String} (rest : List Line), o.IsPlain → IsTag label →
      withoutEmpty (o.lines m level label ++ rest) = (o.select .notEmpty).lines m level label ++
      withoutEmpty rest
  | .node kind entries, level, label, rest, ho, hl => by
    rw [Outline.IsPlain] at ho
    obtain ⟨hmissing, hempty⟩ := hl.header_kept ho.1 level
    simp only [Outline.select, Outline.lines, cons_append, append_assoc, nil_append]
    rw [withoutEmpty_of_kept _ hmissing hempty, withoutEmpty_entryLines _ ho.2,
      withoutEmpty_of_kept _ (close_kept level).1 (close_kept level).2.1]

theorem withoutEmpty_entryLines {m : SourceMap} :
    ∀ {es : List Entry} {level : Nat} (rest : List Line),
    PlainEntries es → withoutEmpty (entryLines m level es ++ rest) =
      entryLines m level (selectEntries .notEmpty es) ++ withoutEmpty rest
  | [], level, rest, _ => by simp [entryLines, selectEntries]
  | ⟨name, _, v⟩ :: es, level, rest, he => by
    rw [PlainEntries] at he
    rw [entryLines, append_assoc, Value.withoutEmpty_lines _ he.1 he.2.2.1,
      withoutEmpty_entryLines rest he.2.2.2, selectEntries]
    cases v.isEmpty <;> simp [Filter.keeps, entryLines]

theorem Value.withoutEmpty_lines {m : SourceMap} :
    ∀ {v : Value} {level : Nat} {name : String} (rest : List Line),
    isLabel name = true → v.IsPlain name →
      withoutEmpty (v.lines m level (name ++ ": ") ++ rest) =
        (if v.isEmpty then [] else (v.select .notEmpty).lines m level (name ++ ": ")) ++
        withoutEmpty rest
  | .node o, level, name, rest, hn, hv => by
    rw [Value.IsPlain] at hv
    simpa [Value.isEmpty, Value.select, Value.lines] using
      Outline.withoutEmpty_lines rest hv (.named (isLabel.isCaption hn))
  | .nodes os, level, name, rest, hn, hv => by
    rw [Value.IsPlain] at hv
    have hmissing := isMissing_listHeader hn level os.length
    have hopens := opensEmpty_listHeader hn level os.length
    rw [Value.lines_nodes, Value.select, Value.lines_nodes, length_selectNodes]
    cases os with
    | nil =>
      simp only [nodeLines, nil_append, cons_append, Value.isEmpty, isEmpty_nil, if_true]
      exact withoutEmpty_of_opensEmpty rest hmissing hopens
    | cons o os =>
      simp only [cons_append, append_assoc, nil_append, Value.isEmpty, isEmpty_cons,
        Bool.false_eq_true, if_false]
      rw [withoutEmpty_of_kept _ hmissing hopens, withoutEmpty_nodeLines _ hv,
        withoutEmpty_of_kept _ (close_kept level).1 (close_kept level).2.1]
  | .absent, level, name, rest, hn, _ => by
    have hvalue := Outline.Line.value_mk (isLabel.notMem hn (c := ':') (by decide)) level "nil"
    rw [Value.lines, singleton_append, withoutEmpty_of_missing _
      (by simp [Outline.Line.isMissing, hvalue])]
    rfl
  | .pos _, level, _, rest, hn, hv | .text _, level, _, rest, hn, hv
  | .token _, level, _, rest, hn, hv => Value.withoutEmpty_leaf rfl hn hv rfl level rest

theorem withoutEmpty_nodeLines {m : SourceMap} :
    ∀ {os : List Outline} {level i : Nat} (rest : List Line), PlainNodes os →
      withoutEmpty (nodeLines m level i os ++ rest) =
      nodeLines m level i (selectNodes .notEmpty os) ++ withoutEmpty rest
  | [], level, i, rest, _ => by simp [nodeLines, selectNodes]
  | o :: os, level, i, rest, ho => by
    rw [PlainNodes] at ho
    rw [nodeLines, append_assoc, Outline.withoutEmpty_lines _ ho.1 (.named (isCaption_number i)),
      withoutEmpty_nodeLines _ ho.2, selectNodes, nodeLines, append_assoc]

end

theorem withoutPositions_append (ls ls' : List Line) :
    withoutPositions (ls ++ ls') = withoutPositions ls ++ withoutPositions ls' :=
  filter_append ls ls'

theorem withoutPositions_kept {line : Line} (h : line.isPosition = false) (ls : List Line) :
    withoutPositions (line :: ls) = line :: withoutPositions ls := by simp [withoutPositions, h]

theorem opens_listHeader (level : Nat) (name : String) (n : Nat) :
    (listHeader level name n).opens = true := by
  rw [listHeader, show ") \x7b" = ")" ++ " \x7b" from rfl, ← String.append_assoc, ← String.append_assoc]
  exact opens_append _ _

/-- The line of a leaf is that of a position when its field is named for one. -/
theorem Value.isPosition_leaf {m : SourceMap} {v : Value} {name s : String}
    (hs : v.leaf? m = some s) (hn : isLabel name = true) (hv : v.IsPlain name) (level : Nat) :
    (Line.mk level (name ++ ": " ++ s)).isPosition = v.isPos := by
  have hfield := Outline.Line.field_mk (isLabel.notMem hn (c := ':') (by decide)) level s
  cases v with
  | pos p =>
    obtain rfl := Option.some.inj hs
    rw [Value.IsPlain] at hv
    have hopens : (Line.mk level (name ++ ": " ++ (m.position p).text)).opens = false :=
      not_opens_of_getLast? (Position.getLast?_text _) level name
    simp [Outline.Line.isPosition, hfield, hv, hopens, Value.isPos]
  | text t | absent => rw [Value.IsPlain] at hv; simp [Outline.Line.isPosition, hfield, hv, Value.isPos]
  | token t => rw [Value.IsPlain] at hv; simp [Outline.Line.isPosition, hfield, hv.2, Value.isPos]
  | node o => cases hs
  | nodes os => cases hs

mutual

theorem Outline.withoutPositions_lines {m : SourceMap} :
    ∀ {o : Outline} {level : Nat} {label : String}, o.IsPlain →
      withoutPositions ((o.select .notEmpty).lines m level label) =
      (o.select .compact).lines m level label
  | .node kind entries, level, label, ho => by
    rw [Outline.IsPlain] at ho
    simp only [Outline.select, Outline.lines, cons_append]
    rw [withoutPositions_kept (isPosition_of_opens (opens_append _ _)), withoutPositions_append,
      withoutPositions_entryLines ho.2, withoutPositions_kept (close_kept level).2.2]
    rfl

theorem withoutPositions_entryLines {m : SourceMap} : ∀ {es : List Entry} {level : Nat},
    PlainEntries es →
      withoutPositions (entryLines m level (selectEntries .notEmpty es)) =
      entryLines m level (selectEntries .compact es)
  | [], level, _ => by simp [entryLines, selectEntries, withoutPositions]
  | ⟨name, role, v⟩ :: es, level, he => by
    rw [PlainEntries] at he
    obtain ⟨hname, hrole, hplain, he⟩ := he
    have hes := @withoutPositions_entryLines m es level he
    have hv := @Value.withoutPositions_lines m v level name hname hplain
    cases hempty : v.isEmpty <;> cases hpos : v.isPos <;>
      simp [selectEntries, Filter.keeps, hempty, hrole, hpos, entryLines, withoutPositions_append,
        hes, hv]

theorem Value.withoutPositions_lines {m : SourceMap} : ∀ {v : Value} {level : Nat} {name : String},
    isLabel name = true → v.IsPlain name →
      withoutPositions ((v.select .notEmpty).lines m level (name ++ ": ")) =
        if v.isPos then [] else (v.select .compact).lines m level (name ++ ": ")
  | .node o, level, name, _, hv => by
    rw [Value.IsPlain] at hv
    simpa [Value.isPos, Value.select, Value.lines] using Outline.withoutPositions_lines hv
  | .nodes os, level, name, _, hv => by
    rw [Value.IsPlain] at hv
    simp only [Value.select, Value.lines_nodes, length_selectNodes, Value.isPos, Bool.false_eq_true,
      if_false]
    rw [withoutPositions_kept (isPosition_of_opens (opens_listHeader _ _ _)),
      withoutPositions_append, withoutPositions_nodeLines hv,
        withoutPositions_kept (close_kept level).2.2]
    rfl
  | .pos _, level, _, hn, hv | .text _, level, _, hn, hv | .token _, level, _, hn, hv | .absent,
    level, _, hn, hv => by
    have hposition := Value.isPosition_leaf (m := m) rfl hn hv level
    simp [Value.select, Value.lines, withoutPositions, hposition, Value.isPos]

theorem withoutPositions_nodeLines {m : SourceMap} : ∀ {os : List Outline} {level i : Nat},
    PlainNodes os →
      withoutPositions (nodeLines m level i (selectNodes .notEmpty os)) =
      nodeLines m level i (selectNodes .compact os)
  | [], level, i, _ => by simp [nodeLines, selectNodes, withoutPositions]
  | o :: os, level, i, ho => by
    rw [PlainNodes] at ho
    simp only [selectNodes, nodeLines, withoutPositions_append]
    rw [Outline.withoutPositions_lines ho.1, withoutPositions_nodeLines ho.2]

end

theorem Outline.Blocks.shows_position {m : SourceMap} {level : Nat} {ls : List Line}
    (h : Blocks m level ls) :
    ∀ line ∈ ls, line.isPosition = true → ∃ p, line.value = (m.position p).text := by
  have hopens : ∀ {line : Line}, line.opens = true → line.isPosition = true → ∃ p,
      line.value = (m.position p).text :=
    fun h hp => by simp [isPosition_of_opens h] at hp
  have hclose : ∀ level : Nat, (Line.mk level "\x7d").isPosition = true →
      ∃ p, (Line.mk level "\x7d").value = (m.position p).text := fun level hp => by simp [(close_kept level).2.2] at hp
  induction h with
  | nil => simp
  | @leaf level name s v ls hn hv hs _ ih =>
    refine forall_mem_cons.2 ⟨fun hp => ?_, ih⟩
    rw [Value.isPosition_leaf hs hn hv] at hp
    cases v with
    | pos p => exact ⟨p, by rw [Line.value_mk (isLabel.notMem hn (by decide))]; exact (Option.some.inj hs).symm⟩
    | _ => simp [Value.isPos] at hp
  | node _ _ _ _ ihb ih =>
    simp only [forall_mem_cons, forall_mem_append]
    exact ⟨hopens (opens_append _ _), ihb, hclose _, ih⟩
  | list _ _ _ _ ihb ih =>
    simp only [forall_mem_cons, forall_mem_append]
    exact ⟨hopens (opens_listHeader _ _ _), ihb, hclose _, ih⟩

end GoFun
