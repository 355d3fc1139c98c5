import GoFun.Outline.Basic
import GoFun.Proofs.Source.Position

/-!
# Outlines are read in one way

The text of an outline determines the outline as far as it can be seen: `Outline.spell` puts in
place of every position, text and missing node what is shown of it. The lines follow from the text,
and the outline follows from its lines, since a block ends at the first line that is as deep as the
line that opened it.
-/
namespace GoFun

open List

open Outline (Line)

variable {s t : String} {o : Outline} {m : SourceMap}
variable {r r' rest rest' ls : List Line} {os : List Outline}

mutual

/-- The outline with every leaf as it is shown. Roles are not shown. -/
def Outline.spell (m : SourceMap) : Outline → Outline
  | .node kind entries => .node kind (spellEntries m entries)

def spellEntries (m : SourceMap) : List Entry → List Entry
  | [] => []
  | ⟨name, _, value⟩ :: entries => ⟨name, .value, value.spell m⟩ :: spellEntries m entries

def Value.spell (m : SourceMap) : Value → Value
  | .pos p => .token (m.position p).text
  | .text s => .token (Text.quoteString s)
  | .token s => .token s
  | .node o => .node (o.spell m)
  | .nodes os => .nodes (spellNodes m os)
  | .absent => .token "nil"

def spellNodes (m : SourceMap) : List Outline → List Outline
  | [] => []
  | o :: os => o.spell m :: spellNodes m os

end

def Value.isPos : Value → Bool
  | .pos _ => true
  | _ => false

/-- Letters and low lines, at least one of them. -/
def isLabel (s : String) : Bool := s != "" && s.toList.all fun c => c.isAlpha || c == '_'

/-- Text that stays on its line and cannot be taken for the opening of a block. -/
def IsLeaf (s : String) : Prop := '\n' ∉ s.toList ∧ s.toList.getLast? ≠ some '\x7b'

instance (s : String) : Decidable (IsLeaf s) := inferInstanceAs (Decidable (_ ∧ _))

/-- Such text when it does not read like a missing value. -/
def IsToken (s : String) : Prop := IsLeaf s ∧ s ≠ "nil"

instance (s : String) : Decidable (IsToken s) := inferInstanceAs (Decidable (_ ∧ _))

/-- The names of the fields that hold positions. -/
def Outline.Line.positionFields : List String :=
  ["package", "func", "opening", "closing", "tok_pos", "lparen", "rparen", "assign", "return_pos",
    "lbrace", "rbrace", "if_pos", "for_pos", "go_pos", "defer_pos", "colon", "arrow", "switch_pos",
    "select_pos", "case", "name_pos", "value_pos", "lbrack", "rbrack", "ellipsis", "star", "op_pos",
      "map_pos", "begin", "struct_pos", "interface_pos"]

open Outline.Line (positionFields)

mutual

/-- Kinds and names are labels. The fields of positions have their role, and no other leaves have
names like theirs. -/
def Outline.IsPlain : Outline → Prop
  | .node kind entries => isLabel kind = true ∧ PlainEntries entries

def PlainEntries : List Entry → Prop
  | [] => True
  | ⟨name, role, value⟩ :: entries =>
    isLabel name = true ∧ (role = .position ↔ value.isPos = true) ∧ value.IsPlain name ∧
    PlainEntries entries

def Value.IsPlain (name : String) : Value → Prop
  | .token s => IsToken s ∧ name ∉ positionFields
  | .node o => o.IsPlain
  | .nodes os => PlainNodes os
  | .pos _ => name ∈ positionFields
  | .text _ => name ∉ positionFields
  | .absent => name ∉ positionFields

def PlainNodes : List Outline → Prop
  | [] => True
  | o :: os => o.IsPlain ∧ PlainNodes os

end

theorem Value.isPos_select (f : Filter) (v : Value) : (v.select f).isPos = v.isPos := by
  cases v <;> rw [Value.select] <;> rfl

mutual

theorem Outline.IsPlain.select (f : Filter) : ∀ {o : Outline}, o.IsPlain → (o.select f).IsPlain
  | .node _ _, h => by
    rw [Outline.IsPlain] at h
    rw [Outline.select, Outline.IsPlain]
    exact ⟨h.1, h.2.select f⟩

theorem PlainEntries.select (f : Filter) : ∀ {entries : List Entry}, PlainEntries entries →
    PlainEntries (selectEntries f entries)
  | [], _ => by rw [selectEntries, PlainEntries]; trivial
  | ⟨_, _, v⟩ :: _, h => by
    rw [PlainEntries] at h
    rw [selectEntries]
    split
    · rw [PlainEntries, v.isPos_select]
      exact ⟨h.1, h.2.1, h.2.2.1.select f, h.2.2.2.select f⟩
    · exact h.2.2.2.select f

theorem Value.IsPlain.select (f : Filter) {name : String} :
    ∀ {v : Value}, v.IsPlain name → (v.select f).IsPlain name
  | .node _, h => by
    rw [Value.IsPlain] at h
    rw [Value.select, Value.IsPlain]
    exact h.select f
  | .nodes _, h => by
    rw [Value.IsPlain] at h
    rw [Value.select, Value.IsPlain]
    exact h.select f
  | .pos _, h | .text _, h | .token _, h | .absent, h => by rwa [Value.select]

theorem PlainNodes.select (f : Filter) :
    ∀ {os : List Outline}, PlainNodes os → PlainNodes (selectNodes f os)
  | [], _ => by rw [selectNodes, PlainNodes]; trivial
  | _ :: _, h => by
    rw [PlainNodes] at h
    rw [selectNodes, PlainNodes]
    exact ⟨h.1.select f, h.2.select f⟩

end

theorem isLabel.ne_nil (h : isLabel s = true) : s.toList ≠ [] := by
  simp only [isLabel, Bool.and_eq_true, bne_iff_ne] at h
  simpa using h.1

theorem isLabel.notMem (h : isLabel s = true) {c : Char} (hc : c.isAlpha = false ∧ c ≠ '_') :
    c ∉ s.toList := by
  simp only [isLabel, Bool.and_eq_true, all_eq_true, Bool.or_eq_true, beq_iff_eq] at h
  intro hm
  rcases h.2 c hm with h | h
  · simp [hc.1] at h
  · exact hc.2 h

/-- What is shown of a value that stands on one line. -/
def Value.leaf? (m : SourceMap) : Value → Option String
  | .pos p => some (m.position p).text
  | .text s => some (Text.quoteString s)
  | .token s => some s
  | .absent => some "nil"
  | .node _ => none
  | .nodes _ => none

section Leaf

variable {m : SourceMap} {v : Value} {name s : String}

theorem Value.lines_of_leaf (h : v.leaf? m = some s) (level : Nat) (label : String) :
    v.lines m level label = [⟨level, label ++ s⟩] := by
  cases v <;> simp [Value.leaf?] at h <;> subst h <;> simp [Value.lines]

theorem Value.spell_of_leaf (h : v.leaf? m = some s) : v.spell m = .token s := by
  cases v <;> simp [Value.leaf?] at h <;> subst h <;> simp [Value.spell]

theorem Value.isLeaf_of_leaf (hm : '\n' ∉ m.name.toList) (hv : v.IsPlain name)
    (h : v.leaf? m = some s) : IsLeaf s := by
  cases v with
  | pos p =>
    obtain rfl := Option.some.inj h
    have hname : '\n' ∉ (m.position p).name.toList := by
      cases p with
      | none => exact (by decide : '\n' ∉ Position.unknown.name.toList)
      | some offset => exact hm
    exact ⟨Position.newline_notMem_text hname, Position.getLast?_text _⟩
  | text t =>
    obtain rfl := Option.some.inj h
    refine ⟨Text.newline_notMem_quoteString t, ?_⟩
    rw [Text.quoteString, String.toList_ofList, getLast?_append]
    intro hc
    cases hc
  | token t =>
    obtain rfl := Option.some.inj h
    rw [Value.IsPlain] at hv
    exact hv.1.1
  | absent =>
    obtain rfl := Option.some.inj h
    decide
  | node o => cases h
  | nodes os => cases h

end Leaf

theorem Value.lines_eq_cons (m : SourceMap) (v : Value) (level : Nat) (label : String) :
    ∃ t rest, v.lines m level label = ⟨level, label ++ t⟩ :: rest := by
  cases hv : v.leaf? m with
  | some s => exact ⟨s, [], v.lines_of_leaf hv level label⟩
  | none =>
    cases v with
    | node o =>
      obtain ⟨kind, entries⟩ := o
      simp only [Value.lines, Outline.lines, String.append_assoc]
      exact ⟨_, _, rfl⟩
    | nodes os =>
      simp only [Value.lines, String.append_assoc]
      exact ⟨_, _, rfl⟩
    | _ => cases hv

theorem entryLines_ne_close (m : SourceMap) {e : Entry} {es : List Entry} {level : Nat} :
    entryLines m (level + 1) (e :: es) ++ r ≠ ⟨level, t⟩ :: r' := by
  obtain ⟨name, role, v⟩ := e
  obtain ⟨s, rest, hv⟩ := v.lines_eq_cons m (level + 1) (name ++ ": ")
  rw [entryLines, hv]
  exact fun h => absurd (congrArg Line.level (List.cons.inj h).1) (by simp)

theorem nodeLines_ne_close (m : SourceMap) {level i : Nat} :
    nodeLines m (level + 1) i (o :: os) ++ r ≠ ⟨level, t⟩ :: r' := by
  obtain ⟨kind, entries⟩ := o
  rw [nodeLines, Outline.lines]
  exact fun h => absurd (congrArg Line.level (List.cons.inj h).1) (by simp)

theorem IsLeaf.ne_append_open (h : IsLeaf s) (t : String) : s ≠ t ++ " \x7b" := by
  rintro rfl
  exact h.2 (by simp)

theorem kind_ne_list {kind : String} (h : isLabel kind = true) (t : String) :
    kind ++ " \x7b" ≠ "[] (len = " ++ t := by
  intro ht
  have hb : '[' ∉ kind.toList := isLabel.notMem h (by decide)
  cases hk : kind.toList with
  | nil => exact isLabel.ne_nil h hk
  | cons c cs =>
    obtain ⟨rfl, -⟩ : c = '[' ∧ _ := by simpa [hk] using congrArg String.toList ht
    exact hb (by simp [hk])

theorem lines_node_ne_nodes (ho : o.IsPlain) {level : Nat} {label : String} :
    (Value.node o).lines m level label ++ rest ≠ (Value.nodes os).lines m level label ++ rest' := by
  obtain ⟨kind, entries⟩ := o
  rw [Outline.IsPlain] at ho
  intro h
  simp only [Value.lines, Outline.lines, cons_append, String.append_assoc] at h
  exact kind_ne_list ho.1 _ ((String.append_right_inj label).1
    (congrArg Line.text (List.cons.inj h).1))

/-- A label ends at its first colon. -/
theorem name_eq_of_label_eq {name name' t' : String} (h : isLabel name = true)
    (h' : isLabel name' = true) (ht : name ++ ": " ++ t = name' ++ ": " ++ t') : name = name' := by
  have ht : name.toList ++ ':' :: (' ' :: t.toList) = name'.toList ++ ':' ::
      (' ' :: t'.toList) := by
    simpa using congrArg String.toList ht
  have hcolon := isLabel.notMem (c := ':') h (by decide)
  have hcolon' := isLabel.notMem (c := ':') h' (by decide)
  exact String.toList_inj.1 (Text.eq_and_eq_of_append_cons hcolon hcolon' ht).1

theorem Value.lines_append_inj_of_leaf (hm : '\n' ∉ m.name.toList) {v v' : Value}
    {name label : String} {level : Nat} (hs : v.leaf? m = some s) (hv : v.IsPlain name)
    (h : v.lines m level label ++ rest = v'.lines m level label ++ rest') :
    v.spell m = v'.spell m ∧ rest = rest' := by
  have hleaf := Value.isLeaf_of_leaf hm hv hs
  rw [Value.lines_of_leaf hs] at h
  cases hs' : v'.leaf? m with
  | some s' =>
    rw [Value.lines_of_leaf hs'] at h
    obtain ⟨ht, hr⟩ := List.cons.inj h
    obtain rfl := (String.append_right_inj label).1 (congrArg Line.text ht)
    rw [Value.spell_of_leaf hs, Value.spell_of_leaf hs']
    exact ⟨rfl, hr⟩
  | none =>
    cases v' with
    | node o =>
      obtain ⟨kind, entries⟩ := o
      rw [Value.lines, Outline.lines, String.append_assoc] at h
      exact absurd ((String.append_right_inj label).1 (congrArg Line.text (List.cons.inj h).1))
        (hleaf.ne_append_open kind)
    | nodes os =>
      rw [Value.lines, String.append_assoc, String.append_assoc] at h
      have ht := (String.append_right_inj label).1 (congrArg Line.text (List.cons.inj h).1)
      exact absurd (by simpa [String.append_assoc] using ht)
        (hleaf.ne_append_open ("[] (len = " ++ toString os.length ++ ")"))
    | _ => nomatch hs'

mutual

theorem Outline.lines_append_inj (hm : '\n' ∉ m.name.toList) :
    ∀ {o o' : Outline} {level : Nat} {label : String} {rest rest' : List Line},
    o.IsPlain → o'.IsPlain → o.lines m level label ++ rest = o'.lines m level label ++ rest' →
      o.spell m = o'.spell m ∧ rest = rest'
  | .node kind entries, .node kind' entries', level, label, rest, rest', ho, ho', h => by
    rw [Outline.IsPlain] at ho ho'
    simp only [Outline.lines, cons_append, append_assoc, nil_append, String.append_assoc] at h
    obtain ⟨ht, hrest⟩ := List.cons.inj h
    have hk := (String.append_right_inj label).1 (congrArg Line.text ht)
    obtain rfl := (String.append_left_inj _).1 hk
    obtain ⟨hs, hr⟩ := entryLines_append_inj hm ho.2 ho'.2 hrest
    rw [Outline.spell, Outline.spell, hs]
    exact ⟨rfl, hr⟩

theorem entryLines_append_inj (hm : '\n' ∉ m.name.toList) :
    ∀ {es es' : List Entry} {level : Nat} {rest rest' : List Line},
    PlainEntries es → PlainEntries es' →
      entryLines m (level + 1) es ++ ⟨level, "\x7d"⟩ :: rest = entryLines m (level + 1) es' ++
      ⟨level, "\x7d"⟩ :: rest' →
        spellEntries m es = spellEntries m es' ∧ rest = rest'
  | [], [], level, rest, rest', _, _, h => by
    rw [entryLines, nil_append, nil_append] at h
    exact ⟨rfl, (List.cons.inj h).2⟩
  | [], _ :: _, _, _, _, _, _, h => absurd h.symm (entryLines_ne_close m)
  | _ :: _, [], _, _, _, _, _, h => absurd h (entryLines_ne_close m)
  | ⟨name, _, v⟩ :: es, ⟨name', _, v'⟩ :: es', level, rest, rest', he, he', h => by
    rw [PlainEntries] at he he'
    obtain rfl : name = name' := by
      obtain ⟨t, r, hv⟩ := v.lines_eq_cons m (level + 1) (name ++ ": ")
      obtain ⟨t', r', hv'⟩ := v'.lines_eq_cons m (level + 1) (name' ++ ": ")
      rw [entryLines, entryLines, hv, hv'] at h
      exact name_eq_of_label_eq he.1 he'.1 (congrArg Line.text (List.cons.inj h).1)
    simp only [entryLines, append_assoc] at h
    obtain ⟨hs, hrest⟩ := Value.lines_append_inj hm he.2.2.1 he'.2.2.1 h
    obtain ⟨hss, hr⟩ := entryLines_append_inj hm he.2.2.2 he'.2.2.2 hrest
    rw [spellEntries, spellEntries, hs, hss]
    exact ⟨rfl, hr⟩

theorem Value.lines_append_inj (hm : '\n' ∉ m.name.toList) :
    ∀ {v v' : Value} {level : Nat} {name label : String} {rest rest' : List Line},
    v.IsPlain name → v'.IsPlain name →
    v.lines m level label ++ rest = v'.lines m level label ++ rest' →
      v.spell m = v'.spell m ∧ rest = rest'
  | .node o, v', level, name, label, rest, rest', hv, hv', h => by
    cases hs' : v'.leaf? m with
    | some s' =>
      obtain ⟨hs, hr⟩ := Value.lines_append_inj_of_leaf hm hs' hv' h.symm
      exact ⟨hs.symm, hr.symm⟩
    | none =>
      rw [Value.IsPlain] at hv
      cases v' with
      | node o' =>
        rw [Value.IsPlain] at hv'
        rw [Value.lines, Value.lines] at h
        obtain ⟨hs, hr⟩ := Outline.lines_append_inj hm hv hv' h
        rw [Value.spell, Value.spell, hs]
        exact ⟨rfl, hr⟩
      | nodes os' => exact absurd h (lines_node_ne_nodes hv)
      | _ => nomatch hs'
  | .nodes os, v', level, name, label, rest, rest', hv, hv', h => by
    cases hs' : v'.leaf? m with
    | some s' =>
      obtain ⟨hs, hr⟩ := Value.lines_append_inj_of_leaf hm hs' hv' h.symm
      exact ⟨hs.symm, hr.symm⟩
    | none =>
      rw [Value.IsPlain] at hv
      cases v' with
      | node o' =>
        rw [Value.IsPlain] at hv'
        exact absurd h.symm (lines_node_ne_nodes hv')
      | nodes os' =>
        rw [Value.IsPlain] at hv'
        simp only [Value.lines, cons_append, append_assoc, nil_append] at h
        obtain ⟨hs, hr⟩ := nodeLines_append_inj hm hv hv' (List.cons.inj h).2
        rw [Value.spell, Value.spell, hs]
        exact ⟨rfl, hr⟩
      | _ => nomatch hs'
  | .pos _, _, _, _, _, _, _, hv, _, h => Value.lines_append_inj_of_leaf hm rfl hv h
  | .text _, _, _, _, _, _, _, hv, _, h => Value.lines_append_inj_of_leaf hm rfl hv h
  | .token _, _, _, _, _, _, _, hv, _, h => Value.lines_append_inj_of_leaf hm rfl hv h
  | .absent, _, _, _, _, _, _, hv, _, h => Value.lines_append_inj_of_leaf hm rfl hv h

theorem nodeLines_append_inj (hm : '\n' ∉ m.name.toList) :
    ∀ {os os' : List Outline} {level i : Nat} {rest rest' : List Line},
    PlainNodes os → PlainNodes os' →
      nodeLines m (level + 1) i os ++ ⟨level, "\x7d"⟩ :: rest = nodeLines m (level + 1) i os' ++
      ⟨level, "\x7d"⟩ :: rest' →
        spellNodes m os = spellNodes m os' ∧ rest = rest'
  | [], [], level, i, rest, rest', _, _, h => by
    rw [nodeLines, nil_append, nil_append] at h
    exact ⟨rfl, (List.cons.inj h).2⟩
  | [], _ :: _, _, _, _, _, _, _, h => absurd h.symm (nodeLines_ne_close m)
  | _ :: _, [], _, _, _, _, _, _, h => absurd h (nodeLines_ne_close m)
  | o :: os, o' :: os', level, i, rest, rest', ho, ho', h => by
    rw [PlainNodes] at ho ho'
    simp only [nodeLines, append_assoc] at h
    obtain ⟨hs, hrest⟩ := Outline.lines_append_inj hm ho.1 ho'.1 h
    obtain ⟨hss, hr⟩ := nodeLines_append_inj hm ho.2 ho'.2 hrest
    rw [spellNodes, spellNodes, hs, hss]
    exact ⟨rfl, hr⟩

end

/-- A line that holds no line break and does not begin with a dot. -/
def Outline.Line.Clean (line : Line) : Prop :=
  '\n' ∉ line.text.toList ∧ line.text.toList.head? ≠ some '.'

def IsCaption (s : String) : Prop :=
  s.toList ≠ [] ∧ ':' ∉ s.toList ∧ '\n' ∉ s.toList ∧ '.' ∉ s.toList

theorem isLabel.isCaption (h : isLabel s = true) : IsCaption s :=
  ⟨isLabel.ne_nil h, isLabel.notMem h (by decide), isLabel.notMem h (by decide),
    isLabel.notMem h (by decide)⟩

theorem isCaption_number (i : Nat) : IsCaption (toString i) :=
  ⟨by simp [Nat.toDigits_ne_nil], Position.notMem_toString i rfl, Position.notMem_toString i rfl,
    Position.notMem_toString i rfl⟩

theorem IsCaption.clean (h : IsCaption s) (ht : '\n' ∉ t.toList) (level : Nat) :
    Line.Clean ⟨level, s ++ t⟩ := by
  obtain ⟨hne, -, hline, hdot⟩ := h
  refine ⟨by simpa using ⟨hline, ht⟩, ?_⟩
  cases hs : s.toList with
  | nil => exact absurd hs hne
  | cons c cs =>
    simp only [hs, mem_cons, not_or] at hdot
    simpa [hs] using Ne.symm hdot.1

theorem clean_close (level : Nat) : Line.Clean ⟨level, "\x7d"⟩ :=
  (by decide : '\n' ∉ "\x7d".toList ∧ "\x7d".toList.head? ≠ some '.')

/-- What can stand in front of a node: nothing at the root of an outline, else a name or a number
with a colon. -/
inductive IsTag : String → Prop
  | root : IsTag ""
  | named {name : String} (h : IsCaption name) : IsTag (name ++ ": ")

theorem IsTag.clean {label kind : String} (h : IsTag label) (hk : isLabel kind = true)
    (level : Nat) :
    Line.Clean ⟨level, label ++ kind ++ " \x7b"⟩ := by
  have hn : '\n' ∉ (kind ++ " \x7b").toList := by simpa using isLabel.notMem hk (by decide)
  cases h with
  | root =>
    rw [String.empty_append]
    exact (isLabel.isCaption hk).clean (by decide) level
  | named h =>
    rw [String.append_assoc, String.append_assoc]
    exact h.clean (by simpa using isLabel.notMem hk (by decide)) level

def listHeader (level : Nat) (name : String) (n : Nat) : Line :=
  ⟨level, name ++ ": " ++ ("[] (len = " ++ toString n ++ ") \x7b")⟩

theorem Value.lines_nodes (m : SourceMap) (os : List Outline) (level : Nat) (name : String) :
    (Value.nodes os).lines m level (name ++ ": ") =
      listHeader level name os.length :: (nodeLines m (level + 1) 0 os ++ [⟨level, "\x7d"⟩]) := by
  simp only [Value.lines, listHeader, String.append_assoc, cons_append]

/-- Lines of one level: fields with leaves, and nodes and lists with the lines of the next level in
between. -/
inductive Outline.Blocks (m : SourceMap) : Nat → List Line → Prop
  | nil {level : Nat} : Blocks m level []
  | leaf {level : Nat} {name s : String} {v : Value} {ls : List Line} (hn : isLabel name = true)
      (hv : v.IsPlain name)
      (hs : v.leaf? m = some s) (h : Blocks m level ls) : Blocks m level
      (⟨level, name ++ ": " ++ s⟩ :: ls)
  | node {level : Nat} {label kind : String} {body ls : List Line} (hl : IsTag label)
      (hk : isLabel kind = true) (hb : Blocks m (level + 1) body) (h : Blocks m level ls) :
      Blocks m level (⟨level, label ++ kind ++ " \x7b"⟩ :: (body ++ ⟨level, "\x7d"⟩ :: ls))
  | list {level : Nat} {name : String} {os : List Outline} {ls : List Line}
      (hn : isLabel name = true)
      (ho : PlainNodes os) (hb : Blocks m (level + 1) (nodeLines m (level + 1) 0 os))
      (h : Blocks m level ls) :
      Blocks m level (listHeader level name os.length ::
      (nodeLines m (level + 1) 0 os ++ ⟨level, "\x7d"⟩ :: ls))

mutual

theorem Outline.blocks : ∀ {o : Outline} {level : Nat} {label : String} {ls : List Line},
    o.IsPlain → IsTag label → Outline.Blocks m level ls →
    Outline.Blocks m level (o.lines m level label ++ ls)
  | .node kind entries, level, label, ls, ho, hl, h => by
    rw [Outline.IsPlain] at ho
    have hb : Outline.Blocks m (level + 1) (entryLines m (level + 1) entries ++ []) :=
      blocks_entryLines ho.2 .nil
    rw [append_nil] at hb
    simpa [Outline.lines] using Outline.Blocks.node hl ho.1 hb h

theorem blocks_entryLines : ∀ {es : List Entry} {level : Nat} {ls : List Line},
    PlainEntries es → Outline.Blocks m level ls →
    Outline.Blocks m level (entryLines m level es ++ ls)
  | [], level, ls, _, h => by simpa [entryLines] using h
  | ⟨name, _, v⟩ :: es, level, ls, he, h => by
    rw [PlainEntries] at he
    rw [entryLines, append_assoc]
    exact Value.blocks he.1 he.2.2.1 (blocks_entryLines he.2.2.2 h)

theorem Value.blocks : ∀ {v : Value} {level : Nat} {name : String} {ls : List Line},
    isLabel name = true → v.IsPlain name → Outline.Blocks m level ls →
      Outline.Blocks m level (v.lines m level (name ++ ": ") ++ ls)
  | .node o, level, name, ls, hn, hv, h => by
    rw [Value.IsPlain] at hv
    rw [Value.lines]
    exact Outline.blocks hv (.named (isLabel.isCaption hn)) h
  | .nodes os, level, name, ls, hn, hv, h => by
    rw [Value.IsPlain] at hv
    have hb : Outline.Blocks m (level + 1) (nodeLines m (level + 1) 0 os ++ []) :=
      blocks_nodeLines 0 hv .nil
    rw [append_nil] at hb
    simpa [Value.lines_nodes] using Outline.Blocks.list hn hv hb h
  | .pos _, _, _, _, hn, hv, h | .text _, _, _, _, hn, hv, h
  | .token _, _, _, _, hn, hv, h | .absent, _, _, _, hn, hv, h => by
    rw [Value.lines_of_leaf (m := m) rfl]
    exact .leaf hn hv rfl h

theorem blocks_nodeLines : ∀ {os : List Outline} {level : Nat} (i : Nat) {ls : List Line},
    PlainNodes os → Outline.Blocks m level ls →
    Outline.Blocks m level (nodeLines m level i os ++ ls)
  | [], level, i, ls, _, h => by simpa [nodeLines] using h
  | o :: os, level, i, ls, ho, h => by
    rw [PlainNodes] at ho
    rw [nodeLines, append_assoc]
    exact Outline.blocks ho.1 (.named (isCaption_number i)) (blocks_nodeLines (i + 1) ho.2 h)

end

theorem Outline.blocks_lines (h : o.IsPlain) : Blocks m 0 (o.lines m 0 "") := by
  simpa using Outline.blocks h .root Blocks.nil

theorem Outline.Blocks.clean (hm : '\n' ∉ m.name.toList) {level : Nat} (h : Blocks m level ls) :
    ∀ line ∈ ls, line.Clean := by
  induction h with
  | nil => simp
  | @leaf level name s v ls hn hv hs _ ih =>
    refine forall_mem_cons.2 ⟨?_, ih⟩
    rw [String.append_assoc]
    exact (isLabel.isCaption hn).clean (by simpa using (Value.isLeaf_of_leaf hm hv hs).1) level
  | @node level label kind body ls hl hk _ _ ihb ih =>
    simp only [forall_mem_cons, forall_mem_append]
    exact ⟨hl.clean hk level, ihb, clean_close level, ih⟩
  | @list level name os ls hn _ _ _ ihb ih =>
    simp only [forall_mem_cons, forall_mem_append]
    refine ⟨?_, ihb, clean_close level, ih⟩
    rw [listHeader, String.append_assoc]
    refine (isLabel.isCaption hn).clean ?_ level
    simp only [String.toList_append, mem_append, not_or]
    exact ⟨by decide, ⟨by decide, Position.notMem_toString _ rfl⟩, by decide⟩

theorem indent_append_inj {a b : Nat} {t t' : List Char} (ht : t.head? ≠ some '.')
    (ht' : t'.head? ≠ some '.') (h : (List.replicate a ['.', ' ', ' ']).flatten ++ t =
      (List.replicate b ['.', ' ', ' ']).flatten ++ t') :
    a = b ∧ t = t' := by
  induction a generalizing b with
  | zero =>
    cases b with
    | zero => exact ⟨rfl, by simpa using h⟩
    | succ b => exact absurd (by rw [show t = _ by simpa using h]; rfl) ht
  | succ a ih =>
    cases b with
    | zero => exact absurd (by rw [show t' = _ by simpa using h.symm]; rfl) ht'
    | succ b =>
      obtain ⟨rfl, hr⟩ := ih (b := b) (by simpa [replicate_succ] using h)
      exact ⟨rfl, hr⟩

def Outline.Line.shown (n : Nat) (line : Line) : List Char :=
  (lineNumber n).toList ++ ' ' :: ' ' ::
    ((List.replicate line.level ['.', ' ', ' ']).flatten ++ line.text.toList)

theorem Outline.Line.toList_render (n : Nat) (line : Line) :
    (line.render n).toList = line.shown n ++ ['\n'] := by
  simp [Line.render, Line.shown, String.toList_join, flatMap_def]

theorem Outline.Line.newline_notMem_shown {line : Line} (h : line.Clean) (n : Nat) :
    '\n' ∉ line.shown n := by
  have hnumber : '\n' ∉ (lineNumber n).toList := by
    rw [lineNumber, String.toList_append, mem_append, not_or, String.toList_ofList]
    exact ⟨by simp [mem_replicate], Position.notMem_toString n rfl⟩
  simp [Line.shown, hnumber, h.1, mem_replicate]

theorem Outline.Line.shown_inj {line line' : Line} (h : line.Clean) (h' : line'.Clean) {n : Nat}
    (hs : line.shown n = line'.shown n) : line = line' := by
  have hs := (List.cons.inj (List.cons.inj (append_cancel_left hs)).2).2
  obtain ⟨hl, ht⟩ := indent_append_inj h.2 h'.2 hs
  obtain ⟨level, text⟩ := line
  obtain ⟨level', text'⟩ := line'
  exact congr (congrArg Line.mk hl) (String.toList_inj.1 ht)

theorem Outline.lines_eq_of_join_eq {ls' : List Line} (k : Nat) (h : ∀ line ∈ ls, line.Clean)
    (h' : ∀ line ∈ ls', line.Clean)
    (hj : (ls.mapIdx fun i line => line.render (i + k)).flatMap String.toList =
      (ls'.mapIdx fun i line => line.render (i + k)).flatMap String.toList) :
    ls = ls' := by
  induction ls generalizing ls' k with
  | nil =>
    cases ls' with
    | nil => rfl
    | cons line' ls' => simp [Line.toList_render] at hj
  | cons line ls ih =>
    cases ls' with
    | nil => simp [Line.toList_render] at hj
    | cons line' ls' =>
      simp only [forall_mem_cons] at h h'
      simp only [mapIdx_cons, flatMap_cons, Line.toList_render, append_assoc, singleton_append,
        Nat.zero_add, Nat.add_assoc, Nat.add_comm 1 k] at hj
      obtain ⟨hline, hrest⟩ := Text.eq_and_eq_of_append_cons (Line.newline_notMem_shown h.1 k)
        (Line.newline_notMem_shown h'.1 k) hj
      rw [Line.shown_inj h.1 h'.1 hline, ih (k + 1) h.2 h'.2 hrest]

theorem Outline.spell_eq_of_render_eq (hm : '\n' ∉ m.name.toList) {f : Filter} {o' : Outline}
    (ho : o.IsPlain) (ho' : o'.IsPlain) (h : o.render m f = o'.render m f) :
    (o.select f).spell m = (o'.select f).spell m := by
  have hlines : (o.select f).lines m 0 "" = (o'.select f).lines m 0 "" := by
    refine Outline.lines_eq_of_join_eq 0 ((Outline.blocks_lines (ho.select f)).clean hm)
      ((Outline.blocks_lines (ho'.select f)).clean hm) ?_
    simpa [Outline.render, String.toList_join] using congrArg String.toList h
  exact (Outline.lines_append_inj hm (ho.select f) (ho'.select f) (congrArg (· ++ []) hlines)).1

end GoFun
