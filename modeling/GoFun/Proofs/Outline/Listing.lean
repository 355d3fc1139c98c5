import GoFun.Proofs.Outline.Node

/-!
# Outlines are numbered and balanced

The text of an outline is a list of numbered lines. Every line that opens a block is closed by a
brace at its own depth, with deeper lines only in between, and every such brace closes a line. A
list holds as many nodes as its first line says.
-/
namespace GoFun

open Outline (Line)

variable {m : SourceMap} {ls : List Line}

namespace Outline.Line

def closing (line : Line) : Line := ⟨line.level, "\x7d"⟩

/-- The lines of a block that stand directly below the line that opens it. -/
def below (line : Line) (body : List Line) : List Line :=
  body.filter fun x => x.level == line.level + 1 && x.text != "\x7d"

/-- What stands directly below the first line of a list are as many nodes as it says, with their
numbers. -/
def Counts (line : Line) (body : List Line) : Prop :=
  ∀ n, line.value = "[] (len = " ++ toString n ++ ") \x7b" → ∃ kinds : List String,
    kinds.length = n ∧
    line.below body = kinds.mapIdx fun i kind =>
    ⟨line.level + 1, toString i ++ ": " ++ kind ++ " \x7b"⟩

/-- The lines between an opening line and its closing line. -/
structure Encloses (line : Line) (body : List Line) : Prop where
  opens : line.opens = true
  deeper : ∀ x ∈ body, line.level < x.level
  counts : line.Counts body

end Outline.Line

/-- Opening lines and closing lines belong together in pairs. -/
structure Outline.Paired (ls : List Line) : Prop where
  opened : ∀ before line after, ls = before ++ line :: after → line.opens = true →
    ∃ body rest, after = body ++ line.closing :: rest ∧ line.Encloses body
  closed : ∀ before line after, ls = before ++ line :: after → line.text = "\x7d" →
    ∃ front opener body, before = front ++ opener :: body ∧ opener.closing = line ∧
    opener.Encloses body

/-- Paired lines of which the last one closes the first one. -/
structure Outline.Balanced (ls : List Line) : Prop extends Outline.Paired ls where
  whole : ∃ opener body, ls = opener :: body ++ [opener.closing] ∧ opener.Encloses body

/-- A line behind its number, which is set to the right in six columns. -/
def Outline.Line.columns (k : Nat) (line : Line) : List Char :=
  (toString k).toList.leftpad 6 ' ' ++ ' ' :: ' ' ::
    ((List.replicate line.level ['.', ' ', ' ']).flatten ++ line.text.toList)

/-- A text that is made of numbered lines, each with a line break at its end and with none
inside. -/
structure Outline.Shows (text : String) (ls : List Line) : Prop where
  text_eq : text.toList = (ls.mapIdx fun k line => line.columns k ++ ['\n']).flatten
  clean : ∀ line ∈ ls, line.Clean

namespace Outline.Paired

variable {a b ls body : List Line} {line : Line}

theorem ne_close_of_opens (h : line.opens = true) : line.text ≠ "\x7d" := by
  obtain ⟨level, text⟩ := line
  rintro rfl
  simp [not_opens_close] at h

theorem nil : Paired [] where
  opened before line after h := by simp at h
  closed before line after h := by simp at h

theorem leaf (ho : line.opens = false) (hc : line.text ≠ "\x7d") : Paired [line] := by
  have hself : ∀ {before x after}, [line] = before ++ x :: after → x = line := by
    intro before x after h
    have hx : x ∈ [line] := by rw [h]; simp
    simpa using hx
  exact ⟨fun before x after h hx => by simp [hself h, ho] at hx, fun before x after h hx =>
    absurd (hself h ▸ hx) hc⟩

theorem append (ha : Paired a) (hb : Paired b) : Paired (a ++ b) where
  opened before line after h ho := by
    rcases List.append_eq_append_iff.1 h with ⟨mid, rfl, hb'⟩ | ⟨mid, rfl, ha'⟩
    · exact hb.opened mid line after hb' ho
    · cases mid with
      | nil => exact hb.opened [] line after ha'.symm ho
      | cons x mid =>
        obtain ⟨rfl, rfl⟩ := List.cons.inj ha'
        obtain ⟨body, rest, rfl, hbody⟩ := ha.opened before line mid rfl ho
        exact ⟨body, rest ++ b, by simp, hbody⟩
  closed before line after h hc := by
    rcases List.append_eq_append_iff.1 h with ⟨mid, rfl, hb'⟩ | ⟨mid, rfl, ha'⟩
    · obtain ⟨front, opener, body, rfl, hbody⟩ := hb.closed mid line after hb' hc
      exact ⟨a ++ front, opener, body, by simp, hbody⟩
    · cases mid with
      | nil =>
        obtain ⟨front, opener, body, hnil, -⟩ := hb.closed [] line after ha'.symm hc
        simp at hnil
      | cons x mid =>
        obtain ⟨rfl, rfl⟩ := List.cons.inj ha'
        exact ha.closed before line mid rfl hc

/-- Where the lines of a block stand: the first one, inside, or the last one. -/
theorem split_block {before after : List Line} {x : Line}
    (h : line :: body ++ [line.closing] = before ++ x :: after) :
    (before = [] ∧ x = line ∧ after = body ++ [line.closing]) ∨
    (∃ front mid, before = line :: front ∧ body = front ++ x :: mid ∧ after = mid ++
      [line.closing]) ∨
    (before = line :: body ∧ x = line.closing ∧ after = []) := by
  cases before with
  | nil =>
    obtain ⟨rfl, rfl⟩ := List.cons.inj h
    exact .inl ⟨rfl, rfl, rfl⟩
  | cons y front =>
    obtain ⟨rfl, htail⟩ := List.cons.inj h
    rcases List.append_eq_append_iff.1 htail with ⟨mid, rfl, hlast⟩ | ⟨mid, rfl, hlast⟩
    · cases mid with
      | nil =>
        obtain ⟨rfl, rfl⟩ := List.cons.inj hlast
        exact .inr (.inr ⟨by simp, rfl, rfl⟩)
      | cons y mid => simp at hlast
    · cases mid with
      | nil =>
        obtain ⟨rfl, rfl⟩ := List.cons.inj hlast
        exact .inr (.inr ⟨by simp, rfl, rfl⟩)
      | cons y mid =>
        obtain ⟨rfl, rfl⟩ := List.cons.inj hlast
        exact .inr (.inl ⟨front, mid, rfl, rfl, rfl⟩)

theorem block (h : line.Encloses body) (hb : Paired body) :
    Paired (line :: body ++ [line.closing]) where
  opened before x after hx ho := by
    rcases split_block hx with ⟨rfl, rfl, rfl⟩ | ⟨front, mid, rfl, hbody, rfl⟩ | ⟨rfl, rfl, rfl⟩
    · exact ⟨body, [], rfl, h⟩
    · obtain ⟨inner, rest, rfl, hinner⟩ := hb.opened front x mid hbody ho
      exact ⟨inner, rest ++ [line.closing], by simp, hinner⟩
    · simp [Line.closing, not_opens_close] at ho
  closed before x after hx hc := by
    rcases split_block hx with ⟨rfl, rfl, rfl⟩ | ⟨front, mid, rfl, hbody, rfl⟩ | ⟨rfl, rfl, rfl⟩
    · exact absurd hc (ne_close_of_opens h.opens)
    · obtain ⟨front', opener, inner, rfl, hinner⟩ := hb.closed front x mid hbody hc
      exact ⟨line :: front', opener, inner, rfl, hinner⟩
    · exact ⟨[], line, body, rfl, rfl, h⟩

end Outline.Paired

theorem Outline.Blocks.le_level {level : Nat} (h : Blocks m level ls) :
    ∀ x ∈ ls, level ≤ x.level := by
  induction h with
  | nil => simp
  | leaf _ _ _ _ ih => simpa using ih
  | node _ _ _ _ ihb ih | list _ _ _ _ ihb ih =>
    simp only [List.forall_mem_cons, List.forall_mem_append]
    exact ⟨Nat.le_refl _, fun x hx => Nat.le_of_succ_le (ihb x hx), Nat.le_refl _, ih⟩

theorem IsTag.header_counts {label kind : String} (hl : IsTag label) (hk : isLabel kind = true)
    (level : Nat) (body : List Line) : (Line.mk level (label ++ kind ++ " \x7b")).Counts body := by
  intro n hn
  have hlist := hn.trans String.append_assoc
  rcases hl.header_value hk level with h | h
  · rw [h] at hlist
    simpa using congrArg String.toList hlist
  · exact absurd (h.symm.trans hlist) (kind_ne_list hk _)

/-- Of the lines of a list, those of its own level are the first lines of its nodes and the braces
that close them. -/
theorem below_nodeLines {line : Line} {os : List Outline} (h : PlainNodes os) (i : Nat) :
    line.below (nodeLines m (line.level + 1) i os) =
      (os.map Outline.kind).mapIdx fun j kind =>
      ⟨line.level + 1, toString (i + j) ++ ": " ++ kind ++ " \x7b"⟩ := by
  induction os generalizing i with
  | nil => simp [nodeLines, Outline.Line.below]
  | cons o os ih =>
    obtain ⟨kind, entries⟩ := o
    rw [PlainNodes, Outline.IsPlain] at h
    have hinner : (entryLines m (line.level + 2) entries).filter
        (fun x => x.level == line.level + 1 && x.text != "\x7d") = [] := by
      refine List.filter_eq_nil_iff.2 fun x hx => ?_
      have hdeep := (blocks_entryLines h.1.2 .nil).le_level x (by simpa using hx)
      simp
      omega
    have hheader : (toString i ++ ": " ++ kind ++ " \x7b" != "\x7d") = true :=
      bne_iff_ne.2 (Outline.Paired.ne_close_of_opens (opens_append (line.level + 1) _))
    have hrest := ih h.2 (i + 1)
    rw [Outline.Line.below] at hrest
    simp only [Outline.Line.below, nodeLines, Outline.lines, List.filter_append, List.filter_cons,
      hinner, hrest, hheader, beq_self_eq_true, Bool.and_true, if_true, bne_self_eq_false,
      Bool.and_false, Bool.false_eq_true, if_false, List.filter_nil, List.append_nil, List.map_cons,
      List.mapIdx_cons, Outline.kind, Nat.add_zero, Nat.add_assoc, Nat.add_comm 1, List.cons_append,
        List.nil_append]

/-- A list holds as many nodes as its first line says. -/
theorem listHeader_counts {name : String} (hn : isLabel name = true) (m : SourceMap) (level : Nat)
    {os : List Outline} (h : PlainNodes os) :
    (listHeader level name os.length).Counts (nodeLines m (level + 1) 0 os) := by
  intro n hvalue
  rw [value_listHeader hn] at hvalue
  obtain rfl : os.length = n := Position.toString_inj (by simpa using congrArg String.toList hvalue)
  have hbelow := @below_nodeLines m (listHeader level name os.length) os h 0
  simp only [Nat.zero_add] at hbelow
  exact ⟨os.map Outline.kind, by simp, hbelow⟩

theorem Outline.Blocks.paired (hm : '\n' ∉ m.name.toList) {level : Nat} (h : Blocks m level ls) :
    Paired ls := by
  induction h with
  | nil => exact .nil
  | @leaf level name s v ls hn hv hs _ ih =>
    refine Paired.append (.leaf (not_opens_of_getLast? (Value.isLeaf_of_leaf hm hv hs).2 level name)
      fun h => ?_) ih
    have hcolon : ':' ∉ "\x7d".toList := by decide
    exact hcolon (by rw [← h]; simp)
  | @node level label kind body ls hl hk hb _ ihb ih =>
    simpa [Line.closing] using (Paired.block ⟨opens_append level _, hb.le_level,
      hl.header_counts hk level _⟩ ihb).append ih
  | @list level name os ls hn ho hb _ ihb ih =>
    simpa [Line.closing, listHeader] using
      (Paired.block ⟨opens_listHeader level name _, hb.le_level, listHeader_counts hn m level ho⟩
        ihb).append ih

theorem Outline.Line.columns_eq_shown (k : Nat) (line : Line) : line.columns k = line.shown k := by
  simp only [columns, shown, lineNumber, List.leftpad, String.toList_append, String.toList_ofList,
    String.length_toList]

namespace TreeNode

/-- Every outline is shown as numbered lines in balanced blocks, whatever the filter. -/
theorem outline_balanced (n : TreeNode) (f : Filter) {m : SourceMap} (hm : '\n' ∉ m.name.toList) :
    ∃ ls, Outline.Shows (n.outline.render m f) ls ∧ Outline.Balanced ls := by
  have hplain : (n.outline.select f).IsPlain := n.outline_plain.select f
  have hblocks := Outline.blocks_lines (m := m) hplain
  refine ⟨(n.outline.select f).lines m 0 "", ⟨?_, hblocks.clean hm⟩, hblocks.paired hm, ?_⟩
  · simp [Outline.render, String.toList_join, Outline.Line.columns_eq_shown,
      ← Outline.Line.toList_render, List.flatMap_def, List.mapIdx_eq_zipIdx_map, Function.comp_def]
  · cases ho : n.outline.select f with
    | node kind entries =>
      rw [ho, Outline.IsPlain] at hplain
      rw [Outline.lines]
      have hbody : Outline.Blocks m 1 (entryLines m 1 entries ++ []) :=
        blocks_entryLines hplain.2 .nil
      rw [List.append_nil] at hbody
      exact ⟨_, _, rfl, opens_append 0 _, hbody.le_level, IsTag.root.header_counts hplain.1 0 _⟩

/-- The text of the argument holds a brace behind a line break. -/
theorem outline_balanced_call :
    let call : Expr := .call (.ident ⟨some 0, "f", none⟩) (some 1) [.lit ⟨some 2, .string, "`\x7d\n \x7b`"⟩] none (some 8)
    '\n' ∉ "a.go".toList ∧ ∃ ls,
      Outline.Shows ((TreeNode.expr call).outline.render (.ofText "a.go" "f(`\x7d\n \x7b`)") .all) ls ∧ Outline.Balanced ls :=
  ⟨by decide, outline_balanced _ _ (by decide)⟩

end TreeNode

end GoFun
