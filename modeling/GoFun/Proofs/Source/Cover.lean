import GoFun.Proofs.Grammar.Seated
import GoFun.Proofs.Grammar.Spelled
import GoFun.Proofs.Tree.LeafToken
import GoFun.Source.Unit

/-!
# Leaves cover the text

The leaves of a unit stand in its text where their positions say, they do not overlap, and between
them there is nothing but blanks, line breaks, whole comments, whole keywords and signs.
-/
namespace GoFun

open Parser

variable {cs pre : List Char} {l : Leaf} {ls : List Leaf} {o : Nat}

theorem Parser.utf8Length_append (cs ds : List Char) :
    utf8Length (cs ++ ds) = utf8Length cs + utf8Length ds := by
  simp [utf8Length]

theorem Parser.utf8Length_eq_zero (h : utf8Length cs = 0) : cs = [] := by
  cases cs with
  | nil => rfl
  | cons c cs =>
    have := Char.utf8Size_pos c
    simp only [utf8Length, List.map_cons, List.sum_cons] at h
    omega

theorem Parser.utf8ByteSize_eq (s : String) : s.utf8ByteSize = utf8Length s.toList := by
  have key : ∀ cs : List Char, (String.ofList cs).utf8ByteSize = utf8Length cs := by
    intro cs
    induction cs with
    | nil => rfl
    | cons c cs ih =>
      rw [String.ofList_cons, String.utf8ByteSize_append, ih]
      simp [utf8Length]
  simpa using key s.toList

/-- The text of the leaf stands at its position, counted in bytes. -/
def Leaf.Stands (cs : List Char) (l : Leaf) : Prop :=
  ∃ pre post, cs = pre ++ l.text.toList ++ post ∧ l.pos = some (utf8Length pre)

def Leaf.stop (l : Leaf) : Pos := Pos.plus l.pos l.text.utf8ByteSize

/-- The bytes of one leaf end before those of the other begin. -/
def Leaf.Apart (l m : Leaf) : Prop :=
  (∀ a ∈ l.stop, ∀ b ∈ m.pos, a ≤ b) ∨ ∀ a ∈ m.stop, ∀ b ∈ l.pos, a ≤ b

theorem Leaf.Apart.symm {m : Leaf} (h : l.Apart m) : m.Apart l := Or.symm h

/-- A piece in front of the text `r` that is part of no leaf. -/
inductive Fills (p r : List Char) : Prop
  | blank (c : Char) (hp : p = [c]) (h : Lex.isBlankOrNewline c = true)
  | comment (h : Lex.comment (p ++ r) = some (p, r))
  | keyword (h : Lex.word (p ++ r) = some (p, r)) (hk : String.ofList p ∈ Lex.keywords)
  | sign (c : Char) (hp : p = [c]) (h : Lex.isSign c = true)

/-- A stretch of text, in front of the text `after`, that is made of such pieces. -/
inductive Filler (after : List Char) : List Char → Prop
  | nil : Filler after []
  | cons {p cs : List Char} (h : Fills p (cs ++ after)) (tail : Filler after cs) : Filler after
      (p ++ cs)

/-- In a text that begins at the offset `o`, the stretch `mid` between `pre` and `post` holds no
byte of a leaf and cannot be made longer: on each side there is an end of the text or a leaf. -/
structure Gap (o : Nat) (ls : List Leaf) (pre mid post : List Char) : Prop where
  free : ∀ l ∈ ls, (∀ a ∈ l.stop, a ≤ o + utf8Length pre) ∨ ∀ a ∈ l.pos,
    o + utf8Length (pre ++ mid) ≤ a
  left : pre = [] ∨ ∃ l ∈ ls, l.stop = some (o + utf8Length pre)
  right : post = [] ∨ ∃ l ∈ ls, l.pos = some (o + utf8Length (pre ++ mid))

/-- A text from an offset on as a sequence of leaves and of pieces that are part of none. -/
inductive Woven : Nat → List Char → List Leaf → Prop
  | nil {o : Nat} : Woven o [] []
  | filler {o : Nat} {p r : List Char} {ls : List Leaf} (h : Fills p r)
      (tail : Woven (o + utf8Length p) r ls) :
      Woven o (p ++ r) ls
  | leaf {o : Nat} {p r : List Char} {ls : List Leaf} (h : p ≠ [])
      (tail : Woven (o + utf8Length p) r ls) :
      Woven o (p ++ r) (⟨some o, String.ofList p⟩ :: ls)

theorem Trail.woven {b : Bool} {stop s : Cursor} {n : Nat} (h : Trail b stop n s ls)
    (hstop : stop.rest = []) :
    Woven s.offset s.rest ls := by
  induction h with
  | stop =>
    rw [hstop]
    exact .nil
  | dot hi h ih => exact .leaf (p := ['.']) (by simp) ih
  | @piece o cs p r k n m ls hn ht h ih =>
    obtain ⟨hp, rfl⟩ := Lex.next_append hn
    have hl := Lex.lexer_of_next hn
    cases k with
    | blank =>
      obtain ⟨c, hc, -, rfl⟩ := Lex.one_eq_some.1 hl
      exact .filler (.blank c rfl hc) ih
    | comment => exact .filler (.comment hl) ih
    | word =>
      by_cases hk : String.ofList p ∈ Lex.keywords
      · simpa [leafOf, hk] using Woven.filler (.keyword hl hk) ih
      · simpa [leafOf, hk] using Woven.leaf hp ih
    | number | string | char => exact .leaf hp ih
    | dots =>
      obtain ⟨-, rfl⟩ := Lex.text_eq_some.1 hl
      have hdot : ∀ r, Fills ['.'] r := fun r => .sign '.' rfl (by decide)
      exact .filler (p := ['.']) (hdot _)
        (.filler (p := ['.']) (hdot _) (.filler (p := ['.']) (hdot _) ih))
    | sign =>
      obtain ⟨c, hc, -, rfl⟩ := Lex.one_eq_some.1 hl
      exact .filler (.sign c rfl hc) ih

theorem Woven.stands (h : Woven o cs ls) :
    ∀ l ∈ ls, ∃ pre post, cs = pre ++ l.text.toList ++ post ∧
    l.pos = some (o + utf8Length pre) := by
  induction h with
  | nil => simp
  | @filler o p r ls h tail ih =>
    intro l hl
    obtain ⟨pre, post, rfl, hpos⟩ := ih l hl
    exact ⟨p ++ pre, post, by simp, by rw [hpos, utf8Length_append, Nat.add_assoc]⟩
  | @leaf o p r ls h tail ih =>
    intro l hl
    rcases List.mem_cons.1 hl with rfl | hl
    · exact ⟨[], r, by simp, by simp [utf8Length]⟩
    · obtain ⟨pre, post, rfl, hpos⟩ := ih l hl
      exact ⟨p ++ pre, post, by simp, by rw [hpos, utf8Length_append, Nat.add_assoc]⟩

theorem Woven.offset_le (h : Woven o cs ls) (hl : l ∈ ls) : ∃ a, l.pos = some a ∧ o ≤ a := by
  obtain ⟨pre, post, -, hpos⟩ := h.stands l hl
  exact ⟨_, hpos, Nat.le_add_right ..⟩

theorem Leaf.stop_mk (o : Nat) (p : List Char) :
    Leaf.stop ⟨some o, String.ofList p⟩ = some (o + utf8Length p) := by
  simp [Leaf.stop, Pos.plus, utf8ByteSize_eq]

theorem Woven.pairwise (h : Woven o cs ls) : ls.Pairwise Leaf.Apart := by
  induction h with
  | nil => exact .nil
  | filler h tail ih => exact ih
  | leaf h tail ih =>
    refine .cons (fun l hl => .inl ?_) ih
    obtain ⟨a, ha, hle⟩ := tail.offset_le hl
    simpa [Leaf.stop_mk, ha] using hle

/-- Of two ways to cut a text, the longer first part begins with the shorter one. -/
theorem Parser.append_eq_of_utf8Length_le {p r x : List Char} (h : p ++ r = pre ++ x)
    (hle : utf8Length p ≤ utf8Length pre) : ∃ pre', pre = p ++ pre' ∧ r = pre' ++ x := by
  rcases List.append_eq_append_iff.1 h with ⟨pre', rfl, rfl⟩ | ⟨q, rfl, rfl⟩
  · exact ⟨pre', rfl, rfl⟩
  · obtain rfl : q = [] := by
      refine utf8Length_eq_zero ?_
      rw [utf8Length_append] at hle
      omega
    exact ⟨[], by simp, by simp⟩

theorem Woven.le_stop (h : Woven o cs ls) (hl : l ∈ ls) {a : Nat} (ha : l.stop = some a) :
    o ≤ a := by
  obtain ⟨c, hc, hle⟩ := h.offset_le hl
  simp only [Leaf.stop, Pos.plus, hc, Option.map_some, Option.some.injEq] at ha
  omega

theorem Gap.drop {p mid post : List Char}
    (free : ∀ l ∈ ls, (∀ a ∈ l.stop, a ≤ o + utf8Length (p ++ pre)) ∨ ∀ a ∈ l.pos, o +
      utf8Length (p ++ pre ++ mid) ≤ a)
    (left : pre = [] ∨ ∃ l ∈ ls, l.stop = some (o + utf8Length (p ++ pre)))
    (right : post = [] ∨ ∃ l ∈ ls, l.pos = some (o + utf8Length (p ++ pre ++ mid))) :
    Gap (o + utf8Length p) ls pre mid post := by
  have hpre : o + utf8Length p + utf8Length pre = o +
      utf8Length (p ++ pre) := by rw [utf8Length_append]; omega
  have hmid : o + utf8Length p + utf8Length (pre ++ mid) = o + utf8Length (p ++ pre ++ mid) := by
    simp only [utf8Length_append]; omega
  exact ⟨by simpa only [hpre, hmid] using free, by simpa only [hpre]
    using left, by simpa only [hmid] using right⟩

/-- What stands between leaves is filler. The induction goes along the text: a piece that is part of
no leaf lies inside the gap or before it, a leaf lies before it. -/
theorem Woven.filler_of_gap (h : Woven o cs ls) {mid post : List Char}
    (hcs : cs = pre ++ (mid ++ post)) (hgap : Gap o ls pre mid post) : Filler post mid := by
  induction h generalizing pre mid with
  | nil =>
    obtain ⟨-, rfl, -⟩ : pre = [] ∧ mid = [] ∧ post = [] := by simpa using hcs
    exact .nil
  | @filler o p r ls hp tail ih =>
    rcases hgap.left with rfl | ⟨l, hl, hstop⟩
    · have hle : ∃ mid', mid = p ++ mid' ∧ r = mid' ++ post := by
        rcases hgap.right with rfl | ⟨l, hl, hpos⟩
        · exact ⟨r, by simpa using hcs.symm, by simp⟩
        · obtain ⟨a, ha, hle⟩ := tail.offset_le hl
          rw [hpos, List.nil_append] at ha
          refine append_eq_of_utf8Length_le hcs ?_
          have := Option.some.inj ha
          omega
      obtain ⟨mid', rfl, rfl⟩ := hle
      refine .cons hp (ih (List.nil_append _).symm ⟨fun l hl => ?_, .inl rfl, ?_⟩)
      · rcases hgap.free l hl with hf | hf
        · exact .inl fun a ha => Nat.le_trans (hf a ha) (by omega)
        · exact .inr fun a ha => by simpa [utf8Length_append, Nat.add_assoc] using hf a ha
      · simpa [utf8Length_append, Nat.add_assoc] using hgap.right
    · have hle := tail.le_stop hl hstop
      obtain ⟨pre', rfl, rfl⟩ := append_eq_of_utf8Length_le hcs (by omega)
      exact ih rfl (.drop hgap.free (.inr ⟨l, hl, hstop⟩) hgap.right)
  | @leaf o p r ls hp tail ih =>
    have hzero : utf8Length p ≠ 0 := fun h => hp (utf8Length_eq_zero h)
    rcases hgap.left with rfl | ⟨l, hl, hstop⟩
    · have hfree := hgap.free _ (List.mem_cons_self ..)
      simp only [Leaf.stop_mk, Option.mem_def, Option.some.injEq, forall_eq',
        List.nil_append] at hfree
      have hnil : utf8Length [] = 0 := rfl
      obtain rfl : mid = [] := utf8Length_eq_zero (by omega)
      exact .nil
    · have hle : utf8Length p ≤ utf8Length pre := by
        rcases List.mem_cons.1 hl with rfl | hl
        · rw [Leaf.stop_mk] at hstop
          have := Option.some.inj hstop
          omega
        · have := tail.le_stop hl hstop
          omega
      obtain ⟨pre', rfl, rfl⟩ := append_eq_of_utf8Length_le hcs hle
      refine ih rfl (.drop (fun l hl => hgap.free l (List.mem_cons_of_mem _ hl)) ?_ ?_)
      · rcases List.mem_cons.1 hl with rfl | hl
        · rw [Leaf.stop_mk, utf8Length_append] at hstop
          have := Option.some.inj hstop
          exact .inl (utf8Length_eq_zero (by omega))
        · exact .inr ⟨l, hl, hstop⟩
      · rcases hgap.right with hpost | ⟨m, hm, hpos⟩
        · exact .inl hpost
        · rcases List.mem_cons.1 hm with rfl | hm
          · have := Option.some.inj hpos
            simp only [utf8Length_append] at this
            omega
          · exact .inr ⟨m, hm, hpos⟩

theorem File.leaves_resolve {f : File} (hf : f.Arranged) {ts : List Token}
    (h : Arranges ts (f.decls.flatMap Decl.tokens)) :
    (f.name.leaf :: (f.imports.flatMap ImportSpec.leaves ++ leavesOf ts)).Perm
      f.resolve.leaves := by
  refine .cons _ (.append_left _ ?_)
  rw [← f.resolve_tokens] at h
  refine (h.perm.filterMap _).trans (.of_eq ?_)
  exact leavesOf_flatMap fun d hd => Decl.leavesOf_tokens (hf.resolve.2 d hd)

/-- The leaves of a unit are the names and literals of its text: each stands where its position
says, no two overlap, and every stretch between them splits into blanks, line breaks, whole
comments, whole keywords and signs. -/
theorem SourceUnit.leaves_cover {name text : String} {u : SourceUnit}
    (h : read? name text = some u) :
    (∀ l ∈ u.file.leaves, l.Stands text.toList) ∧ u.file.leaves.Pairwise Leaf.Apart ∧
      ∀ pre mid post, text.toList = pre ++ (mid ++ post) → Gap 0 u.file.leaves pre mid post →
      Filler post mid := by
  obtain ⟨f, hf, rfl⟩ := Option.map_eq_some_iff.1 h
  obtain ⟨⟨_, t⟩, hfile, rfl⟩ := Option.map_eq_some_iff.1 hf
  obtain ⟨_, ts, hcross, -, hts⟩ := Grammar.file_crosses (Grammar.rules_spelled true _) hfile
  have hw : Woven 0 text.toList _ := hcross.toTrail.woven (Grammar.file_rest hfile)
  have hperm := File.leaves_resolve (Grammar.parse?_sound hf).arranged hts
  refine ⟨fun l hl => ?_, (hperm.pairwise_iff Leaf.Apart.symm).1 hw.pairwise,
    fun pre mid post ht hgap => ?_⟩
  · obtain ⟨pre, post, ht, hpos⟩ := hw.stands l (hperm.mem_iff.2 hl)
    exact ⟨pre, post, ht, by simpa using hpos⟩
  · refine hw.filler_of_gap ht ⟨fun l hl => hgap.free l (hperm.mem_iff.1 hl), ?_, ?_⟩
    · simpa [hperm.mem_iff] using hgap.left
    · simpa [hperm.mem_iff] using hgap.right

/-- A name that waits for its type, a comment, and a literal with a keyword right behind it. -/
def paramsText : String :=
  "package p\nfunc f(a, []c, b int) \x7b /* d */ switch \x7b case a: b = 1case 2: \x7d \x7d\n"

/-- The first `a` is listed with its type, behind the `c` that it waits for. -/
def paramsLeaves : List Leaf :=
  [⟨some 8, "p"⟩, ⟨some 15, "f"⟩, ⟨some 22, "c"⟩, ⟨some 17, "a"⟩, ⟨some 25, "b"⟩, ⟨some 27, "int"⟩,
    ⟨some 56, "a"⟩, ⟨some 59, "b"⟩, ⟨some 63, "1"⟩, ⟨some 69, "2"⟩]

theorem params_cover :
    ∃ u, SourceUnit.read? "p.go" paramsText = some u ∧ u.file.leaves = paramsLeaves ∧
    (∀ l ∈ paramsLeaves, l.Stands paramsText.toList) ∧
    Filler "2: \x7d \x7d\n".toList "case ".toList := by
  have h : (SourceUnit.read? "p.go" paramsText).any fun u =>
      u.file.leaves = paramsLeaves := by decide +kernel
  obtain ⟨u, hu, h⟩ := (Option.any_eq_true _ _).1 h
  have hl : u.file.leaves = paramsLeaves := by simpa using h
  obtain ⟨hstands, -, hgap⟩ := SourceUnit.leaves_cover hu
  rw [hl] at hstands hgap
  refine ⟨u, hu, hl, hstands, hgap (paramsText.toList.take 64) _ _ (by decide) ⟨?_, .inr ?_,
    .inr ?_⟩⟩
  · decide
  · exact ⟨⟨some 63, "1"⟩, by decide, by decide⟩
  · exact ⟨⟨some 69, "2"⟩, by decide, by decide⟩

end GoFun
