import GoFun.Proofs.Fun.Place
import GoFun.Proofs.Grammar.Shift
import GoFun.Proofs.Lex.Comment
import GoFun.Proofs.Scope.Parallel
import GoFun.Proofs.Source.Lines
import GoFun.Source.Unit

/-!
# Layout in front of a file

Blanks, line breaks and comments in front of a file move all its positions by one and the same
number of bytes and all its lines by one and the same number of lines. The file is read and lowered
as before.
-/
namespace GoFun

open Lex

open GoFun.Parser (utf8Length)

namespace Lex

/-- Blanks, line breaks, line comments with their line breaks, and block comments with their
ends. -/
inductive Filler : List Char → Prop where
  | nil : Filler []
  | blank {c : Char} {cs : List Char} (hc : isBlankOrNewline c = true) (h : Filler cs) : Filler
    (c :: cs)
  | line {body cs : List Char} (hbody : '\n' ∉ body) (h : Filler cs) : Filler
    ("//".toList ++ body ++ '\n' :: cs)
  | block {body cs : List Char} (hbody : ¬ "*/".toList <:+: body) (h : Filler cs) :
    Filler ("/*".toList ++ body ++ "*/".toList ++ cs)

/-- What is in front of a text is skipped together with the layout that the text begins with. -/
theorem Filler.layout {p : List Char} (h : Filler p) (cs : List Char) :
    layout isBlankOrNewline (p ++ cs) =
      (p ++ (layout isBlankOrNewline cs).1, (layout isBlankOrNewline cs).2) := by
  induction h with
  | nil => rfl
  | blank hc h ih => rw [List.cons_append, layout_blank hc, ih, List.cons_append]
  | @line body p hbody h ih =>
    have hcomment := (Complete.line hbody ((stops_cons _ '\n' (p ++ cs)).2 rfl)).comment_eq
    rw [show "//".toList ++ body ++ '\n' :: p ++ cs = "//".toList ++ body ++ '\n' ::
      (p ++ cs) by simp, layout_comment rfl hcomment, layout_blank rfl, ih]
    simp
  | @block body p hbody h ih =>
    rw [List.append_assoc _ p, layout_comment rfl (comment_block hbody (p ++ cs)), ih]
    simp

end Lex

theorem FuncDecl.place_move (f g : Nat → Nat) (d : FuncDecl) :
    (d.move g).place (Option.map f) = d.move (f ∘ g) := by
  simp [FuncDecl.move, FuncDecl.place, place_move_all, Ident.place_move, Function.comp_def]

theorem Decl.place_move (f g : Nat → Nat) (d : Decl) :
    (d.move g).place (Option.map f) = d.move (f ∘ g) := by
  cases d <;> simp [Decl.move, Decl.place, FuncDecl.place_move, place_move_all]

theorem File.place_move (f g : Nat → Nat) (file : File) :
    (file.move g).place (Option.map f) = file.move (f ∘ g) := by
  simp [File.move, File.place, ImportSpec.move, ImportSpec.place, Ident.place_move, place_move_all,
    Decl.place_move, Function.comp_def]

namespace Grammar

theorem parse?_eq (text : String) : parse? text = ((fileBody (rules (depthFor text.toList))).run
    ⟨utf8Length (layout isBlankOrNewline text.toList).1,
      (layout isBlankOrNewline text.toList).2⟩).map
      Prod.fst := by
  have hskip :
      blanksNl ⟨0, text.toList⟩ = some ((), ⟨utf8Length (layout isBlankOrNewline text.toList).1,
      (layout isBlankOrNewline text.toList).2⟩) := by simp [blanksNl, Parser.skip]
  exact congrArg (Option.map Prod.fst) (Parser.bind_apply (fun _ => fileBody _) hskip)

/-- In front of a file there may be layout, which moves all of it. -/
theorem parse?_filler {front : String} (h : Filler front.toList) (text : String) :
    parse? (front ++ text) = (parse? text).map (File.move (· + utf8Length front.toList)) := by
  have hskips : Skips ⟨0, text.toList⟩ ⟨0 + utf8Length (layout isBlankOrNewline text.toList).1,
      (layout isBlankOrNewline text.toList).2⟩ := ⟨_, .inr rfl, rfl⟩
  have hlt : (layout isBlankOrNewline text.toList).2.length < text.toList.length + 1 :=
    Nat.lt_succ_of_le hskips.length_le
  have hshift :=
    fileBody_shift (utf8Length front.toList) hskips.trimmed hlt 0 (2 * front.toList.length)
  have hdepth : depthFor (front.toList ++ text.toList) = 2 * (text.toList.length + 1) + 2 *
      front.toList.length := by
    simp only [depthFor, List.length_append]
    omega
  have hoffset : ∀ l : List Char,
      utf8Length (front.toList ++ l) = 0 + utf8Length l + utf8Length front.toList := by
    intro l
    simp [utf8Length, Nat.add_comm]
  rw [parse?_eq, parse?_eq, String.toList_append, h.layout, hdepth, hoffset, hshift]
  simp [depthFor, Nat.mul_add]

theorem move_parse? {text : String} {file : File} (h : parse? text = some file) :
    file.move id = file := by
  have hnil : Filler "".toList := .nil
  have hmove := parse?_filler hnil text
  rw [String.empty_append, h] at hmove
  exact (Option.some.inj hmove).symm

theorem parse?_place {front : String} (h : Filler front.toList) (text : String) :
    parse? (front ++ text) = (parse? text).map
      (File.place (Option.map (· + utf8Length front.toList))) := by
  rw [parse?_filler h]
  refine Option.map_congr fun file hf => ?_
  rw [← move_parse? hf, File.place_move, move_parse? hf]
  rfl

end Grammar

/-- The lines of a text behind another one all come later by as much. -/
theorem SourceMap.follows_append (name front text : String) :
    Follows (utf8Length front.toList) (startsFrom 0 front.toList).length (ofText name text)
      (ofText name (front ++ text)) := by
  intro p
  cases p with
  | none => exact .inl ⟨rfl, rfl⟩
  | some offset => exact .inr ⟨Nat.succ_pos _, line_append name front text offset⟩

namespace SourceUnit

theorem read?_filler (name : String) {front : String} (h : Filler front.toList) (text : String) :
    read? name (front ++ text) = (read? name text).map fun u =>
      ⟨.ofText name (front ++ text), u.file.place (Option.map (· + utf8Length front.toList))⟩ := by
  simp only [read?, Grammar.parse?_place h, Option.map_map, Function.comp_def, File.resolve_place]

/-- Layout in front of a file does not matter. The text with it is a file exactly when the text
without it is one, and the two are lowered to the same module, or fail for the same cause. -/
theorem lower_behind_filler (name : String) {front : String} (h : Lex.Filler front.toList)
    (text : String) (c : Fun.Config) :
    ((read? name (front ++ text)).isSome ↔ (read? name text).isSome) ∧
    ∀ u u', read? name text = some u → read? name (front ++ text) = some u' →
      (∀ module, u'.lower c = .ok module ↔ u.lower c = .ok module) ∧
      ∀ failure failure', u.lower c = .error failure → u'.lower c = .error failure' →
      failure.SameCause failure' := by
  refine ⟨by rw [read?_filler name h, Option.isSome_map], fun u u' hu hu' => ?_⟩
  rw [read?_filler name h, hu] at hu'
  obtain rfl := Option.some.inj hu'
  obtain ⟨file, -, rfl⟩ := Option.map_eq_some_iff.1 hu
  have hmatches := Fun.lowerFile_place (SourceMap.follows_append name front text) c file.resolve
  exact ⟨hmatches.eq_ok_iff, fun _ _ => hmatches.sameCause⟩

end SourceUnit

/-- Layout of every kind. -/
def mixedFiller : String := " \t\r\n// line\n/*a\n**/"

theorem mixedFiller_filler : Filler mixedFiller.toList := by
  have hparts :
      mixedFiller.toList = ' ' :: '\t' :: '\r' :: '\n' :: ("//".toList ++ " line".toList ++
      '\n' :: ("/*".toList ++ "a\n*".toList ++ "*/".toList ++ [])) := by decide
  have hblock : ¬ "*/".toList <:+: "a\n*".toList := by decide
  rw [hparts]
  exact .blank rfl (.blank rfl (.blank rfl (.blank rfl (.line (by decide) (.block hblock .nil)))))

/-- A call over several lines and a function on one line, in a body that is kept as text. -/
def brokenCall : String :=
  "package p\nfunc f() \x7b\ng(1,\n2)\nx := func() \x7b return \x7d\n\x7d\n"

theorem brokenCall_behind_filler : ∃ u u', SourceUnit.read? "p.go" brokenCall = some u ∧
    SourceUnit.read? "p.go" (mixedFiller ++ brokenCall) = some u' ∧
    (∃ module, u.lower {} = .ok module) ∧
    ∀ c, (∀ module, u'.lower c = .ok module ↔ u.lower c = .ok module) ∧
      ∀ failure failure', u.lower c = .error failure → u'.lower c = .error failure' →
      failure.SameCause failure' := by
  have h : (SourceUnit.read? "p.go" brokenCall).any fun u => (u.lower {}).isOk := by decide +kernel
  obtain ⟨u, hu, hok⟩ := (Option.any_eq_true _ _).1 h
  have hmodule : ∃ module, u.lower {} = .ok module := by
    cases hm : u.lower {} with
    | ok module => exact ⟨module, rfl⟩
    | error failure => simp [hm, Except.isOk, Except.toBool] at hok
  have hsome :=
    (SourceUnit.lower_behind_filler "p.go" mixedFiller_filler brokenCall {}).1.2 (by rw [hu]; rfl)
  obtain ⟨u', hu'⟩ := Option.isSome_iff_exists.1 hsome
  exact ⟨u, u', hu, hu', hmodule, fun c => (SourceUnit.lower_behind_filler "p.go" mixedFiller_filler
    brokenCall c).2 u u' hu hu'⟩

end GoFun
