import GoFun.Proofs.Fun.Float
import GoFun.Proofs.Fun.Fragment
import GoFun.Proofs.Lex.Number
import GoFun.Proofs.Number.Underflow
import GoFun.Proofs.Source.Position

/-!
# Numbers that stay in range

What is counted and cut off when a source is read and lowered stays in range: the letter behind a
leading zero is there, a line starts in front of its columns, and binding strengths fit a byte. The
one exception is the exponent of a number in base sixteen with digits behind its point.
-/
namespace GoFun

open List

namespace Fun

attribute [local simp] Phrase.children GoFun.Expr.children

variable {c : Config} {cause : Number.DoubleError}

theorem lowerLiteral_eq_range {l : Literal} :
    lowerLiteral c l = .error (.double .exponentRange) ↔ l.kind = .float ∧
    Number.Underflows l.text.toList := by
  rw [← Number.readDouble_eq_range]
  unfold lowerLiteral
  split
  case h_1 hkind => cases Number.readInt64 l.text.toList
    <;> simp [hkind, Except.map, Except.mapError]
  case h_2 hkind => cases Number.readDouble l.text.toList
    <;> simp [hkind, Except.map, Except.mapError]
  case h_3 hkind => simp [hkind]
  case h_4 hkind =>
    unfold lowerChar
    split
    · simp [hkind, unsupported]
    · simp [hkind]
    · split <;> simp [hkind, unsupported]
  case h_5 hkind => simp [hkind, unsupported]

def HoldsUnderflow (n : Phrase) : Prop :=
  ∃ l, Occurs (.expr (.lit l)) n ∧ Number.Underflows l.text.toList

theorem HoldsUnderflow.deeper {n k : Phrase} (h : HoldsUnderflow n) (hn : n ∈ k.children) :
    HoldsUnderflow k := by
  obtain ⟨l, hl, hu⟩ := h
  exact ⟨l, .deeper hn hl, hu⟩

theorem not_mem_faultUnless {fits : Bool} {reason : Reason} {part : Outline} :
    .double cause ∉ faultUnless fits reason part := by
  cases fits <;> simp [faultUnless]

mutual

theorem holdsUnderflow_expr (c : Config) (e : GoFun.Expr)
    (h : .double .exponentRange ∈ exprFaults c e) : HoldsUnderflow (.expr e) := by
  cases e with
  | ident id =>
    unfold exprFaults identFaults at h
    split at h
    · split at h <;> simp at h
    · simp at h
  | lit l =>
    unfold exprFaults literalFaults at h
    split at h
    · simp at h
    case h_2 failure hl =>
      rw [mem_singleton] at h
      exact ⟨l, .self, (lowerLiteral_eq_range.1 (hl.trans (by rw [h]))).2⟩
  | binary x opPos op y =>
    rcases mem_append.1 h with h | h
    · exact (holdsUnderflow_expr c x h).deeper (by simp)
    · exact (holdsUnderflow_expr c y h).deeper (by simp)
  | call f lparen args dots rparen =>
    rcases mem_append.1 h with h | h
    · exact (holdsUnderflow_expr c f h).deeper (by simp)
    · rcases mem_append.1 h with h | h
      · exact absurd h not_mem_faultUnless
      · obtain ⟨e, he, h⟩ := holdsUnderflow_exprs c args h
        exact h.deeper (by simp [he])
  | selector x sel => cases x <;> simp [exprFaults] at h
  | _ => simp [exprFaults] at h

theorem holdsUnderflow_exprs (c : Config) :
    ∀ es : List GoFun.Expr, .double .exponentRange ∈ exprsFaults c es →
    ∃ e ∈ es, HoldsUnderflow (.expr e)
  | [], h => by simp [exprsFaults] at h
  | e :: es, h => by
    rcases mem_append.1 h with h | h
    · exact ⟨e, by simp, holdsUnderflow_expr c e h⟩
    · obtain ⟨e', he, h⟩ := holdsUnderflow_exprs c es h
      exact ⟨e', by simp [he], h⟩

end

theorem holdsUnderflow_stmt {s : Stmt} (h : .double .exponentRange ∈ stmtFaults c s) :
    HoldsUnderflow (.stmt s) := by
  cases s with
  | expr x => exact (holdsUnderflow_expr c x h).deeper (by simp [Stmt.children])
  | ret retPos results =>
    cases results with
    | nil => simp [stmtFaults] at h
    | cons e es =>
      obtain ⟨x, hx, h⟩ := holdsUnderflow_exprs c (e :: es) h
      exact h.deeper (by simpa [Stmt.children] using hx)
  | _ => simp [stmtFaults] at h

theorem not_mem_fieldsFaults {fields : List Field} : .double cause ∉ fieldsFaults fields := by
  intro h
  obtain ⟨field, -, h⟩ := mem_flatMap.1 h
  unfold typeFaults at h
  split at h <;> simp at h

/-- Only the literals of a file can leave their range. -/
theorem exists_underflow_of_mem_fileFaults {file : File}
    (h : .double .exponentRange ∈ fileFaults c file) :
    ∃ l, file.Has (.expr (.lit l)) ∧ Number.Underflows l.text.toList := by
  suffices hroot : ∃ root ∈ file.children, HoldsUnderflow root by
    obtain ⟨root, hroot, l, hl, hu⟩ := hroot
    exact ⟨l, ⟨root, hroot, hl⟩, hu⟩
  rcases mem_append.1 h with h | h
  · obtain ⟨spec, hspec, h⟩ := mem_flatMap.1 h
    refine ⟨.expr spec.path, by simp only [File.children, mem_append, mem_map]; exact .inl ⟨spec,
      hspec, rfl⟩, ?_⟩
    unfold importFaults at h
    split at h
    · simp at h
    · rcases mem_append.1 h with h | h
      · exact holdsUnderflow_expr c spec.path h
      · exact absurd h not_mem_faultUnless
  · obtain ⟨d, hd, h⟩ := mem_flatMap.1 h
    suffices hchild : ∃ root ∈ d.children, HoldsUnderflow root by
      obtain ⟨root, hroot, h⟩ := hchild
      exact ⟨root, by simp only [File.children, mem_append, mem_flatMap]; exact .inr ⟨d, hd, hroot⟩,
        h⟩
    cases d with
    | gen g => exact absurd h not_mem_faultUnless
    | func f =>
      simp only [declFaults, funcFaults, mem_append, not_mem_fieldsFaults, false_or] at h
      split at h
      case h_2 => simp at h
      case h_1 body hbody =>
        unfold bodyFaults at h
        split at h
        case h_2 => simp at h
        case h_1 s hs =>
          refine ⟨.stmt s, ?_, holdsUnderflow_stmt h⟩
          simp [Decl.children, FuncDecl.children, hbody, Block.children, hs]

end Fun

theorem clash_le (op : BinaryOp) (e : Expr) : clash op e ≤ 5 := by
  unfold clash
  split
  · split <;> omega
  · split <;> omega
  · omega

theorem Expr.mix_apart_le (e : Expr) : e.mix.apart ≤ 5 := by
  cases e with
  | binary x _ op y =>
    have hhere := clash_le op y
    have hx := x.mix_apart_le
    have hy := y.mix_apart_le
    simp only [Expr.mix, Mix.union, apply_ite Mix.apart]
    split <;> split <;> omega
  | _ => exact Nat.zero_le 5

theorem cutoff_le (e : Expr) (depth : Nat) : cutoff e depth ≤ 6 := by
  have h := e.mix_apart_le
  unfold cutoff
  grind

namespace Lex

theorem hexSpelling_eq_some {cs s rest : List Char} (h : hexSpelling cs = some (s, rest)) :
    ∃ x tail, s = '0' :: x :: tail ∧ (x = 'x' ∨ x = 'X') := by
  obtain ⟨_, _, _, h₁, -, rfl⟩ := append_eq_some.1 h
  obtain ⟨_, _, _, h₂, -, rfl⟩ := append_eq_some.1 h₁
  obtain ⟨x, _, tail, -, rfl, hx⟩ := base_eq h₂
  exact ⟨x, _, rfl, by simpa using hx⟩

end Lex

/-- Reading and lowering leave a range in one way only: the exponent of a literal does, and its
failure is the first one of the file. Columns, indentation, binding strengths and what is cut off
numbers are in range for every source. -/
theorem SourceUnit.lower_in_range {name text : String} {u : SourceUnit}
    (h : read? name text = some u) (c : Fun.Config) :
    (u.lower c = .error (.double .exponentRange) ↔ (Fun.fileFaults c u.file).head? =
      some (.double .exponentRange)) ∧
    (.double .exponentRange ∈ Fun.fileFaults c u.file →
      ∃ l, u.file.Has (.expr (.lit l)) ∧ Number.Underflows l.text.toList) ∧
    (∀ l, Fun.lowerLiteral c l = .error (.double .exponentRange) ↔ l.kind = .float ∧
      Number.Underflows l.text.toList) ∧
    (∀ offset, u.map.starts[u.map.lineIndex offset]?.getD 0 ≤ offset) ∧
    (∀ level s, ∃ k, level ≤ k ∧ Stmt.indent (level + 1) s = tabs k) ∧
    (∀ op : BinaryOp, op.precedence + 1 < 2 ^ 8) ∧ (∀ e depth, cutoff e depth < 2 ^ 8) ∧
    (∀ cs s rest, Lex.hexSpelling cs = some (s, rest) → 2 ≤ s.length ∧
      Parser.utf8Length (s.take 2) = 2) ∧
    (∀ cs x, LitKind.baseLetter? cs = some x → 2 ≤ cs.length ∧ Parser.utf8Length (cs.take 2) =
      2) := by
  have hmap : u.map.Built := by
    obtain ⟨file, -, rfl⟩ := Option.map_eq_some_iff.1 h
    exact .ofText name text
  refine ⟨(Fun.reports_file u.map c u.file).eq_error_iff _, Fun.exists_underflow_of_mem_fileFaults,
    fun l => Fun.lowerLiteral_eq_range, hmap.start_le, ?_, ?_, ?_, ?_, ?_⟩
  · intro level s
    unfold Stmt.indent
    split
    · exact ⟨level, Nat.le_refl level, rfl⟩
    · exact ⟨level + 1, Nat.le_succ level, rfl⟩
  · intro op
    cases op <;> decide
  · intro e depth
    exact Nat.lt_of_le_of_lt (cutoff_le e depth) (by decide)
  · intro cs s rest hs
    obtain ⟨x, tail, rfl, hx⟩ := Lex.hexSpelling_eq_some hs
    exact ⟨by simp, by rcases hx with rfl | rfl <;> rfl⟩
  · intro cs x hx
    obtain ⟨tail, rfl, hmem⟩ := LitKind.baseLetter?_eq_some hx
    have hsize : ("xXoObB".toList.all fun x => Parser.utf8Length ['0', x] == 2) = true := by decide
    exact ⟨by simp, beq_iff_eq.1 (List.all_eq_true.1 hsize x hmem)⟩

def scaledText : String := "package p\nfunc f() \x7b\nreturn 0x0.1p-2147483644\n\x7d\n"

/-- The exponent of this literal is as low as it can be. -/
theorem scaled_in_range :
    ∃ u, SourceUnit.read? "p.go" scaledText = some u ∧ (Fun.fileFaults {} u.file).isEmpty = true ∧
    u.lower {} ≠ .error (.double .exponentRange) := by
  have h : (SourceUnit.read? "p.go" scaledText).any fun u =>
      (Fun.fileFaults {} u.file).isEmpty := by decide +kernel
  obtain ⟨u, hu, h⟩ := (Option.any_eq_true _ _).1 h
  refine ⟨u, hu, h, fun he => ?_⟩
  have hhead := (SourceUnit.lower_in_range hu {}).1.1 he
  rw [List.isEmpty_iff.1 h] at hhead
  cases hhead

def lowestText : String := "package p\nfunc f() \x7b\nreturn 0x0.1p-2147483648\n\x7d\n"

def isOutOfRange {α : Type} : Fun.Lowering α → Bool
  | .error (.double cause) => cause == .exponentRange
  | _ => false

/-- One digit behind the point takes this exponent out of its range. -/
theorem lowest_out_of_range : ∃ u, SourceUnit.read? "p.go" lowestText = some u ∧
    u.lower {} = .error (.double .exponentRange) := by
  have h : (SourceUnit.read? "p.go" lowestText).any fun u => isOutOfRange (u.lower {}) := by
    decide +kernel
  obtain ⟨u, hu, h⟩ := (Option.any_eq_true _ _).1 h
  refine ⟨u, hu, ?_⟩
  unfold isOutOfRange at h
  split at h
  case h_1 cause hl => rw [hl, eq_of_beq h]
  case h_2 => cases h

end GoFun
