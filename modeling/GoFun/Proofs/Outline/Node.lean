import GoFun.Proofs.Outline.Filter

/-!
# Outlines of nodes

A node of a tree is an expression, a statement, a declaration or one of their parts. In the outline
of every node the fields are named for what they hold, so the filters take away exactly the lines of
empty fields and of positions.
-/
namespace GoFun

inductive TreeNode where
  | file (x : File)
  | importSpec (x : ImportSpec)
  | decl (x : Decl)
  | funcDecl (x : FuncDecl)
  | genDecl (x : GenDecl)
  | spec (x : Spec)
  | stmt (x : Stmt)
  | block (x : Block)
  | expr (x : Expr)
  | funcType (x : FuncType)
  | fieldList (x : FieldList)
  | field (x : Field)
  | ident (x : Ident)
  | literal (x : Literal)
  | object (x : Object)

namespace TreeNode

def outline : TreeNode → Outline
  | file x => x.outline
  | importSpec x => x.outline
  | decl x => x.outline
  | funcDecl x => x.outline
  | genDecl x => x.outline
  | spec x => x.outline
  | stmt x => x.outline
  | block x => x.outline
  | expr x => x.outline
  | funcType x => x.outline
  | fieldList x => x.outline
  | field x => x.outline
  | ident x => x.outline
  | literal x => x.outline
  | object x => x.outline

theorem outline_plain : ∀ n : TreeNode, n.outline.IsPlain
  | file x => x.outline_plain
  | importSpec x => x.outline_plain
  | decl x => x.outline_plain
  | funcDecl x => x.outline_plain
  | genDecl x => x.outline_plain
  | spec x => x.outline_plain
  | stmt x => x.outline_plain
  | block x => x.outline_plain
  | expr x => x.outline_plain
  | funcType x => x.outline_plain
  | fieldList x => x.outline_plain
  | field x => x.outline_plain
  | ident x => x.outline_plain
  | literal x => x.outline_plain
  | object x => x.outline_plain

/-- The fields with the role of a position are those that hold one. -/
theorem role_eq_position_iff (n : TreeNode) {x : Entry} (hx : x ∈ n.outline.entries) :
    x.role = .position ↔ x.value.isPos = true := by
  have h := n.outline_plain
  generalize n.outline = o at h hx
  obtain ⟨kind, entries⟩ := o
  rw [Outline.IsPlain, plainEntries_iff] at h
  exact (h.2 x hx).2.1

/-- The outlines of a node under the three filters show one list of lines: all of them, those
without the lines of empty fields, and of these those without the lines of positions. The lines
taken for positions show positions. -/
theorem outline_filters (n : TreeNode) (m : SourceMap) :
    let ls := n.outline.lines m 0 ""
    n.outline.render m .all = Outline.numbered ls ∧
    n.outline.render m .notEmpty = Outline.numbered (withoutEmpty ls) ∧
    n.outline.render m .compact = Outline.numbered (withoutPositions (withoutEmpty ls)) ∧
    ∀ line ∈ ls, line.isPosition = true → ∃ p, line.value = (m.position p).text := by
  intro ls
  have hempty : withoutEmpty ls = (n.outline.select .notEmpty).lines m 0 "" := by
    have happend : withoutEmpty (ls ++ []) = _ :=
      Outline.withoutEmpty_lines [] n.outline_plain .root
    simpa [withoutEmpty] using happend
  refine ⟨?_, ?_, ?_, fun line hline => ?_⟩
  · rw [Outline.render, Outline.select_all]
    rfl
  · rw [hempty]
    rfl
  · rw [hempty, Outline.withoutPositions_lines n.outline_plain]
    rfl
  · exact (Outline.blocks_lines n.outline_plain).shows_position line hline

end TreeNode

end GoFun
