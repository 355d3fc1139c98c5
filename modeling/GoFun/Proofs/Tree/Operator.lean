import GoFun.Tree.Basic

/-!
# Spellings of operators and words

No two operators of a kind, and no two words, are spelled alike.
-/
namespace GoFun

theorem UnaryOp.symbol_inj {a b : UnaryOp} (h : a.symbol = b.symbol) : a = b := by
  cases a <;> cases b <;> simp [UnaryOp.symbol] at h ⊢

theorem BinaryOp.symbol_inj {a b : BinaryOp} (h : a.symbol = b.symbol) : a = b := by
  cases a <;> cases b <;> simp [BinaryOp.symbol] at h ⊢

theorem AssignOp.symbol_inj {a b : AssignOp} (h : a.symbol = b.symbol) : a = b := by
  cases a <;> cases b <;> simp [AssignOp.symbol] at h ⊢

theorem Step.symbol_inj {a b : Step} (h : a.symbol = b.symbol) : a = b := by
  cases a <;> cases b <;> simp [Step.symbol] at h ⊢

theorem Jump.word_inj {a b : Jump} (h : a.word = b.word) : a = b := by
  cases a <;> cases b <;> simp [Jump.word] at h ⊢

theorem DeclWord.word_inj {a b : DeclWord} (h : a.word = b.word) : a = b := by
  cases a <;> cases b <;> simp [DeclWord.word] at h ⊢

theorem ChanDir.symbol_inj {a b : ChanDir} (h : a.symbol = b.symbol) : a = b := by
  cases a <;> cases b <;> simp [ChanDir.symbol] at h ⊢

theorem ObjKind.word_inj {a b : ObjKind} (h : a.word = b.word) : a = b := by
  cases a <;> cases b <;> simp [ObjKind.word] at h ⊢

theorem LitKind.symbol_inj {a b : LitKind} (h : a.symbol = b.symbol) : a = b := by
  cases a <;> cases b <;> simp [LitKind.symbol] at h ⊢

end GoFun
