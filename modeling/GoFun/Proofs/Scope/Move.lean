import GoFun.Proofs.Scope.Follow

/-!
# Resolution changes objects only

Resolving names changes the objects of identifiers and nothing else. What stands in a file, and does
not depend on objects, stands in the resolved file.
-/
namespace GoFun

variable {P : Phrase → Prop} {n k : Phrase}

theorem File.resolve_children_move (m : Nat → Nat) (file : File) :
    file.resolve.children.map (Phrase.move m) = file.children.map (Phrase.move m) := by
  have hd : ∀ decls : List Decl, (decls.flatMap Decl.children).map (Phrase.move m) =
      (decls.map (Decl.move m)).flatMap Decl.children := by
    intro decls
    simp [List.map_flatMap, List.flatMap_map, Decl.children_move]
  simp only [File.children, List.map_append, hd, File.resolve_decls_move]
  rfl

theorem File.resolve_decls_shape (p : Parens) (file : File) :
    file.resolve.decls.map (Decl.shape p) = file.decls.map (Decl.shape p) := by
  have h : ∀ decls : List Decl,
      decls.map (Decl.shape p) = (decls.map (Decl.move id)).map (Decl.shape p) := by
    intro decls
    simp [Decl.shape_move]
  rw [h, File.resolve_decls_move, ← h]

/-- Trees that differ in objects only satisfy the same properties that do not depend on objects. -/
theorem Throughout.of_move_eq (hP : ∀ n k : Phrase, n.move id = k.move id → P n → P k)
    (h : Throughout P n) (hm : n.move id = k.move id) : Throughout P k := by
  induction h generalizing k with
  | @intro n here _ ih =>
    refine .intro (hP n k hm here) fun c hc => ?_
    have hc' : c.move id ∈ n.children.map (Phrase.move id) := by
      rw [← Phrase.children_move, hm, Phrase.children_move]
      exact List.mem_map_of_mem hc
    obtain ⟨d, hd, hdc⟩ := List.mem_map.1 hc'
    exact ih d hd hdc

/-- What holds throughout a file and does not depend on objects holds throughout the resolved
file. -/
theorem File.Throughout.resolve {file : File}
    (hP : ∀ n k : Phrase, n.move id = k.move id → P n → P k)
    (h : file.Throughout P) : file.resolve.Throughout P := by
  intro n hn
  have hm : n.move id ∈ file.children.map (Phrase.move id) :=
    file.resolve_children_move id ▸ List.mem_map_of_mem hn
  obtain ⟨k, hk, hs⟩ := List.mem_map.1 hm
  exact (h k hk).of_move_eq hP hs

/-- What stands in a tree stands, but for objects, in every tree that differs in objects only. -/
theorem Occurs.of_move_eq {m : Phrase} (h : Occurs n m) (hm : m.move id = k.move id) :
    ∃ n', Occurs n' k ∧ n.move id = n'.move id := by
  induction h generalizing k with
  | self => exact ⟨k, .self, hm⟩
  | @deeper c m member _ ih =>
    have hc : c.move id ∈ k.children.map (Phrase.move id) := by
      rw [← Phrase.children_move, ← hm, Phrase.children_move]
      exact List.mem_map_of_mem member
    obtain ⟨d, hd, hdc⟩ := List.mem_map.1 hc
    obtain ⟨n', hn', hmove⟩ := ih hdc.symm
    exact ⟨n', .deeper hd hn', hmove⟩

theorem File.Has.of_children_move {file file' : File} (h : file.Has n)
    (hc : file.children.map (Phrase.move id) = file'.children.map (Phrase.move id)) :
    ∃ k, file'.Has k ∧ n.move id = k.move id := by
  obtain ⟨root, hroot, ho⟩ := h
  obtain ⟨r, hr, hs⟩ := List.mem_map.1 (hc ▸ List.mem_map_of_mem hroot)
  obtain ⟨k, hk, hmove⟩ := ho.of_move_eq hs.symm
  exact ⟨k, ⟨r, hr, hk⟩, hmove⟩

theorem File.Has.of_resolve {file : File} (h : file.resolve.Has n) :
    ∃ k, file.Has k ∧ n.move id = k.move id :=
  h.of_children_move (file.resolve_children_move id)

theorem File.Has.resolve {file : File} (h : file.Has n) :
    ∃ k, file.resolve.Has k ∧ n.move id = k.move id :=
  h.of_children_move (file.resolve_children_move id).symm

end GoFun
