import GoFun.Proofs.Grammar.Sound
import GoFun.Proofs.Scope.Move
import GoFun.Source.Unit

/-!
# Phrases of source units

The names of a unit are resolved after its text is read. This changes objects only, so the phrases
of a unit are as well-formed as the grammar makes them.
-/
namespace GoFun

theorem SourceUnit.read?_formed {name text : String} {u : SourceUnit}
    (h : read? name text = some u) :
    u.file.Throughout Phrase.Formed := by
  obtain ⟨f, hf, rfl⟩ := Option.map_eq_some_iff.1 h
  exact (Grammar.parse?_sound hf).formed.resolve fun n k hm =>
    Phrase.Formed.of_shape_eq n k (Phrase.shape_eq_of_move_eq hm .kept)

theorem SourceUnit.formed_of_has {name text : String} {u : SourceUnit}
    (h : read? name text = some u) {n : Phrase} (hn : u.file.Has n) : Throughout Phrase.Formed n :=
  (read?_formed h).has hn

theorem IsName.continues {s : String} (h : IsName s) :
    ∀ c ∈ s.toList, Text.continuesWord c = true := by
  obtain ⟨t₁, r, t₂, h₁, h₂, ht⟩ := Lex.append_eq_some.1 h.1
  obtain ⟨c, hc, -, rfl⟩ := Lex.one_eq_some.1 h₁
  obtain ⟨rfl, -⟩ := result_inj h₂
  intro d hd
  rw [ht] at hd
  rcases List.mem_append.1 hd with hd | hd
  · obtain rfl : d = c := by simpa using hd
    unfold Text.startsWord at hc
    unfold Text.continuesWord
    rcases Bool.or_eq_true_iff.1 hc with hc | hc <;> simp [hc]
  · exact List.all_eq_true.1 List.all_takeWhile d hd

theorem IsName.dot_notMem {s : String} (h : IsName s) : '.' ∉ s.toList := by
  intro hm
  have hd : Text.continuesWord '.' = false := by decide
  simp [h.continues '.' hm] at hd

end GoFun
