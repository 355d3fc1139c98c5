import GoFun.Proofs.Grammar.Sound
import GoFun.Proofs.Source.Read

/-!
# What is read is arranged

The grammar gives every phrase a seat that admits it. So does resolution, which changes objects
only.
-/
namespace GoFun

theorem Seated.of_move_eq {seat : Seat} {n k : Phrase} (h : Seated seat n)
    (hm : n.move id = k.move id) :
    Seated seat k := by
  refine ⟨?_, h.2.of_move_eq (fun a b hab ha => ?_) hm⟩
  · rw [← seat.admits_move id, ← hm, seat.admits_move]
    exact h.1
  · rw [← b.arranged_move id, ← hab, a.arranged_move]
    exact ha

theorem Decl.Arranged.of_move_eq {d d' : Decl} (h : d.Arranged) (hm : d.move id = d'.move id) :
    d'.Arranged := by
  refine ⟨fun x hx => ?_, ?_⟩
  · have hx' : moveSeat id x ∈ d.seats.map (moveSeat id) := by
      rw [← Decl.seats_move, hm, Decl.seats_move]
      exact List.mem_map_of_mem hx
    obtain ⟨y, hy, hyx⟩ := List.mem_map.1 hx'
    obtain ⟨hseat, hmove⟩ := Prod.mk.inj hyx
    have hs := (h.1 y hy).of_move_eq hmove
    rwa [hseat] at hs
  · rw [← d'.isWhole_move id, ← hm, d.isWhole_move]
    exact h.2

theorem File.Arranged.resolve {file : File} (h : file.Arranged) : file.resolve.Arranged := by
  refine ⟨h.1, fun d hd => ?_⟩
  have hm : d.move id ∈ file.decls.map (Decl.move id) :=
    file.resolve_decls_move id ▸ List.mem_map_of_mem hd
  obtain ⟨k, hk, hkd⟩ := List.mem_map.1 hm
  exact (h.2 k hk).of_move_eq hkd

/-- In every file that is read, each phrase is whole and stands where a phrase of its kind can
stand. -/
theorem SourceUnit.read?_arranged {name text : String} {u : SourceUnit}
    (h : read? name text = some u) :
    u.file.Arranged := by
  obtain ⟨f, hf, rfl⟩ := Option.map_eq_some_iff.1 h
  exact (Grammar.parse?_sound hf).arranged.resolve

/-- Clauses of both kinds, a guard, dots in front of a type and for a length, keys and a group. -/
def arrangedText : String :=
  "package p\nvar (\nm = map[int][2]int\x7b1: \x7b2, 3\x7d\x7d\na = [...]int\x7b\x7d\n)\nfunc f(c chan int, xs ...any) \x7b\n" ++
  "for k, x := range xs \x7b\nswitch v := x.(type) \x7b\ncase int:\nif k < v \x7b\n\x7d else \x7b\nreturn\n\x7d\n\x7d\n\x7d\n" ++
  "select \x7b\ncase c <- 1:\ndefault:\n\x7d\n\x7d\n"

theorem arrangedText_arranged :
    ∃ u, SourceUnit.read? "a.go" arrangedText = some u ∧ u.file.decls.length = 2 ∧
    u.file.Arranged := by
  have h : (SourceUnit.read? "a.go" arrangedText).any fun u =>
      u.file.decls.length == 2 := by decide +kernel
  obtain ⟨u, hu, hl⟩ := (Option.any_eq_true _ _).1 h
  exact ⟨u, hu, beq_iff_eq.1 hl, SourceUnit.read?_arranged hu⟩

end GoFun
