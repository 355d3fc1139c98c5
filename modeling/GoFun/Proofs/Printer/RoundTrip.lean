import GoFun.Proofs.Grammar.Body
import GoFun.Proofs.Printer.Reread
import GoFun.Proofs.Source.Read

/-!
# Printed expressions keep their meaning

Every plain expression of a source text can be printed, put into a source text of its own as the
result of a function, and read again: what comes back differs from it in positions, objects and
doubled parentheses at most.
-/
namespace GoFun

open Parser Grammar

theorem Decl.onlyStmt?_shape (p : Parens) (d : Decl) :
    (d.shape p).onlyStmt? = d.onlyStmt?.map (Stmt.shape p) := by
  match d with
  | .func ⟨_, _, _, _, _, some ⟨_, [s], _⟩⟩ => rfl
  | .gen _ | .func ⟨_, _, _, _, _, none⟩ | .func ⟨_, _, _, _, _, some ⟨_, [], _⟩⟩
  | .func ⟨_, _, _, _, _, some ⟨_, _ :: _ :: _, _⟩⟩ => rfl

theorem onlyStmtOf_shape (p : Parens) (ds : List Decl) :
    onlyStmtOf (ds.map (Decl.shape p)) = (onlyStmtOf ds).map (Stmt.shape p) := by
  match ds with
  | [d] => exact d.onlyStmt?_shape p
  | [] | _ :: _ :: _ => rfl

/-- Resolving names keeps the shape of the only statement. -/
theorem File.onlyStmt?_resolve (p : Parens) (f : File) :
    f.resolve.onlyStmt?.map (Stmt.shape p) = f.onlyStmt?.map (Stmt.shape p) := by
  rw [File.onlyStmt?, File.onlyStmt?, ← onlyStmtOf_shape, ← onlyStmtOf_shape,
    File.resolve_decls_shape]

theorem reads_return {p : Parens} {e : Expr} (he : e.Rereads p) (hbegins : Phrase.Begins (.expr e))
    (m : SourceMap) {n : Nat} (hn : (e.text m).toList.length ≤ n) (cs : List Char) :
    Reads (rules (n + 2)).stmt ("return ".toList ++ ((e.text m).toList ++ '\n' :: cs)) ('\n' :: cs)
      fun s => ∃ pos e', s = .ret pos [e'] ∧ Same p e e' := by
  have hword : Lex.word "return".toList = some ("return".toList, []) := by decide
  have hspace := stops_word (c := ' ') (by decide) ((e.text m).toList ++ '\n' :: cs)
  have hdecl : ∀ word : DeclWord,
      Idle (keyword word.word) ("return ".toList ++ ((e.text m).toList ++ '\n' :: cs)) :=
    fun word => idle_keyword_of_word (s := "return") hword hspace (by cases word <;> decide)
  have hlayout : Lex.Stops Lex.startsLayout ((e.text m).toList ++ '\n' :: cs) :=
    hbegins.stops_layout m 0 {} rfl (Nat.zero_le _) _
  have hreturn := reads_keyword hword _ hspace
  rw [Lex.trim_blank (by decide), Lex.trim_isBlank hlayout] at hreturn
  have htrim : Lex.trim Lex.isBlank ('\n' :: cs) = '\n' :: cs :=
    Lex.trim_of_ne (by decide) (by decide) cs
  have hexpr := he.reads_expr m 0 1 hn ('\n' :: cs) ⟨stops_word (by decide) cs, by simp⟩
    (by rw [htrim]; exact ends_of_stops n 0 (by simp; decide))
  rw [htrim] at hexpr
  have hlist : Reads (exprList (rules (n + 1))) ((e.text m).toList ++ '\n' :: cs) ('\n' :: cs)
      fun es => ∃ e', es = [e'] ∧ Same p e e' :=
    hexpr.sepBy1 (.nil (P := fun es => es = []) rfl)
      (.seqRight (idle_tokenNl (by simp [List.isPrefixOf])))
      fun e' es he' hes => ⟨e', by rw [hes], he'⟩
  refine .orElse' (.bind (idle_genDecl _ hdecl))
    (.orElse (hreturn.bind fun pos _ => hlist.opt.bind ?_))
  rintro _ ⟨_, rfl, e', rfl, he'⟩
  exact .pure ⟨pos, e', rfl, he'⟩

theorem Stmt.eq_ret_of_shape {p : Parens} {s : Stmt} {x : Expr} (h : s.shape p = .ret none [x]) :
    ∃ pos e, s = .ret pos [e] ∧ e.shape p = x := by
  cases s with
  | ret pos results =>
    have hx : results.map (Expr.shape p) = [x] := by simpa [Stmt.shape, shapeExprs_eq_map] using h
    obtain ⟨e, rfl, he⟩ := List.map_eq_singleton_iff.1 hx
    exact ⟨pos, e, rfl, he⟩
  | _ => simp [Stmt.shape] at h

/-- Printing a plain expression of a source text and reading it again, as the result of a function,
gives the same expression up to positions, objects and doubled parentheses. -/
theorem SourceUnit.reread_expr {name text : String} {u : SourceUnit} (hu : read? name text = some u)
    {e : Expr} (he : u.file.Has (.expr e)) (hrole : e.role = .plain)
    (hplain : Throughout (fun n => n.isPlain = true) (.expr e)) (name' : String) :
    ∃ u' pos e', read? name' (inBody ("return " ++ e.text u.map)) = some u' ∧
      u'.file.onlyStmt? = some (.ret pos [e']) ∧ e'.shape .merged = e.shape .merged := by
  have hprintable : Throughout Phrase.Printable (.expr e) :=
    hplain.and (SourceUnit.formed_of_has hu he)
  have hbegins := Phrase.Printable.begins hprintable
  have hrereads := (Phrase.Printable.rereads (p := .merged) (by decide) hprintable).plain hrole
  have htext : ("return " ++ e.text u.map).toList ++ ['\n', '\x7d', '\n'] =
      "return ".toList ++ ((e.text u.map).toList ++ ['\n', '\x7d', '\n']) := by
    rw [String.toList_append]
    exact List.append_assoc _ _ _
  have hread :=
    reads_return hrereads hbegins u.map
      (n := 2 * (inBody ("return " ++ e.text u.map)).toList.length)
    (by rw [toList_inBody, String.toList_append]; simp only [List.length_append]; omega)
    ['\x7d', '\n']
  rw [← htext] at hread
  obtain ⟨f, _, hf, hs, pos, e₁, rfl, hsame⟩ := parse?_inBody (by rw [htext]; simp; decide) hread
  have hshape := f.onlyStmt?_resolve .merged
  rw [hs] at hshape
  obtain ⟨s', hs', hshape⟩ := Option.map_eq_some_iff.1 hshape
  obtain ⟨pos', e', rfl, he'⟩ := Stmt.eq_ret_of_shape hshape
  exact ⟨_, pos', e', by rw [read?, hf]; rfl, hs', he'.trans hsame⟩

def sumText : String :=
  "package p\nfunc f() \x7b\nreturn ((a)) - -b + s[i*2+1:].n(T\x7bk: \x7b1\x7d\x7d,\n+c)\n\x7d\n"

def isPlainExpr : Phrase → Bool
  | .expr e => e.role == .plain
  | .stmt _ => false

/-- Doubled parentheses, signs in a row, an elided literal and a line break between arguments. -/
theorem reread_sum :
    ∃ u e, SourceUnit.read? "p.go" sumText = some u ∧ u.file.Has (.expr e) ∧ e.role = .plain ∧
    Throughout (fun n => n.isPlain = true) (.expr e) ∧
    ∃ u' pos e', SourceUnit.read? "q.go" (inBody ("return " ++ e.text u.map)) = some u' ∧
      u'.file.onlyStmt? = some (.ret pos [e']) ∧ e'.shape .merged = e.shape .merged := by
  have h : (SourceUnit.read? "p.go" sumText).any fun u => (u.file.at? [0, 0]).any fun n =>
      n.check (fun n => n.isPlain = true) 8 && isPlainExpr n := by decide +kernel
  obtain ⟨u, hu, h⟩ := (Option.any_eq_true _ _).1 h
  obtain ⟨n, hn, h⟩ := (Option.any_eq_true _ _).1 h
  obtain ⟨hplain, hrole⟩ := Bool.and_eq_true_iff.1 h
  cases n with
  | stmt s => cases hrole
  | expr e =>
    have he := File.has_of_at? hn
    have hall := Phrase.throughout_of_check 8 hplain
    exact ⟨u, e, hu, he, eq_of_beq hrole, hall, SourceUnit.reread_expr hu he (eq_of_beq hrole) hall
      "q.go"⟩

end GoFun
