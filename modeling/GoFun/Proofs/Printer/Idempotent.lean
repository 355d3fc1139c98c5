import GoFun.Proofs.Grammar.Seated
import GoFun.Proofs.Printer.Aligned
import GoFun.Proofs.Printer.Reprint
import GoFun.Proofs.Printer.RoundTrip
import GoFun.Proofs.Source.Unclosed

/-!
# Printing twice

A statement that is printed, and read again as the same statement but for parentheses that are not
printed, is printed the same again. What is read has the tokens of the print and no others, and they
are where the print has them.
-/
namespace GoFun

open Parser Grammar Token

variable {f : File} {s : Stmt} {t : Cursor} {α : Type} {p : Parser α}
variable {a : α} {cs : List Char} {s' : Stmt}

theorem File.Arranged.throughout {file : File} (h : file.Arranged) :
    file.Throughout Phrase.Arranged := by
  intro c hc
  rcases List.mem_append.1 hc with hc | hc
  · obtain ⟨spec, hspec, rfl⟩ := List.mem_map.1 hc
    exact (h.1 spec hspec).2
  · obtain ⟨d, hd, hc⟩ := List.mem_flatMap.1 hc
    rw [← d.seats_snd] at hc
    obtain ⟨x, hx, rfl⟩ := List.mem_map.1 hc
    exact ((h.2 d hd).1 x hx).2

/-- Statements stand in declarations, and their tokens are among those of the declarations. -/
theorem File.Has.tokens_subset (himports : ∀ spec ∈ f.imports, spec.path.children = [])
    (h : f.Has (.stmt s)) :
    s.tokens ⊆ f.decls.flatMap Decl.tokens := by
  obtain ⟨root, hroot, ho⟩ := h
  rcases List.mem_append.1 hroot with hr | hr
  · obtain ⟨spec, hspec, rfl⟩ := List.mem_map.1 hr
    cases ho with
    | deeper member => simp [Phrase.children, himports spec hspec] at member
  · obtain ⟨d, hd, hc⟩ := List.mem_flatMap.1 hr
    intro x hx
    exact List.mem_flatMap.2 ⟨d, hd, Decl.tokens_child hc (root.heard_subset (ho.heard_subset hx))⟩

theorem SourceUnit.sturdy_of_has {name text : String} {u : SourceUnit}
    (hu : read? name text = some u)
    (hs : u.file.Has (.stmt s)) : Throughout Phrase.Sturdy (.stmt s) := by
  have hformed := formed_of_has hu hs
  obtain ⟨f, hf, rfl⟩ := Option.map_eq_some_iff.1 hu
  obtain ⟨⟨f, t⟩, hfile, rfl⟩ := Option.map_eq_some_iff.1 hf
  have harranged := (parse?_sound hf).arranged.resolve.throughout.has hs
  obtain ⟨front, ts, hcross, -, harr⟩ := file_crosses (rules_spelled true _) hfile
  have hsound : ∀ x ∈ (Phrase.stmt s).heard, x.Sound := by
    intro x hx
    have himports := yields_importPath _ _ _ _ hfile
    have hmem := File.Has.tokens_subset (f := f.resolve) himports hs hx
    rw [File.resolve_tokens] at hmem
    exact hcross.passes.stands x (List.mem_append_right _ (harr.perm.mem_iff.2 hmem))
  exact ((hformed.and harranged).and (hformed.of_heard hsound)).mono fun n h =>
    ⟨h.1.1, h.1.2.2, h.2⟩

theorem Passes.leads {s : Cursor} {ts : List Token} (h : Passes s ts t) : Leads s t := by
  induction h with
  | done => exact ⟨[], rfl, rfl⟩
  | gap _ _ ih => exact .trans ⟨[_], rfl, rfl⟩ ih
  | comment hc _ ih => exact .trans ⟨_, (Lex.comment_append hc).2.symm, rfl⟩ ih
  | token _ _ _ ih => exact .trans ⟨_, rfl, rfl⟩ ih

theorem Parser.manyFrom_nil {s : Cursor} (h : (manyFrom p s).1 = []) : (manyFrom p s).2 = s := by
  rw [manyFrom] at h ⊢
  split
  · rfl
  · next b next hp =>
    rw [hp] at h
    dsimp only at h ⊢
    split
    · next hlt =>
      rw [if_pos hlt] at h
      cases h
    · rfl

/-- A list of one item was read in one round. -/
theorem Parser.manyFrom_singleton {s : Cursor} (h : manyFrom p s = ([a], t)) :
    p s = some (a, t) := by
  rw [manyFrom] at h
  split at h
  · cases h
  · next b next hp =>
    split at h
    · obtain ⟨hbs, rfl⟩ := Prod.mk.inj h
      obtain ⟨rfl, hrest⟩ := List.cons.inj hbs
      rw [hp, manyFrom_nil hrest]
    · cases h

theorem onlyStmtOf_eq_some {ds : List Decl} (h : onlyStmtOf ds = some s) :
    ∃ d, ds = [d] ∧ d.onlyStmt? = some s := by
  match ds with
  | [d] => exact ⟨d, rfl, h⟩
  | [] | _ :: _ :: _ => cases h

theorem onlyStmt?_eq_some {b : Option Block} (h : b.bind Block.onlyStmt? = some s) :
    ∃ lbrace rbrace, b = some ⟨lbrace, [s], rbrace⟩ := by
  match b with
  | some ⟨lbrace, [x], rbrace⟩ =>
    obtain rfl : x = s := Option.some.inj h
    exact ⟨lbrace, rbrace, rfl⟩
  | none | some ⟨_, [], _⟩ | some ⟨_, _ :: _ :: _, _⟩ => cases h

theorem Parser.of_optional_eq_some {s : Cursor} (h : optional p s = some (some a, t)) :
    p s = some (a, t) := by
  rcases optional_cases h with ⟨b, hb, hba⟩ | ⟨hn, -⟩
  · rw [hb, Option.some.inj hba]
  · cases hn

namespace Grammar

variable {g : Rules}

theorem spends_fileHead : Spends true 0 0 fileHead fun _ _ _ => True := by
  have himports : Preludes 0 0 (separator *> importDecl) [] fun specs =>
      specs.flatMap ImportSpec.leaves :=
    .skip (f := fun _ => importDecl) spends_separator fun _ => preludes_importDecl
  exact .skip spends_blanksNl fun _ => .bind (consumes_keyword (by decide)) fun _ _ _ _ =>
    .bind consumes_ident fun _ _ _ _ =>
    .bind (Preludes.many himports) fun _ _ _ _ => .pure trivial

theorem spends_funcHead (hg : g.Spelled true) : Spends true 0 0 (funcHead g) fun _ _ _ => True :=
  .bind (consumes_keyword (by decide)) fun _ _ _ _ =>
    .bind (Consumes.opt (consumes_params hg)) fun _ _ _ _ =>
    .bind consumes_ident fun _ _ _ _ => .bind (consumes_signature hg _) fun _ _ _ _ => .pure trivial

theorem decl_onlyStmt {s : Cursor} {d : Decl} {x : Stmt} (h : decl g s = some (d, t))
    (hd : d.onlyStmt? = some x) :
    ∃ f, funcDecl g s = some (f, t) ∧ d = .func f := by
  rcases orElse_eq_some h with h | ⟨-, h⟩
  · obtain ⟨f, hf, rfl⟩ := give_eq_some h
    exact ⟨f, hf, rfl⟩
  · obtain ⟨g, -, rfl⟩ := give_eq_some h
    cases hd

/-- The body of a file with one statement is passed along the tokens of the statement, in braces,
and the end of the file follows. -/
theorem passes_body {n : Nat}
    (hf : file (rules n) ⟨0, "package p\nfunc f() \x7b\n".toList ++ cs⟩ = some (f, t))
    (hs : f.onlyStmt? = some s) :
    ∃ lbrace rbrace ts, Passes ⟨19, '\x7b' :: '\n' :: cs⟩ ts t ∧ t.rest = [] ∧
      Orders ts (Block.tokens ⟨lbrace, [s], rbrace⟩) := by
  rw [file_eq] at hf
  obtain ⟨close, o₁, hhead, hclose⟩ := reads_fileHead cs 0
  obtain ⟨decls, u, hdecls, hf⟩ := bind_eq_some ((bind_apply _ hhead).symm.trans hf)
  obtain ⟨sep, v, hsep, hf⟩ := bind_eq_some hf
  obtain ⟨⟨⟩, w, hblanks, hf⟩ := bind_eq_some hf
  obtain ⟨⟨⟩, hend, rfl⟩ := give_eq_some hf
  obtain ⟨hrest, rfl⟩ := atEnd_eq_some hend
  rw [File.onlyStmt?, hclose] at hs
  obtain ⟨d, rfl, hd⟩ := onlyStmtOf_eq_some hs
  -- The declaration is read behind the line break, and it is a function.
  obtain ⟨⟨⟩, v₁, hnewline, hdecl⟩ := bind_eq_some (show (separator >>= fun _ => decl (rules n)) _ =
      some (d, u) from manyFrom_singleton (Option.some.inj hdecls))
  obtain ⟨⟨⟩, o₂, hnewline₂, -⟩ := reads_separator cs o₁
  obtain ⟨-, rfl⟩ := Prod.mk.inj (Option.some.inj (hnewline₂.symm.trans hnewline))
  obtain ⟨fd, hfunc, rfl⟩ := decl_onlyStmt hdecl hd
  rw [funcDecl_eq] at hfunc
  obtain ⟨close₂, o₃, hhead₂, hclose₂⟩ := reads_funcHead n ('\n' :: cs) o₂
  obtain ⟨body, hbody, rfl⟩ := give_eq_some ((bind_apply _ hhead₂).symm.trans hfunc)
  obtain ⟨lbrace, rbrace, rfl⟩ : ∃ lbrace rbrace, body = some ⟨lbrace, [s], rbrace⟩ := by
    rw [Decl.onlyStmt?, hclose₂] at hd
    exact onlyStmt?_eq_some hd
  -- The offset of the body follows from the text in front of it.
  have hg := rules_spelled true n
  have htrim : Trimmed ⟨0, "package p\nfunc f() \x7b\n".toList ++ cs⟩ :=
    Lex.trim_isBlank (by simp; decide)
  obtain ⟨_, _, hcross₁, -⟩ := spends_fileHead _ _ _ htrim hhead
  obtain ⟨_, _, hcross₂, -⟩ := spends_separator (b := true) _ _ _ hcross₁.trimmed hnewline
  obtain ⟨_, _, hcross₃, -⟩ := spends_funcHead hg _ _ _ hcross₂.trimmed hhead₂
  obtain rfl : o₃ = 19 := by
    obtain ⟨piece, hpiece, ho⟩ :=
      (hcross₁.passes.leads.trans hcross₂.passes.leads).trans hcross₃.passes.leads
    have htext : "package p\nfunc f() \x7b\n".toList ++ cs = "package p\nfunc f() ".toList ++
        '\x7b' :: '\n' :: cs := by simp
    obtain rfl : "package p\nfunc f() ".toList = piece :=
      List.append_cancel_right (htext.symm.trans hpiece)
    exact ho.trans (by decide : 0 + utf8Length "package p\nfunc f() ".toList = 19)
  obtain ⟨ts, _, hcross, -, us, harr, hus⟩ :=
    consumes_block hg _ _ _ hcross₃.trimmed (of_optional_eq_some hbody)
  obtain ⟨_, _, hcross₄, rfl, -⟩ := (spends_separator (b := true)).opt _ _ _ hcross.trimmed hsep
  obtain ⟨_, _, hcross₅, rfl, -⟩ := spends_blanksNl (b := true) _ _ _ hcross₄.trimmed hblanks
  obtain rfl : us = _ := hus
  exact ⟨lbrace, rbrace, ts, by simpa using hcross.passes.trans (hcross₄.passes.trans hcross₅.passes), hrest,
    harr.toOrders⟩

end Grammar

theorem Decl.onlyStmt?_move (m : Nat → Nat) (d : Decl) :
    (d.move m).onlyStmt? = d.onlyStmt?.map (Stmt.move m) := by
  match d with
  | .func ⟨_, _, _, _, _, some ⟨_, [s], _⟩⟩ => rfl
  | .gen _ | .func ⟨_, _, _, _, _, none⟩ | .func ⟨_, _, _, _, _, some ⟨_, [], _⟩⟩
  | .func ⟨_, _, _, _, _, some ⟨_, _ :: _ :: _, _⟩⟩ => rfl

theorem onlyStmtOf_move (m : Nat → Nat) (ds : List Decl) :
    onlyStmtOf (ds.map (Decl.move m)) = (onlyStmtOf ds).map (Stmt.move m) := by
  match ds with
  | [d] => exact d.onlyStmt?_move m
  | [] | _ :: _ :: _ => rfl

theorem File.onlyStmt?_tokens (h : f.resolve.onlyStmt? = some s) :
    ∃ s₀, f.onlyStmt? = some s₀ ∧ s₀.tokens = s.tokens := by
  have hmove : f.resolve.onlyStmt?.map (Stmt.move id) = f.onlyStmt?.map (Stmt.move id) := by
    rw [File.onlyStmt?, File.onlyStmt?, ← onlyStmtOf_move, ← onlyStmtOf_move,
      File.resolve_decls_move]
  rw [h] at hmove
  obtain ⟨s₀, hs₀, he⟩ := Option.map_eq_some_iff.1 hmove.symm
  exact ⟨s₀, hs₀, by rw [← s₀.tokens_move, he, s.tokens_move]⟩

/-- What is read from the print of a statement has no parentheses that are not printed. -/
theorem Stmt.tidy_of_inked (h : s'.tidy .merged = s.tidy .merged)
    (hs : Spaced cs ((s.tidy .merged).tokens.map Token.text))
    (hle : weigh ink s'.tokens ≤ Lex.inked cs) :
    s'.tidy .kept = s.tidy .merged := by
  have hslim : Slim (weigh ink s'.tokens) (weigh ink (s'.tidy .merged).tokens) _ := s'.slim
  rw [hs.inked, ← h] at hle
  exact (hslim.2 (Nat.le_antisymm hle hslim.1)).trans h

/-- A statement is printed and put into a function of its own. If what is read there is the same
statement but for positions, objects and parentheses that are not printed, it is printed the
same. -/
theorem SourceUnit.print_print {name text : String} {u : SourceUnit} (hu : read? name text = some u)
    {s : Stmt} (hs : u.file.Has (.stmt s)) {name' : String} {u' : SourceUnit}
    (hu' : read? name' (inBody (s.text u.map)) = some u') {s' : Stmt}
    (hs' : u'.file.onlyStmt? = some s') (h : s'.tidy .merged = s.tidy .merged) :
    s'.text u'.map = s.text u.map := by
  obtain ⟨f, hf, rfl⟩ := Option.map_eq_some_iff.1 hu'
  obtain ⟨⟨f, t⟩, hfile, rfl⟩ := Option.map_eq_some_iff.1 hf
  obtain ⟨s₀, hs₀, htokens⟩ := File.onlyStmt?_tokens hs'
  have hrun := (toList_inBody (s.text u.map) ▸ hfile :)
  obtain ⟨lbrace, rbrace, ts, hpass, hrest, horders⟩ := passes_body hrun hs₀
  rw [Block.tokens, tokensOfStmts, tokensOfStmts, List.append_nil, htokens] at horders
  have hreprints : ∀ m₂, s.Reprints u.map m₂ :=
    fun m₂ => Phrase.reprints (n := .stmt s) (sturdy_of_has hu hs)
  -- There is no room for more tokens than those of the print.
  have hink : weigh ink s'.tokens ≤ Lex.inked (s.text u.map).toList := by
    have hle : _ ≤ Lex.inked ("\x7b\n".toList ++ ((s.text u.map).toList ++ "\n\x7d\n".toList)) :=
      hpass.weigh_le hrest
    rw [weigh_perm ink horders.perm, weigh_cons, weigh_append, Lex.inked_append,
      Lex.inked_append] at hle
    have hone : Lex.inked "\x7b\n".toList = ink.of "\x7b" := by decide
    have hlast : Lex.inked "\n\x7d\n".toList = weigh ink [placed rbrace "\x7d"] :=
      (by decide : _ = ink.of "\x7d" + 0)
    rw [hone, hlast] at hle
    exact Nat.le_of_add_le_add_right (Nat.le_of_add_le_add_left hle)
  have hkept :=
    Stmt.tidy_of_inked h (hreprints (.ofText name' (inBody (s.text u.map))) _ 0 s.tidy_tidy).spaced
      hink
  have hecho := hreprints (.ofText name' (inBody (s.text u.map))) s' 0 hkept
  have hopen : Spaced "\x7b\n".toList ["\x7b"] := .of_spaces (by decide)
  have hclose : Spaced "\n\x7d\n".toList ["\x7d"] := .of_spaces (by decide)
  have hplaced : Placed 19 ("\x7b\n".toList ++ ((s.text u.map).toList ++ "\n\x7d\n".toList))
      ([placed lbrace "\x7b"] ++ (s'.tokens ++ [placed rbrace "\x7d"])) :=
    hpass.placed hrest (by simpa [Stmt.text] using hopen.append (hecho.spaced.append hclose))
      horders
  obtain ⟨-, hplaced⟩ := hplaced.split hopen
  exact hecho.holds _ (.of_text name' "package p\nfunc f() \x7b\n" _ "\n\x7d\n")
    (hplaced.split hecho.spaced).1

/-- The names and positions of a condition that is a call with an argument in parentheses and a
function. -/
def Stmt.guarded? : Stmt → Option (List Ident × List Pos)
  | .ifElse p none (.call (.ident f) q [.paren i (.ident a) j, .funcLit ⟨k, ⟨l, [], m⟩, none⟩
      ⟨n, [.expr (.call (.ident g) o [] r t)], v⟩] w x) ⟨y, [], z⟩ none =>
    some ([f, a, g], [p, q, i, j, k, l, m, n, o, r, t, v, w, x, y, z])
  | _ => none

theorem Stmt.eq_of_guarded? {l : List Ident × List Pos} (h : s.guarded? = some l)
    (h' : s'.guarded? = some l) :
    s' = s := by
  unfold guarded? at h h'
  split at h
  · cases h
    split at h'
    · cases h'
      rfl
    · cases h'
  · cases h

def guardedText : String :=
  "package p\nfunc f() \x7b\nif (f(((a)),\nfunc() \x7b g()\n\x7d)) \x7b\n\x7d\n\x7d\n"

def isGuardedAgain (m : SourceMap) : Phrase → Bool
  | .stmt s => (s.tidy .merged).guarded?.any fun l =>
      (SourceUnit.read? "q.go" (inBody (s.text m))).any fun u =>
      u.file.onlyStmt?.any fun s' => (s'.tidy .merged).guarded? = some l
  | .expr _ => false

/-- Parentheses that are not printed, and line breaks between arguments and within one. -/
theorem print_print_guarded :
    ∃ u s u' s', SourceUnit.read? "p.go" guardedText = some u ∧ u.file.Has (.stmt s) ∧
    SourceUnit.read? "q.go" (inBody (s.text u.map)) = some u' ∧ u'.file.onlyStmt? = some s' ∧
    s'.tidy .merged = s.tidy .merged ∧ s'.text u'.map = s.text u.map := by
  have h : (SourceUnit.read? "p.go" guardedText).any fun u =>
      (u.file.at? [0]).any (isGuardedAgain u.map) := by
    decide +kernel
  obtain ⟨u, hu, h⟩ := (Option.any_eq_true _ _).1 h
  obtain ⟨n, hn, h⟩ := (Option.any_eq_true _ _).1 h
  cases n with
  | expr e => cases h
  | stmt s =>
    obtain ⟨l, hl, h⟩ := (Option.any_eq_true _ _).1 h
    obtain ⟨u', hu', h⟩ := (Option.any_eq_true _ _).1 h
    obtain ⟨s', hs', h⟩ := (Option.any_eq_true _ _).1 h
    have hs := File.has_of_at? hn
    have hsame := Stmt.eq_of_guarded? hl (of_decide_eq_true h)
    exact ⟨u, s, u', s', hu, hs, hu', hs', hsame, SourceUnit.print_print hu hs hu' hs' hsame⟩

end GoFun
