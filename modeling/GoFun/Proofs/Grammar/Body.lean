import GoFun.Proofs.Grammar.Operand

/-!
# Files with one statement

A statement is read by itself when it is the only one of the only function of a file. This file
follows the grammar through all that stands around the statement.
-/
namespace GoFun

open Parser Lex

/-- A file with one function whose body is the given text. -/
def inBody (text : String) : String := "package p\nfunc f() \x7b\n" ++ text ++ "\n\x7d\n"

def Block.onlyStmt? : Block → Option Stmt
  | ⟨_, [s], _⟩ => some s
  | _ => none

def Decl.onlyStmt? : Decl → Option Stmt
  | .func f => f.body.bind Block.onlyStmt?
  | .gen _ => none

def onlyStmtOf : List Decl → Option Stmt
  | [d] => d.onlyStmt?
  | _ => none

/-- The statement of a file with one function that has one statement. -/
def File.onlyStmt? (f : File) : Option Stmt := onlyStmtOf f.decls

namespace Grammar

variable {cs : List Char} {P : Stmt → Prop}
variable (n : Nat)

theorem idle_token_of_stops {s : String} {p : Char → Bool} (hs : s.toList.head?.any p = true)
    (h : Stops p cs) :
    Idle (token s) cs := idle_token (isPrefixOf_of_stops hs h)

def startsType (c : Char) : Bool :=
  Text.startsWord c || c == '*' || c == '[' || c == '<' || c == '('

theorem idle_rules_type (h : Stops startsType cs) : Idle (rules n).type cs := by
  cases n with
  | zero => exact fun _ => rfl
  | succ n =>
    have hword : Stops Text.startsWord cs := h.mono (by simp +contextual [startsType])
    have hkey := fun w => idle_keyword w hword
    have hstar : Idle (token "*") cs := idle_token_of_stops (by decide) h
    have hbrack : Idle (tokenNl "[") cs := idle_tokenNl_of_stops (by decide) h
    have harrow : Idle (token "<-") cs := idle_token_of_stops (by decide) h
    have hparen : Idle (token "(") cs := idle_token_of_stops (by decide) h
    have hchan : Idle (chanType (rules n)) cs :=
      .bind (.orElse (.bind (.seqLeft (hkey _))) (.orElse (.bind (hkey _))
        (.bind (.seqLeft harrow))))
    exact .orElse (.bind (idle_ident hword)) (.orElse (.bind hstar) (.orElse (.bind hbrack)
      (.orElse (.bind (hkey _)) (.orElse hchan (.orElse (.bind (hkey _)) (.orElse (.bind (hkey _))
        (.orElse (.bind (.bind (hkey _))) (.bind hparen))))))))

theorem idle_declOf {word : DeclWord} {spec : Parser Spec} (h : Idle (keyword word.word) cs) :
    Idle (declOf word spec) cs := .bind h

theorem idle_genDecl (g : Rules) (h : ∀ word : DeclWord, Idle (keyword word.word) cs) :
    Idle (genDecl g) cs :=
  .orElse (idle_declOf (h _)) (.orElse (idle_declOf (h _)) (idle_declOf (h _)))

theorem idle_jumpStmt (h : ∀ word : Jump, Idle (keyword word.word) cs) : Idle jumpStmt cs :=
  .bind (.orElse (.bind (h _)) (.orElse (.bind (h _))
    (.orElse (.bind (h _)) (.orElse (.bind (h _)) fun _ => rfl))))

theorem idle_simpleStmt {expr : Parser Expr} (h : Idle expr cs) : Idle (simpleStmt expr) cs :=
  .orElse (.bind (.sepBy1 h)) (.orElse (.bind h) (.orElse (.bind h) (.bind h)))

theorem idle_rules_conditional (h : Idle (keyword "if") cs) : Idle (rules n).conditional cs := by
  cases n with
  | zero => exact fun _ => rfl
  | succ n => exact .bind h

theorem idle_rules_stmt_close (cs : List Char) : Idle (rules n).stmt ('\x7d' :: cs) := by
  cases n with
  | zero => exact fun _ => rfl
  | succ n =>
    have hword : Stops Text.startsWord ('\x7d' :: cs) := by simp; decide
    have hkey := fun w => idle_keyword w hword
    have hbrace : Idle (tokenNl "\x7b") ('\x7d' :: cs) := idle_tokenNl (by simp [List.isPrefixOf])
    have hexpr : Idle (rules n).expr ('\x7d' :: cs) := idle_rules_expr n (by simp; decide)
    exact .orElse (.bind (idle_genDecl _ fun _ => hkey _)) (.orElse (.bind (hkey _))
      (.orElse (idle_jumpStmt fun _ => hkey _) (.orElse (idle_rules_conditional n (hkey _))
        (.orElse (.bind (hkey _))
        (.orElse (.bind (hkey _)) (.orElse (.bind (hkey _))
          (.orElse (.bind (hkey _)) (.orElse (.bind (hkey _))
          (.orElse (.bind (.bind hbrace)) (.orElse (.bind (idle_ident hword))
            (idle_simpleStmt hexpr)))))))))))

theorem idle_decl_nil (g : Rules) : Idle (decl g) [] := by
  have hkey : ∀ w, Idle (keyword w) [] := fun w => idle_keyword w (by simp)
  exact .orElse (.bind (.bind (hkey _))) (.bind (idle_genDecl g fun _ => hkey _))

theorem reads_newline (cs : List Char) :
    Reads separator ('\n' :: cs) (trim isBlankOrNewline cs) fun _ => True := by
  have hskip := reads_skip isBlank ('\n' :: cs)
  rw [trim_of_ne (by decide) (by decide)] at hskip
  have hline :
      Lexer.oneOf ";\n" ('\n' :: cs) = some (['\n'], cs) := by simp [Lexer.oneOf, Lexer.one]
  exact hskip.bind fun _ _ => (reads_lexeme hline).bind fun _ _ => reads_skip isBlankOrNewline cs

theorem reads_open (hcs : Stops startsLayout cs) :
    Reads (tokenNl "\x7b") ('\x7b' :: '\n' :: cs) cs fun p => p.isSome = true := by
  have hbrace := reads_bracket (s := "\x7b") rfl ('\n' :: cs)
  rwa [trim_blank (by decide), trim_isBlankOrNewline hcs] at hbrace

theorem reads_block {rest : List Char} (hcs : Stops startsLayout cs)
    (h : Reads (rules n).stmt cs ('\n' :: '\x7d' :: rest) P) :
    Reads (block (rules n)) ('\x7b' :: '\n' :: cs) (trim isBlank rest)
      fun b => ∃ s, b.onlyStmt? = some s ∧ P s := by
  have hline := reads_newline ('\x7d' :: rest)
  rw [trim_isBlankOrNewline (by simp; decide)] at hline
  have hmore : Idle (separator *> (rules n).stmt) ('\n' :: '\x7d' :: rest) :=
    .seqRight' hline (idle_rules_stmt_close n rest)
  have hlist : Reads (sepBy1 (rules n).stmt separator) cs ('\n' :: '\x7d' :: rest) fun ss => ∃ s,
      ss = [s] ∧ P s :=
    h.sepBy1 (.nil (P := fun ss => ss = []) rfl) hmore fun s ss hs hss => ⟨s, by rw [hss], hs⟩
  refine (reads_open hcs).bind fun l _ => .bind (.orElse (hlist.seqLeft hline.opt)) ?_
  rintro _ ⟨s, rfl, hs⟩
  exact (reads_close rfl rest).bind fun r _ => .pure ⟨s, rfl, hs⟩

theorem yieldsAt_block (g : Rules) (hcs : Stops startsLayout cs) (h : YieldsAt g.stmt cs P) :
    YieldsAt (block g) ('\x7b' :: '\n' :: cs) fun b => ∀ s ∈ b.onlyStmt?, P s := by
  have hlist : YieldsAt (sepEndBy g.stmt separator) cs fun ss => ∀ s ∈ ss.head?, P s :=
    .orElse (.seqLeft h.sepBy1) ((Yields.pure (by simp)).at cs)
  refine .bind (reads_open hcs) fun l _ => hlist.bind' fun ss hss => .after fun r => .pure ?_
  match ss, hss with
  | [s], hss => simpa [Block.onlyStmt?] using hss
  | [], _ | _ :: _ :: _, _ => simp [Block.onlyStmt?]

theorem idle_param (cs : List Char) : Idle (param (rules n)) (')' :: cs) := by
  have hname : Idle ident (')' :: cs) := idle_ident (by simp; decide)
  have hdots : Idle (token "...") (')' :: cs) := idle_token (by simp [List.isPrefixOf])
  have htype : Idle (rules n).type (')' :: cs) := idle_rules_type n (by simp; decide)
  exact .orElse (.bind hname) (.bind (.orElse (.bind hdots) htype))

theorem reads_signature (pos : Pos) (cs : List Char) :
    Reads (signature (rules n) pos) ('(' :: ')' :: ' ' :: '\x7b' :: cs) ('\x7b' :: cs) fun _ =>
      True := by
  have hopen := reads_bracket (s := "(") rfl (')' :: ' ' :: '\x7b' :: cs)
  have hskip := reads_skip isBlankOrNewline (')' :: ' ' :: '\x7b' :: cs)
  rw [trim_isBlankOrNewline (by simp; decide)] at hopen hskip
  have hclose := reads_close (s := ")") rfl (' ' :: '\x7b' :: cs)
  rw [trim_blank (by decide), trim_isBlank (by simp; decide)] at hclose
  have hlist : Reads (sepEndBy (param (rules n)) (tokenNl ",")) (')' :: ' ' :: '\x7b' :: cs)
      (')' :: ' ' :: '\x7b' :: cs) fun _ => True :=
        .orElse' (.seqLeft (.sepBy1 (idle_param n _))) (.pure trivial)
  have hresults : Idle (results (rules n)) ('\x7b' :: cs) :=
    .orElse (.bind (idle_tokenNl (by simp [List.isPrefixOf])))
      (.bind (idle_rules_type n (by simp; decide)))
  exact .bind (P := fun _ => True)
    (hopen.bind fun _ _ => hlist.bind fun _ _ => hskip.bind fun _ _ =>
      hclose.bind fun _ _ => .pure trivial)
    fun _ _ => hresults.opt.bind fun _ _ => .pure trivial

theorem reads_separator (cs : List Char) :
    Reads separator ('\n' :: ("func f() \x7b\n".toList ++ cs)) ("func f() \x7b\n".toList ++ cs)
      fun _ => True := by
  have hline := reads_newline ("func f() \x7b\n".toList ++ cs)
  rwa [trim_isBlankOrNewline (by simp; decide)] at hline

theorem stops_word {c : Char} (h : " (\n".toList.contains c = true) (cs : List Char) :
    Stops Text.continuesWord (c :: cs) := by
  simpa using eq_false_of_contains (by decide) c h

def funcHead (g : Rules) : Parser (Option Block → FuncDecl) := do
  let funcPos ← keyword "func"
  let recv ← optional (params g)
  let name ← ident
  let type ← signature g funcPos
  return fun body => ⟨funcPos, recv, name, type.params, type.results, body⟩

theorem funcDecl_eq (g : Rules) :
    funcDecl g = (do return (← funcHead g) (← optional (block g))) := by
  simp [funcDecl, funcHead]

theorem reads_funcHead (cs : List Char) :
    Reads (funcHead (rules n)) ("func f() ".toList ++ '\x7b' :: cs) ('\x7b' :: cs)
      fun close => ∀ b, (close b).body = b := by
  have hfunc :=
    reads_keyword (w := "func") (by decide) (' ' :: 'f' :: '(' :: ')' :: ' ' :: '\x7b' :: cs)
    (stops_word (by decide) _)
  rw [trim_blank (by decide), trim_isBlank (by simp; decide)] at hfunc
  have hrecv : Idle (params (rules n)) ('f' :: '(' :: ')' :: ' ' :: '\x7b' :: cs) :=
    .bind (idle_tokenNl (by simp [List.isPrefixOf]))
  have hname := reads_ident (s := "f") (by unfold IsName; decide)
    (stops_word (c := '(') (by decide) (')' :: ' ' :: '\x7b' :: cs))
  rw [trim_isBlank (by simp; decide)] at hname
  exact hfunc.bind fun _ _ => hrecv.opt.bind fun _ _ => hname.bind fun _ _ =>
    (reads_signature n _ cs).bind fun _ _ =>
    .pure fun _ => rfl

def fileHead : Parser (List Decl → File) := do
  blanksNl
  let packagePos ← keyword "package"
  let name ← ident
  let imports ← many (separator *> importDecl)
  return fun decls => ⟨packagePos, name, imports.flatten, decls⟩

theorem file_eq (g : Rules) : file g = (do
    let close ← fileHead
    let decls ← many (separator *> decl g)
    let _ ← optional separator
    blanksNl
    atEnd
    return close decls) := by
  simp [file, fileBody, fileHead]

theorem reads_fileHead (cs : List Char) :
    Reads fileHead ("package p\nfunc f() \x7b\n".toList ++ cs)
      ('\n' :: ("func f() \x7b\n".toList ++ cs))
      fun close => ∀ ds, (close ds).decls = ds := by
  have hskip := reads_skip isBlankOrNewline ("package p\nfunc f() \x7b\n".toList ++ cs)
  rw [trim_isBlankOrNewline (by simp; decide)] at hskip
  have hpackage :=
    reads_keyword (w := "package") (by decide) (' ' :: ("p\nfunc f() \x7b\n".toList ++ cs))
    (stops_word (by decide) _)
  rw [trim_blank (by decide), trim_isBlank (by simp; decide)] at hpackage
  have hname := reads_ident (s := "p") (by unfold IsName; decide)
    (stops_word (c := '\n') (by decide) ("func f() \x7b\n".toList ++ cs))
  rw [trim_of_ne (by decide) (by decide)] at hname
  have himport : Idle importDecl ("func f() \x7b\n".toList ++ cs) :=
    .bind (idle_keyword_of_word (s := "func") (by decide) (stops_word (by decide) _) (by decide))
  have himports : Idle (separator *> importDecl) ('\n' :: ("func f() \x7b\n".toList ++ cs)) :=
    .seqRight' (reads_separator cs) himport
  exact hskip.bind fun _ _ => hpackage.bind fun _ _ => hname.bind fun _ _ =>
    himports.many.bind fun _ _ =>
    .pure fun _ => rfl

/-- A statement that is read from its text by itself is the only one of the file around it. -/
theorem reads_file (hcs : Stops startsLayout cs)
    (h : Reads (rules n).stmt cs ['\n', '\x7d', '\n'] P) :
    Reads (file (rules n)) ("package p\nfunc f() \x7b\n".toList ++ cs) [] fun f => ∃ s,
    f.onlyStmt? = some s ∧ P s := by
  have hbody := reads_block n hcs h
  rw [trim_of_ne (by decide) (by decide)] at hbody
  have hfunc : Reads (funcDecl (rules n)) ("func f() \x7b\n".toList ++ cs) ['\n'] fun f =>
      ∃ s, f.body.bind Block.onlyStmt? = some s ∧ P s := by
    rw [funcDecl_eq]
    refine (reads_funcHead n ('\n' :: cs)).bind fun close hclose => hbody.opt.bind ?_
    rintro _ ⟨b, rfl, hb⟩
    exact .pure (by simpa [hclose] using hb)
  have hdecl : Reads (decl (rules n)) ("func f() \x7b\n".toList ++ cs) ['\n'] fun d =>
      ∃ s, d.onlyStmt? = some s ∧ P s := .orElse (hfunc.bind fun f hf => .pure hf)
  have hlast := reads_newline []
  rw [trim_nil] at hlast
  have hmore : Idle (separator *> decl (rules n)) ['\n'] := .seqRight' hlast (idle_decl_nil _)
  have hdecls :
      Reads (many (separator *> decl (rules n))) ('\n' :: ("func f() \x7b\n".toList ++ cs)) ['\n']
      fun ds => ∃ d, ds = [d] ∧ ∃ s, d.onlyStmt? = some s ∧ P s :=
    (Series.cons ((reads_separator cs).seqRight hdecl) (by simp) (.nil (P := fun ds => ds = []) rfl)
      fun d ds hd hds => ⟨d, by rw [hds], hd⟩).many hmore
  have hend : Reads atEnd [] [] fun _ => True := fun o => ⟨(), o, rfl, trivial⟩
  have hblank := reads_skip isBlankOrNewline []
  rw [trim_nil] at hblank
  rw [file_eq]
  refine (reads_fileHead cs).bind fun close hclose => hdecls.bind fun ds hds =>
    hlast.opt.bind fun _ _ =>
    hblank.bind fun _ _ => hend.bind fun _ _ => .pure ?_
  obtain ⟨d, rfl, hd⟩ := hds
  simpa [File.onlyStmt?, hclose, onlyStmtOf] using hd

theorem yieldsAt_file {n : Nat} (hcs : Stops startsLayout cs) (h : YieldsAt (rules n).stmt cs P) :
    YieldsAt (file (rules n)) ("package p\nfunc f() \x7b\n".toList ++ cs) fun f => ∀ s ∈
      f.onlyStmt?, P s := by
  have hfunc : YieldsAt (funcDecl (rules n)) ("func f() \x7b\n".toList ++ cs) fun f =>
      ∀ s ∈ f.body.bind Block.onlyStmt?, P s := by
    rw [funcDecl_eq]
    refine .bind (reads_funcHead n ('\n' :: cs)) fun close hclose =>
      (yieldsAt_block _ hcs h).opt.bind' fun b hb => .pure ?_
    rw [hclose]
    cases b with
    | none => simp
    | some b => exact hb b rfl
  have hgen : Yields (do return Decl.gen (← genDecl (rules n))) fun d => ∀ s ∈ d.onlyStmt?, P s :=
    .after fun _ => .pure (by simp [Decl.onlyStmt?])
  have hdecl : YieldsAt (decl (rules n)) ("func f() \x7b\n".toList ++ cs) fun d =>
      ∀ s ∈ d.onlyStmt?, P s :=
    .orElse (hfunc.bind' fun f hf => .pure hf) (hgen.at _)
  rw [file_eq]
  refine .bind (reads_fileHead cs) fun close hclose =>
    (YieldsAt.many (.seqRight (reads_separator cs) hdecl)).bind' fun ds hds => .after fun _ =>
      .after fun _ => .after fun _ => .pure ?_
  rw [File.onlyStmt?, hclose]
  match ds, hds with
  | [d], hds => exact hds d rfl
  | [], _ | _ :: _ :: _, _ => simp [onlyStmtOf]

theorem toList_inBody (text : String) : (inBody text).toList =
    "package p\nfunc f() \x7b\n".toList ++ (text.toList ++ ['\n', '\x7d', '\n']) := by
  unfold inBody
  rw [String.toList_append, String.toList_append]
  exact List.append_assoc _ _ _

theorem parse?_inBody {text : String}
    (htext : Stops startsLayout (text.toList ++ ['\n', '\x7d', '\n']))
    (h : Reads (rules (depthFor (inBody text).toList)).stmt (text.toList ++ ['\n', '\x7d', '\n'])
      ['\n', '\x7d', '\n'] P) :
    ∃ f s, parse? (inBody text) = some f ∧ f.onlyStmt? = some s ∧ P s := by
  obtain ⟨f, o, hf, s, hs, hP⟩ := reads_file _ htext h 0
  refine ⟨f, s, ?_, hs, hP⟩
  rw [← toList_inBody] at hf
  change Option.map Prod.fst (file _ ⟨0, (inBody text).toList⟩) = some f
  rw [hf]
  rfl

theorem of_parse?_inBody {text : String}
    (htext : Stops startsLayout (text.toList ++ ['\n', '\x7d', '\n']))
    (h : YieldsAt (rules (depthFor (inBody text).toList)).stmt (text.toList ++ ['\n', '\x7d', '\n'])
      P) {f : File}
    (hf : parse? (inBody text) = some f) {s : Stmt} (hs : f.onlyStmt? = some s) : P s := by
  obtain ⟨⟨f, t⟩, hrun, rfl⟩ := Option.map_eq_some_iff.1 hf
  have hyields := yieldsAt_file htext h
  rw [← toList_inBody] at hyields
  exact hyields 0 f t hrun s hs

end Grammar

end GoFun
