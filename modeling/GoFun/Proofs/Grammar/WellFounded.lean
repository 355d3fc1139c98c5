import GoFun.Proofs.Grammar.Coincide

/-!
# The recursion of the grammar

Every round of every list in the grammar takes a character, so nothing hangs on what a list makes of
an idle round. Every rule comes back to itself only behind a character. So the recursive equations
of the open rules have one solution, and on a text of `n` characters `2 * n + 2` levels of nesting
give its answers, whatever stands below them.
-/
namespace GoFun.Grammar

open GoFun.Parser

section Nesting

variable {n : Nat} {g g' : Rules} {i i' : IdleRound}

theorem Rules.Coincide.le {m : Nat} (hg : g.Coincide n g') (h : m ≤ n) : g.Coincide m g' where
  expr := hg.expr.le h (Nat.le_refl 1)
  type := hg.type.le h (Nat.le_refl 1)
  stmt := hg.stmt.le h (Nat.le_refl 1)
  elements := hg.elements.le h (Nat.le_refl 1)
  conditional := hg.conditional.le h (Nat.le_refl 1)

theorem Rules.Coincide.next (hg : g.Coincide n g') :
    (@Rules.next i g).Coincide n (@Rules.next i' g') where
  expr := (coincide_expr hg).less
  type := (coincide_type hg).less
  stmt := by
    cases n with
    | zero => exact .vacuous _ _
    | succ n => exact coincide_stmt (hg.le (Nat.le_succ n)) hg.expr hg.conditional
  elements := (coincide_elements hg).less
  conditional := (coincide_conditional hg).less

/-- Two levels more are good for a character more: a statement waits for the expressions and
conditionals. -/
theorem Rules.Coincide.next_next (hg : g.Coincide n g') :
    (@Rules.next i (@Rules.next i g)).Coincide (n + 1) (@Rules.next i' (@Rules.next i' g')) where
  expr := coincide_expr hg.next
  type := coincide_type hg.next
  stmt := coincide_stmt hg.next (coincide_expr hg) (coincide_conditional hg)
  elements := coincide_elements hg.next
  conditional := coincide_conditional hg.next

/-- What stands below `2 * n` levels does not matter on texts of less than `n` characters. -/
theorem coincide_repeat (n k k' : Nat) (g g' : Rules) :
    (Nat.repeat (@Rules.next i) (2 * n + k) g).Coincide n
      (Nat.repeat (@Rules.next i') (2 * n + k') g') := by
  induction n with
  | zero => exact ⟨.vacuous _ _, .vacuous _ _, .vacuous _ _, .vacuous _ _, .vacuous _ _⟩
  | succ n ih =>
    rw [show 2 * (n + 1) + k = 2 * n + k + 1 + 1 by omega,
      show 2 * (n + 1) + k' = 2 * n + k' + 1 + 1 by omega]
    exact ih.next_next

theorem coincide_of_le {d d' : Nat} (hd : 2 * n ≤ d) (hd' : 2 * n ≤ d') (g g' : Rules) :
    (Nat.repeat (@Rules.next i) d g).Coincide n (Nat.repeat (@Rules.next i') d' g') := by
  obtain ⟨k, rfl⟩ := Nat.exists_eq_add_of_le hd
  obtain ⟨k', rfl⟩ := Nat.exists_eq_add_of_le hd'
  exact coincide_repeat n k k' g g'

theorem rules_coincide (depth n : Nat) : (rules depth).Coincide n (rules depth) := by
  induction depth with
  | zero =>
    have h : ∀ {α : Type}, Coincide n 1 (failure : Parser α) failure :=
      ⟨fun _ _ => rfl, fun _ h => nomatch h⟩
    exact ⟨h, h, h, h, h⟩
  | succ depth ih => exact ih.next

end Nesting

/-- Each text is read by the rules that are deep enough for it. -/
def limit : Rules where
  expr s := (rules (depthFor s.rest)).expr s
  type s := (rules (depthFor s.rest)).type s
  stmt s := (rules (depthFor s.rest)).stmt s
  elements s := (rules (depthFor s.rest)).elements s
  conditional s := (rules (depthFor s.rest)).conditional s

section Limit

variable {n d : Nat} {i i' : IdleRound}

/-- A parser that reads each text with rules that are deep enough does the same as one set of rules
for all of them. -/
theorem coincide_limit_of {α : Type} (field : Rules → Parser α)
    (h : ∀ {n g g'}, Rules.Coincide n g g' → Coincide n 1 (field g) (field g')) (hd : 2 * n ≤ d)
    (g : Rules) : Coincide n 1 (fun s => field (@rules .ends (depthFor s.rest)) s)
      (field (Nat.repeat (@Rules.next i) d g)) where
  same s hs := by
    refine (h (n := s.rest.length + 1) (coincide_of_le ?_ ?_ _ _)).same s (Nat.lt_succ_self _)
    · exact Nat.le_refl _
    · omega
  takes {s a t} hs ha := (h (rules_coincide _ (s.rest.length + 1))).takes (Nat.lt_succ_self _) ha

theorem limit_coincide (hd : 2 * n ≤ d) (g : Rules) :
    limit.Coincide n (Nat.repeat (@Rules.next i) d g) where
  expr := coincide_limit_of Rules.expr Rules.Coincide.expr hd g
  type := coincide_limit_of Rules.type Rules.Coincide.type hd g
  stmt := coincide_limit_of Rules.stmt Rules.Coincide.stmt hd g
  elements := coincide_limit_of Rules.elements Rules.Coincide.elements hd g
  conditional := coincide_limit_of Rules.conditional Rules.Coincide.conditional hd g

/-- Rules that do what deep enough rules do are the rules of unlimited nesting. -/
theorem eq_limit {g : Rules}
    (h : ∀ n, ∃ d ≥ 2 * n, ∃ bottom, g.Coincide n (Nat.repeat (@Rules.next i) d bottom)) :
    g = limit := by
  have hfield : ∀ {α : Type} (field : Rules → Parser α),
      (∀ {n g g'}, Rules.Coincide n g g' → Coincide n 1 (field g) (field g')) →
        field g = field limit := by
    intro α field hcoincide
    funext s
    obtain ⟨d, hd, bottom, hg⟩ := h (s.rest.length + 1)
    exact ((hcoincide hg).same s (Nat.lt_succ_self _)).trans
      ((hcoincide (limit_coincide hd bottom)).same s (Nat.lt_succ_self _)).symm
  have hext : ∀ g g' : Rules, g.expr = g'.expr → g.type = g'.type → g.stmt = g'.stmt →
      g.elements = g'.elements →
      g.conditional = g'.conditional → g = g' := by
    rintro ⟨⟩ ⟨⟩ rfl rfl rfl rfl rfl
    rfl
  exact hext g limit (hfield _ Rules.Coincide.expr) (hfield _ Rules.Coincide.type)
    (hfield _ Rules.Coincide.stmt)
    (hfield _ Rules.Coincide.elements) (hfield _ Rules.Coincide.conditional)

theorem next_limit : @Rules.next i limit = limit :=
  eq_limit (i := i) fun n =>
    ⟨2 * n + 1, Nat.le_succ _, Rules.none, (limit_coincide (Nat.le_refl _) Rules.none).next⟩

theorem eq_limit_of_next_eq {g : Rules} (h : @Rules.next i g = g) : g = limit := by
  have hrepeat : ∀ d, Nat.repeat (@Rules.next i) d g = g := by
    intro d
    induction d with
    | zero => rfl
    | succ d ih => exact (congrArg (@Rules.next i) ih).trans h
  refine eq_limit (i := i) fun n => ⟨2 * n, Nat.le_refl _, Rules.none, ?_⟩
  rw [← hrepeat (2 * n)]
  exact coincide_of_le (Nat.le_refl _) (Nat.le_refl _) g Rules.none

/-- A file is read by the rules of unlimited nesting as it is by rules that are deep enough for
it. -/
theorem file_limit (cs : List Char) {depth : Nat} (h : depthFor cs ≤ depth) (bottom : Rules)
    (o : Nat) :
    @file i (Nat.repeat (@Rules.next i) depth bottom) ⟨o, cs⟩ = @file i' limit ⟨o, cs⟩ := by
  have hdepth : 2 * cs.length ≤ depth := Nat.le_trans (Nat.le_add_right _ 2) h
  exact ((coincide_file (limit_coincide hdepth bottom)).same ⟨o, cs⟩ (Nat.lt_succ_self _)).symm

end Limit

def layoutPiece (blank : Char → Bool) : Parser (Nat × List Char) :=
  lexeme (Lexer.one blank <|> Lex.comment)

theorem layoutPiece_eq (blank : Char → Bool) (o : Nat) (cs : List Char) :
    layoutPiece blank ⟨o, cs⟩ =
      ((Lexer.one blank cs <|> Lex.comment cs).map fun x =>
      ((o, x.1), ⟨o + utf8Length x.1, x.2⟩)) := by
  have happly : (Lexer.one blank <|> Lex.comment) cs = (Lexer.one blank cs <|> Lex.comment cs) :=
    rfl
  simp only [layoutPiece, lexeme, happly]
  cases (Lexer.one blank cs <|> Lex.comment cs) <;> rfl

theorem coincide_layoutPiece {n : Nat} (blank : Char → Bool) :
    Coincide n 1 (layoutPiece blank) (layoutPiece blank) := by
  refine .of_takes fun s x t h => ?_
  obtain ⟨o, cs⟩ := s
  rw [layoutPiece_eq] at h
  obtain ⟨⟨piece, rest⟩, hpiece, hx⟩ := Option.map_eq_some_iff.1 h
  obtain ⟨-, rfl⟩ := Prod.mk.inj hx
  cases hone : Lexer.one blank cs with
  | none => exact Lex.comment_shorter (by rwa [hone] at hpiece)
  | some y =>
    rw [hone] at hpiece
    obtain rfl : y = (piece, rest) := Option.some.inj hpiece
    obtain ⟨c, -, rfl, -⟩ := Lex.one_eq_some.1 hone
    exact Nat.lt_succ_self _

/-- Layout is a list of blanks and comments. -/
theorem skip_eq_many (i : IdleRound) (blank : Char → Bool) :
    skip blank = (do let _ ← @many _ i (layoutPiece blank)) := by
  have hstep : ∀ {o : Nat} {cs piece rest : List Char}, rest.length < cs.length →
      (Lexer.one blank cs <|> Lex.comment cs) = some (piece, rest) →
      (manyFrom (layoutPiece blank) ⟨o, cs⟩).2 =
        (manyFrom (layoutPiece blank) ⟨o + utf8Length piece, rest⟩).2 := by
    intro o cs piece rest hlt h
    rw [manyFrom, layoutPiece_eq, h]
    dsimp only [Option.map_some]
    rw [if_pos hlt]
  have hend : ∀ {o : Nat} {cs : List Char}, (Lexer.one blank cs <|> Lex.comment cs) = none →
      (manyFrom (layoutPiece blank) ⟨o, cs⟩).2 = ⟨o, cs⟩ := by
    intro o cs h
    rw [manyFrom, layoutPiece_eq, h]
    rfl
  funext s
  obtain ⟨o, cs⟩ := s
  have hmany :
      @many _ i (layoutPiece blank) ⟨o, cs⟩ = some (manyFrom (layoutPiece blank) ⟨o, cs⟩) :=
    (coincide_layoutPiece blank).many_eq _ (Nat.lt_succ_self _)
  rw [bind_apply _ hmany]
  clear hmany
  change some ((), (⟨o + utf8Length (Lex.layout blank cs).1, (Lex.layout blank cs).2⟩ : Cursor)) =
    some ((), (manyFrom (layoutPiece blank) ⟨o, cs⟩).2)
  congr 2
  fun_induction Lex.layout blank cs generalizing o with
  | case1 => exact (hend (show (Lexer.one blank [] <|> Lex.comment []) = none from rfl)).symm
  | case2 c tail hc s rest hrec ih =>
    have hpiece : (Lexer.one blank (c :: tail) <|> Lex.comment (c :: tail)) =
        some ([c], tail) := by simp [Lexer.one, hc]
    rw [hstep (Nat.lt_succ_self _) hpiece, ← ih, hrec]
    simp [utf8Length, Nat.add_assoc]
  | case3 c tail hc s rest h hlt t last hrec ih =>
    have hpiece : (Lexer.one blank (c :: tail) <|> Lex.comment (c :: tail)) =
        some (s, rest) := by simp [Lexer.one, hc, h]
    rw [hstep hlt hpiece, ← ih, hrec]
    simp [utf8Length, Nat.add_assoc]
  | case4 c tail hc h => exact (hend (by simp [Lexer.one, hc, h])).symm

/-- The rounds of the repetitions: layout, prefixes, suffixes, clauses and declarations. -/
def repeatedRounds (g : Rules) : List ((γ : Type) × Parser γ) :=
  [⟨_, layoutPiece Lex.isBlank⟩, ⟨_, layoutPiece Lex.isBlankOrNewline⟩,
    ⟨_, tokenOf Lead.symbol leads <* blanks⟩, ⟨_, tail g false⟩, ⟨_, tail g true⟩,
    ⟨_, caseClause g⟩, ⟨_, commClause g⟩, ⟨_, separator *> importDecl⟩, ⟨_, separator *> decl g⟩]

def operatorRounds (g : Rules) : List ((γ : Type) × Parser γ) :=
  [1, 2, 3, 4, 5].flatMap fun k => [⟨_, step g false k⟩, ⟨_, step g true k⟩]

/-- What a separated list reads for its first item, and what it reads for every other one. -/
def listRounds {α β : Type} (item : Parser α) (sep : Parser β) : List ((γ : Type) × Parser γ) :=
  [⟨α, item⟩, ⟨α, sep *> item⟩]

def separatedRounds (g : Rules) : List (List ((γ : Type) × Parser γ)) :=
  [listRounds ident (token ","), listRounds ident (tokenNl ","), listRounds g.expr (tokenNl ","),
    listRounds (headerExpr g) (tokenNl ","), listRounds (param g) (tokenNl ","),
    listRounds (keyedElement g) (tokenNl ","), listRounds (structField g) separator,
    listRounds (methodSpec g) separator, listRounds g.stmt separator, listRounds (valueSpec g)
      separator, listRounds (typeSpec g) separator, listRounds importSpec separator]

/-- The rounds of all repetitions and separated lists of the grammar. -/
def rounds (g : Rules) : List ((γ : Type) × Parser γ) :=
  repeatedRounds g ++ operatorRounds g ++ (separatedRounds g).flatten

section Rounds

variable {n : Nat} {g : Rules} (hg : g.Coincide n g)

include hg

theorem coincide_repeatedRounds : ∀ round ∈ repeatedRounds g, Coincide n 1 round.2 round.2 := by
  simp only [repeatedRounds, List.forall_mem_cons]
  exact ⟨coincide_layoutPiece _, coincide_layoutPiece _, coincide_lead, coincide_tail hg false,
    coincide_tail hg true, (coincide_caseClause hg).less, (coincide_commClause hg).less,
    coincide_separator.seqRight coincide_importDecl,
      coincide_separator.seqRight (coincide_decl hg).less, List.forall_mem_nil _⟩

theorem coincide_operatorRounds : ∀ round ∈ operatorRounds g, Coincide n 1 round.2 round.2 := by
  have hbinding : ∀ inHeader k,
      Coincide n 1 (binding (primaryOf g inHeader) k) (binding (primaryOf g inHeader) k) :=
    fun inHeader k => coincide_levels _ (coincide_unaryExpr (coincide_primaryOf hg inHeader).less)
  have hstep : ∀ inHeader k, Coincide n 1 (step g inHeader k) (step g inHeader k) :=
    fun inHeader k =>
    (coincide_operatorOf _).bind fun _ => (hbinding inHeader (k + 1)).give _
  refine List.forall_mem_flatMap.2 fun k _ => ?_
  simp only [List.forall_mem_cons]
  exact ⟨hstep false k, hstep true k, List.forall_mem_nil _⟩

theorem coincide_separatedRounds :
    ∀ list ∈ separatedRounds g, ∀ round ∈ list, Coincide n 1 round.2 round.2 := by
  have hlist : ∀ {α β : Type} {item : Parser α} {sep : Parser β}, Coincide n 1 item item →
      Coincide n 1 sep sep →
      ∀ round ∈ listRounds item sep, Coincide n 1 round.2 round.2 := by
    intro α β item sep hitem hsep
    simp only [listRounds, List.forall_mem_cons]
    exact ⟨hitem, hsep.seqRight hitem, List.forall_mem_nil _⟩
  have hcomma : Coincide n 1 (tokenNl ",") (tokenNl ",") := coincide_tokenNl (by decide)
  simp only [separatedRounds, List.forall_mem_cons]
  exact ⟨hlist coincide_ident (coincide_token (by decide)), hlist coincide_ident hcomma,
    hlist hg.expr hcomma, hlist (coincide_headerExpr hg).less hcomma,
    hlist (coincide_param hg) hcomma, hlist (coincide_keyedElement hg) hcomma,
    hlist (coincide_structField hg) coincide_separator,
    hlist (coincide_methodSpec hg).less coincide_separator, hlist hg.stmt coincide_separator,
    hlist (coincide_valueSpec hg) coincide_separator, hlist (coincide_typeSpec hg)
      coincide_separator, hlist coincide_importSpec coincide_separator, List.forall_mem_nil _⟩

theorem coincide_rounds : ∀ round ∈ rounds g, Coincide n 1 round.2 round.2 := by
  intro round hround
  rcases List.mem_append.1 hround with hround | hround
  · rcases List.mem_append.1 hround with hround | hround
    · exact coincide_repeatedRounds hg round hround
    · exact coincide_operatorRounds hg round hround
  · obtain ⟨list, hlist, hround⟩ := List.mem_flatten.1 hround
    exact coincide_separatedRounds hg list hlist round hround

end Rounds

/-- The recursion of the grammar is well-founded on every text. Layout is a list like the others,
and a round of a list takes a character. A rule comes back to itself behind a character only: with
open rules that do the same on all shorter texts it does the same on a text, where a statement may
begin with an expression or a conditional. So the recursive equations have one solution. It reads
every file as the parser does, and so does every set of rules with enough levels, however deep it is
and whatever stands below. All of this holds whether lists end before an idle round or fail
there. -/
theorem recursion_wellFounded :
    (∀ i blank, skip blank = do let _ ← @many _ i (layoutPiece blank)) ∧
    (∀ depth, ∀ round ∈ rounds (rules depth), ∀ s a t,
      round.2 s = some (a, t) → t.rest.length < s.rest.length) ∧
    (∀ (i i' : IdleRound) n g g', Rules.Coincide n g g' →
      Coincide (n + 1) 1 (@expr i g) (@expr i' g') ∧ Coincide (n + 1) 1 (@type i g) (@type i' g') ∧
      Coincide (n + 1) 1 (@elements i g) (@elements i' g') ∧
      Coincide (n + 1) 1 (@conditional i g) (@conditional i' g') ∧
      Coincide (n + 1) 1 (@stmt i { g with expr := @expr i g, conditional := @conditional i g })
        (@stmt i' { g' with expr := @expr i' g', conditional := @conditional i' g' })) ∧
    (∃ g : Rules, (∀ i g', @Rules.next i g' = g' ↔ g' = g) ∧
      ∀ i text, parse? text = ((@file i g).run ⟨0, text.toList⟩).map Prod.fst) ∧
    ∀ i text depth, depthFor text.toList ≤ depth → ∀ bottom,
      ((@file i (Nat.repeat (@Rules.next i) depth bottom)).run ⟨0, text.toList⟩).map Prod.fst =
        parse? text := by
  refine ⟨skip_eq_many, fun depth round hround s a t ha => ?_, fun i i' n g g' hg => ?_,
    ⟨limit, fun i g' => ?_, fun i text => ?_⟩, fun i text depth hdepth bottom => ?_⟩
  · exact (coincide_rounds (rules_coincide depth (s.rest.length + 1)) round hround).takes
      (Nat.lt_succ_self _) ha
  · have hexpr : Coincide (n + 1) 1 (@expr i g) (@expr i' g') := coincide_expr hg
    have hcond : Coincide (n + 1) 1 (@conditional i g) (@conditional i' g') :=
      coincide_conditional hg
    have hahead : Rules.Coincide n { g with expr := @expr i g, conditional := @conditional i g }
        { g' with expr := @expr i' g', conditional := @conditional i' g' } :=
      ⟨hexpr.less, hg.type, hg.stmt, hg.elements, hcond.less⟩
    exact ⟨hexpr, coincide_type hg, coincide_elements hg, hcond, coincide_stmt hahead hexpr hcond⟩
  · constructor
    · exact eq_limit_of_next_eq
    · rintro rfl
      exact next_limit
  · exact congrArg (Option.map Prod.fst) (file_limit text.toList (Nat.le_refl _) Rules.none 0)
  · have hlimit : @file i (Nat.repeat (@Rules.next i) depth bottom) ⟨0, text.toList⟩ =
        @file i limit ⟨0, text.toList⟩ := file_limit _ hdepth bottom 0
    exact congrArg (Option.map Prod.fst)
      (hlimit.trans (file_limit _ (Nat.le_refl _) Rules.none 0).symm)

/-- Rules that accept everything and take nothing. -/
def idleRules : Rules where
  expr := pure (.ident ⟨none, "_", none⟩)
  type := pure (.ident ⟨none, "_", none⟩)
  stmt := pure (.jump none .brk none)
  elements := pure ⟨none, [], none⟩
  conditional := pure (.jump none .brk none)

def nestedText : String :=
  "package p\nfunc f() \x7b if x \x7b for \x7b f(((a[1])), []T\x7bv, w\x7d) \x7d \x7d \x7d"

/-- Even such rules may stand below the levels that a file needs. -/
theorem recursion_wellFounded_nested :
    (parse? nestedText).isSome ∧ depthFor nestedText.toList ≤ 200 ∧
      ((file (Nat.repeat Rules.next 200 idleRules)).run ⟨0, nestedText.toList⟩).map Prod.fst =
      parse? nestedText :=
  ⟨by decide +kernel, by decide, recursion_wellFounded.2.2.2.2 _ _ 200 (by decide) idleRules⟩

end GoFun.Grammar
