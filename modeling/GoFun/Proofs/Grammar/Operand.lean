import GoFun.Grammar.File
import GoFun.Proofs.Grammar.Token

/-!
# Reading expressions

An expression is read from the operand outwards: an operand, its suffixes, the unary operators in
front, and one level of binary operators after the other. Each part is given here as it is read from
a text, with the parts inside it as hypotheses.
-/
namespace GoFun

open Parser Lex

variable {cs : List Char}

theorem Lex.length_trim_le (blank : Char → Bool) (cs : List Char) :
    (trim blank cs).length ≤ cs.length := by
  unfold trim
  fun_induction layout blank cs with
  | case1 => simp
  | case2 c tail h s rest heq ih => simp_all; omega
  | case3 c tail h s rest hc hlt t last heq ih => simp_all; omega
  | case4 c tail h hc => simp

def Lex.startsLayout (c : Char) : Bool := " \t\r\n/".toList.contains c

theorem Lex.trim_of_stops {blank : Char → Bool} (hb : ∀ c, blank c = true → startsLayout c = true)
    (h : Stops startsLayout cs) : trim blank cs = cs := by
  cases cs with
  | nil => exact trim_nil blank
  | cons c cs =>
    have hc : startsLayout c = false := by simpa using h
    refine trim_of_ne (Bool.eq_false_iff.2 fun hblank => ?_) ?_ cs
    · simp [hb c hblank] at hc
    · rintro rfl
      exact absurd hc (by decide)

theorem Lex.trim_isBlank (h : Stops startsLayout cs) : trim isBlank cs = cs :=
  trim_of_stops (by simp +contextual [isBlank, startsLayout, or_imp]) h

theorem Lex.trim_isBlankOrNewline (h : Stops startsLayout cs) : trim isBlankOrNewline cs = cs :=
  trim_of_stops (by simp +contextual [isBlankOrNewline, isBlank, startsLayout, or_imp]) h

namespace Grammar

variable {α : Type} {rest mid cs₁ : List Char} {s : String} {p : Char → Bool} {P : Expr → Prop}
  {k : Nat} {c : Char} {spelling : α → String} {choices : List α}

variable (g : Rules)

theorem reads_tokenOf {a : α} (ha : a ∈ choices)
    (h : ∀ b ∈ choices, b ≠ a → (spelling b).toList.isPrefixOf ((spelling a).toList ++ rest) =
      false) :
    Reads (tokenOf spelling choices) ((spelling a).toList ++ rest) rest fun x => x.2 = a := by
  induction choices with
  | nil => cases ha
  | cons b choices ih =>
    by_cases hb : b = a
    · subst hb
      exact .orElse (.bind (reads_lexeme (text_eq_some.2 ⟨rfl, rfl⟩)) fun _ _ => .pure rfl)
    · exact .orElse' (.bind (idle_lexeme (text_eq_none (h b (by simp) hb))))
        (ih ((List.mem_cons.1 ha).resolve_left (Ne.symm hb)) fun c hc => h c (by simp [hc]))

theorem idle_tokenOf (h : ∀ a ∈ choices, (spelling a).toList.isPrefixOf cs = false) :
    Idle (tokenOf spelling choices) cs := by
  induction choices with
  | nil => exact fun _ => rfl
  | cons a choices ih =>
    exact .orElse (.bind (idle_lexeme (text_eq_none (h a (by simp)))))
      (ih fun b hb => h b (by simp [hb]))

def startsLead (c : Char) : Bool := "<*+-!^&".toList.contains c

theorem isPrefixOf_eq_false (hs : s.toList ≠ []) (h : s.toList.head? ≠ cs.head?) :
    s.toList.isPrefixOf cs = false := by
  cases hl : s.toList with
  | nil => exact absurd hl hs
  | cons d t =>
    cases cs with
    | nil => rfl
    | cons c cs =>
      have hne : d ≠ c := by simpa [hl] using h
      simp [List.isPrefixOf, hne]

theorem isPrefixOf_of_stops (hs : s.toList.head?.any p = true) (h : Stops p cs) :
    s.toList.isPrefixOf cs = false := by
  obtain ⟨d, hd, hp⟩ := (Option.any_eq_true _ _).1 hs
  refine isPrefixOf_eq_false (by intro hnil; simp [hnil] at hd) fun he => ?_
  simp [h d (by rw [← he, hd]; rfl)] at hp

theorem idle_tokenOf_of_stops (hs : ∀ a ∈ choices, (spelling a).toList.head?.any p = true)
    (h : Stops p cs) :
    Idle (tokenOf spelling choices) cs :=
  idle_tokenOf fun a ha => isPrefixOf_of_stops (hs a ha) h

theorem Lead.symbol_ne_nil (l : Lead) : l.symbol.toList ≠ [] := by
  cases l with
  | deref => decide
  | op o => cases o <;> decide

theorem Lead.symbol_head (l : Lead) : ∃ c t, l.symbol.toList = c :: t ∧ startsLead c = true := by
  cases l with
  | deref => exact ⟨_, _, rfl, by decide⟩
  | op o => cases o <;> exact ⟨_, _, rfl, by decide⟩

theorem idle_lead (h : Stops startsLead cs) : Idle (tokenOf Lead.symbol leads <* blanks) cs :=
  .seqLeft (idle_tokenOf_of_stops (by decide) h)

theorem reads_lead (l : Lead) (hcs : trim isBlank cs = mid) :
    Reads (tokenOf Lead.symbol leads <* blanks) (l.symbol.toList ++ cs) mid fun x => x.2 = l := by
  have hmem : l ∈ leads := by
    cases l with
    | deref => simp [leads]
    | op o => cases o <;> simp [leads]
  -- All of them begin with different characters.
  have hhead : ∀ b : Lead, b ≠ l → b.symbol.toList.head? ≠ l.symbol.toList.head? := by
    intro b hne
    rcases l with _ | o <;> rcases b with _ | o' <;> first
      | exact absurd rfl hne
      | (cases o <;> decide)
      | (cases o' <;> decide)
      | (cases o <;> cases o' <;> first | exact absurd rfl hne | decide)
  refine .seqLeft (Q := fun _ => True) (reads_tokenOf hmem fun b _ hne => ?_) ?_
  · refine isPrefixOf_eq_false b.symbol_ne_nil fun he => hhead b hne ?_
    rw [he, List.head?_append, Option.or_of_isSome]
    simpa using l.symbol_ne_nil
  · have hskip := reads_skip isBlank cs
    rwa [hcs] at hskip

/-- A unary operator more in front is read, and applied last. -/
theorem reads_unaryExpr_lead {p : Parser Expr} {next : List Char}
    (h : Reads (unaryExpr p) mid next P) (l : Lead) (hcs : trim isBlank cs = mid) :
    Reads (unaryExpr p) (l.symbol.toList ++ cs) next fun e => ∃ pos x, P x ∧
    e = applyLead (pos, l) x := by
  intro o
  obtain ⟨⟨pos, l'⟩, o₁, hlead, rfl⟩ := reads_lead l hcs o
  obtain ⟨x, o₂, hx, hP⟩ := h o₁
  obtain ⟨before, t, hmany, hx⟩ := Parser.bind_eq_some hx
  obtain ⟨y, u, hy, hx⟩ := Parser.bind_eq_some hx
  obtain ⟨rfl, rfl⟩ := result_inj hx
  have hlt : mid.length < (l'.symbol.toList ++ cs).length := by
    have := List.length_pos_iff.2 l'.symbol_ne_nil
    have := hcs ▸ length_trim_le isBlank cs
    simp only [List.length_append]
    omega
  have hmany' : many (tokenOf Lead.symbol leads <* blanks) ⟨o, l'.symbol.toList ++ cs⟩ =
      some ((pos, l') :: before, t) := by
    have hfrom : manyFrom (tokenOf Lead.symbol leads <* blanks) ⟨o₁, mid⟩ = (before, t) :=
      Option.some.inj hmany
    rw [many, manyFrom, hlead]
    simp only [hlt, if_true, hfrom]
  refine ⟨_, o₂, ?_, pos, before.foldr applyLead y, hP, rfl⟩
  unfold unaryExpr
  rw [Parser.bind_apply _ hmany', Parser.bind_apply _ hy]
  rfl

theorem reads_unaryExpr {p : Parser Expr} {next : List Char} (h : Reads p cs next P)
    (hcs : Stops startsLead cs) :
    Reads (unaryExpr p) cs next P :=
  .bind (idle_lead hcs).many fun before hb => .bind h fun x hx => .pure (by rw [hb]; exact hx)

theorem idle_unaryExpr {p : Parser Expr} (h : Idle p cs) (hcs : Stops startsLead cs) :
    Idle (unaryExpr p) cs :=
  .bind' (idle_lead hcs).many fun _ _ => .bind h

/-- Expressions that bind at least with strength `k`. -/
def binding (primary : Parser Expr) (k : Nat) : Parser Expr :=
  (levels.take (6 - k)).foldl (fun p level => chain p (operatorOf level) joinBinary)
    (unaryExpr primary)

theorem binding_eq_chain (primary : Parser Expr) (h : 0 < k) (h' : k < 6) :
    binding primary k = chain (binding primary (k + 1)) (operatorOf (levelAt k)) joinBinary := by
  match k, h, h' with
  | 1, _, _ | 2, _, _ | 3, _, _ | 4, _, _ | 5, _, _ => rfl

theorem reads_binding_of_le {primary : Parser Expr} {j : Nat} (hkj : k ≤ j) (hj : j ≤ 6)
    {next : List Char} (h : Reads (binding primary j) cs next P)
    (hops : ∀ i, k ≤ i → i < 6 → Idle (operatorOf (levelAt i)) next) :
    Reads (binding primary k) cs next P := by
  induction j with
  | zero =>
    obtain rfl : k = 0 := Nat.le_zero.1 hkj
    exact h
  | succ j ih =>
    by_cases hk : k = j + 1
    · rwa [hk]
    have hweaker : Reads (binding primary j) cs next P := by
      cases j with
      | zero => exact h
      | succ j =>
        rw [binding_eq_chain primary (Nat.succ_pos j) (by omega)]
        exact (Spine.of_reads h).chain (hops (j + 1) (by omega) (by omega))
    exact ih (by omega) (by omega) hweaker

theorem idle_binding {primary : Parser Expr} (h : Idle primary cs) (hcs : Stops startsLead cs)
    (k : Nat) :
    Idle (binding primary k) cs := by
  have hfold : ∀ (ls : List (List (BinaryOp × String))) (p : Parser Expr), Idle p cs →
      Idle (ls.foldl (fun p level => chain p (operatorOf level) joinBinary) p) cs := by
    intro ls
    induction ls with
    | nil => exact fun p hp => hp
    | cons level ls ih => exact fun p hp => ih _ (.bind hp)
  exact hfold _ _ (idle_unaryExpr h hcs)

def startsOperand (c : Char) : Bool := Text.startsWord c || Lex.startsLiteral c || c == '('

def typeWords : List String := ["func", "map", "struct", "chan", "interface"]

/-- A text that opens no type and no function. -/
structure OpensNoType (cs : List Char) : Prop where
  words : ∀ w ∈ typeWords, Idle (keyword w) cs
  signs : Lex.Stops (fun c => c == '[' || c == '<') cs

namespace OpensNoType

variable {g : Rules} {cs : List Char}

theorem of_name (h : IsName s) (hr : Stops Text.continuesWord rest) :
    OpensNoType (s.toList ++ rest) where
  words w hw := by
    refine idle_keyword_of_word h.1 hr ?_
    rintro rfl
    exact h.2 ((by decide : ∀ w ∈ typeWords, w ∈ keywords) s hw)
  signs := by
    obtain ⟨c, t, ht, hc, -⟩ := opens_word _ _ _ h.1
    have hne : "[<".toList.contains c = false := contains_eq_false (by decide) c hc
    rw [ht]
    simpa using hne

theorem of_stops (h : Stops (fun c => Text.startsWord c || c == '[' || c == '<') cs) :
    OpensNoType cs where
  words w _ := idle_keyword w (h.mono (by simp +contextual))
  signs := h.mono (by simp +contextual [or_imp])

theorem idle_funcLit (h : OpensNoType cs) : Idle (funcLit g) cs :=
  .bind (.bind (h.words "func" (by simp [typeWords])))

theorem idle_bracket (h : OpensNoType cs) : Idle (tokenNl "[") cs :=
  idle_tokenNl (isPrefixOf_eq_false (by decide) fun he => by
    have := h.signs '[' (by rw [← he]; rfl)
    simp at this)

theorem idle_literalType (h : OpensNoType cs) : Idle (literalType g) cs :=
  .bind (.orElse (.bind h.idle_bracket) (.orElse (.bind (h.words "map" (by simp [typeWords])))
      (.bind (h.words "struct" (by simp [typeWords])))))

theorem idle_chanType (h : OpensNoType cs) : Idle (chanType g) cs := by
  have hchan := h.words "chan" (by simp [typeWords])
  have harrow : Idle (token "<-") cs := idle_token (isPrefixOf_eq_false (by decide) fun he => by
    have := h.signs '<' (by rw [← he]; rfl)
    simp at this)
  exact .bind (.orElse (.bind (.seqLeft hchan)) (.orElse (.bind hchan) (.bind (.seqLeft harrow))))

theorem idle_interfaceType (h : OpensNoType cs) : Idle (interfaceType g) cs :=
  .bind (h.words "interface" (by simp [typeWords]))

end OpensNoType

theorem reads_operand_literal {l : Literal} (h : l.IsWritten)
    (hr : l.isNumber = true → Stops continuesNumber rest) :
    Reads (operand g) (l.text.toList ++ rest) (trim isBlank rest)
      fun e => ∃ l', e = .lit l' ∧ l'.shape = l.shape :=
  .orElse (.bind (reads_literal h hr) fun l' hl => .pure ⟨l', rfl, hl⟩)

theorem reads_operand_name (h : IsName s) (hr : Stops Text.continuesWord rest) :
    Reads (operand g) (s.toList ++ rest) (trim isBlank rest) fun e => ∃ id, e = .ident id ∧
    id.name = s := by
  have htype := OpensNoType.of_name h hr
  have hlit : Stops startsLiteral (s.toList ++ rest) := by
    obtain ⟨c, t, ht, hc, -⟩ := opens_word _ _ _ h.1
    rw [ht]
    simpa using startsLiteral_of_startsWord hc
  exact .orElse' (.bind (idle_literal hlit))
    (.orElse' htype.idle_funcLit (.orElse' htype.idle_literalType
    (.orElse' htype.idle_chanType (.orElse' htype.idle_interfaceType
      (.orElse (.bind (reads_ident h hr) fun id hid => .pure ⟨id, rfl, hid⟩))))))

theorem reads_operand_paren (g : Rules) {cs next : List Char} {P : Expr → Prop}
    (h : Reads (parenExpr g) ('(' :: cs) next P) : Reads (operand g) ('(' :: cs) next P := by
  have htype : OpensNoType ('(' :: cs) := .of_stops (by simp; decide)
  have hword : Stops Text.startsWord ('(' :: cs) := by simp; decide
  exact .orElse' (.bind (idle_literal (by simp; decide))) (.orElse' htype.idle_funcLit
    (.orElse' htype.idle_literalType (.orElse' htype.idle_chanType
      (.orElse' htype.idle_interfaceType (.orElse' (.bind (idle_ident hword)) h)))))

theorem idle_operand (g : Rules) {cs : List Char}
    (h : Stops (fun c => startsOperand c || c == '[' || c == '<') cs) : Idle (operand g) cs := by
  have htype : OpensNoType cs := .of_stops (h.mono (by simp +contextual [startsOperand, or_imp]))
  have hparen : Idle (tokenNl "(") cs := idle_tokenNl (isPrefixOf_eq_false (by decide) fun he => by
    have := h '(' (by rw [← he]; rfl)
    simp [startsOperand] at this)
  exact .orElse (.bind (idle_literal (h.mono (by simp +contextual [startsOperand]))))
    (.orElse htype.idle_funcLit
    (.orElse htype.idle_literalType (.orElse htype.idle_chanType (.orElse htype.idle_interfaceType
      (.orElse (.bind (idle_ident (h.mono (by simp +contextual [startsOperand]))))
        (.bind hparen))))))

def startsSuffix (c : Char) : Bool := ".[(".toList.contains c

theorem idle_tokenNl_of_stops (hs : s.toList.head?.any p = true) (h : Stops p cs) :
    Idle (tokenNl s) cs := idle_tokenNl (isPrefixOf_of_stops hs h)

theorem idle_suffix (h : Stops startsSuffix cs) : Idle (suffix g) cs := by
  have hdot : Idle (tokenNl ".") cs := idle_tokenNl_of_stops (by decide) h
  have hbrack : Idle (tokenNl "[") cs := idle_tokenNl_of_stops (by decide) h
  have hparen : Idle (tokenNl "(") cs := idle_tokenNl_of_stops (by decide) h
  exact .orElse (.bind hdot) (.orElse (.bind hdot)
    (.orElse (.bind hbrack) (.orElse (.bind hbrack) (.bind hparen))))

theorem idle_suffix_dots (cs : List Char) : Idle (suffix g) ('.' :: '.' :: cs) := by
  have hdot : Reads (tokenNl ".") ('.' :: '.' :: cs) ('.' :: cs) fun p => p.isSome = true := by
    have h := reads_tokenNl "." ('.' :: cs)
    rwa [trim_isBlankOrNewline (by simp; decide)] at h
  have hident : Idle ident ('.' :: cs) := idle_ident (by simp; decide)
  have hstops : Stops (fun c => c == '[' || c == '(') ('.' :: '.' :: cs) := by simp
  have hbrack : Idle (tokenNl "[") ('.' :: '.' :: cs) := idle_tokenNl_of_stops (by decide) hstops
  have hparen : Idle (tokenNl "(") ('.' :: '.' :: cs) := idle_tokenNl_of_stops (by decide) hstops
  exact .orElse (.bind' hdot fun _ _ => .bind (idle_token (by simp [List.isPrefixOf])))
    (.orElse (.bind' hdot fun _ _ => .bind hident)
      (.orElse (.bind hbrack) (.orElse (.bind hbrack) (.bind hparen))))

theorem reads_selector (hs : IsName s) (hr : Stops Text.continuesWord rest) :
    Reads (suffix g) ('.' :: (s.toList ++ rest)) (trim isBlank rest)
      fun x => ∃ sel, x = .selector sel ∧ sel.name = s := by
  obtain ⟨c, t, ht, hc, -⟩ := opens_word _ _ _ hs.1
  have hlayout : startsLayout c = false := contains_eq_false (by decide) c hc
  have hdot : Reads (tokenNl ".") ('.' :: (s.toList ++ rest)) (s.toList ++ rest) fun p =>
      p.isSome = true := by
    have h := reads_tokenNl "." (s.toList ++ rest)
    rwa [trim_isBlankOrNewline (by rw [ht]; simpa using hlayout)] at h
  have hparen : Idle (token "(") (s.toList ++ rest) := by
    refine idle_token (isPrefixOf_eq_false (by decide) ?_)
    rw [ht]
    simp only [List.cons_append, List.head?_cons]
    rintro ⟨⟩
    exact absurd hc (by decide)
  exact .orElse' (.bind' hdot fun _ _ => .bind hparen)
    (.orElse (.bind hdot fun _ _ => .bind (reads_ident hs hr) fun sel hsel =>
      .pure ⟨sel, rfl, hsel⟩))

theorem idle_dot (hc : c ≠ '.') (cs : List Char) : Idle (tokenNl ".") (c :: cs) :=
  idle_tokenNl_of_stops (p := (· == '.')) (by decide) (by simpa using hc)

theorem reads_bracket (h : s.toList = [c]) (cs : List Char) :
    Reads (tokenNl s) (c :: cs) (trim isBlankOrNewline cs) fun p => p.isSome = true := by
  have hread := reads_tokenNl s cs
  rwa [h] at hread

theorem reads_close (h : s.toList = [c]) (cs : List Char) :
    Reads (token s) (c :: cs) (trim isBlank cs) fun p => p.isSome = true := by
  have hread := reads_token s cs
  rwa [h] at hread

theorem reads_index (g : Rules) {cs mid rest : List Char} {P : Expr → Prop}
    (hmid : trim isBlankOrNewline cs = mid) (hi : Reads g.expr mid (']' :: rest) P) :
    Reads (suffix g) ('[' :: cs) (trim isBlank rest) fun x => ∃ l i r, x = .index l i r ∧ P i := by
  have hbrack := reads_bracket (s := "[") rfl cs
  rw [hmid] at hbrack
  have hcolon : Idle (tokenNl ":") (']' :: rest) := idle_tokenNl (by simp [List.isPrefixOf])
  exact .orElse' (.bind (idle_dot (by decide) cs)) (.orElse' (.bind (idle_dot (by decide) cs))
    (.orElse' (.bind' hbrack fun _ _ => .bind' hi.opt fun _ _ => .bind hcolon)
      (.orElse (.bind hbrack fun l _ => .bind hi fun i hP => .bind (reads_close rfl rest) fun r _ =>
        .pure ⟨l, i, r, rfl, hP⟩))))

theorem reads_slice (g : Rules) {cs mid cs₁ mid₁ cs₂ rest : List Char}
    {Low High Max : Option Expr → Prop} (hmid : trim isBlankOrNewline cs = mid)
    (hlow : Reads (optional g.expr) mid (':' :: cs₁) Low) (hmid₁ : trim isBlankOrNewline cs₁ = mid₁)
    (hhigh : Reads (optional g.expr) mid₁ cs₂ High)
    (hmax : Reads (optional (tokenNl ":" *> g.expr)) cs₂ (']' :: rest) Max) :
    Reads (suffix g) ('[' :: cs) (trim isBlank rest)
      fun x => ∃ l low high max r, x = .slice l low high max r ∧ Low low ∧ High high ∧ Max max := by
  have hbrack := reads_bracket (s := "[") rfl cs
  have hcolon := reads_bracket (s := ":") rfl cs₁
  rw [hmid] at hbrack
  rw [hmid₁] at hcolon
  exact .orElse' (.bind (idle_dot (by decide) cs)) (.orElse' (.bind (idle_dot (by decide) cs))
    (.orElse (.bind hbrack fun l _ => .bind hlow fun low hl => .bind hcolon fun _ _ =>
      .bind hhigh fun high hh =>
      .bind hmax fun max hm => .bind (reads_close rfl rest) fun r _ =>
        .pure ⟨l, low, high, max, r, rfl, hl, hh, hm⟩)))

theorem reads_call (g : Rules) {cs mid cs₁ cs₂ cs₃ rest : List Char} {Args : List Expr → Prop}
    {Dots : Option Pos → Prop} (hmid : trim isBlankOrNewline cs = mid)
    (hargs : Reads (sepBy g.expr (tokenNl ",")) mid cs₁ Args)
    (hdots : Reads (optional (tokenNl "...")) cs₁ cs₂ Dots)
    (hcomma : Reads (optional (tokenNl ",")) cs₂ cs₃ fun _ => True)
    (hclose : trim isBlankOrNewline cs₃ = ')' :: rest) :
    Reads (suffix g) ('(' :: cs) (trim isBlank rest)
      fun x => ∃ l args dots r, x = .call l args (Option.join dots) r ∧ Args args ∧ Dots dots := by
  have hparen := reads_bracket (s := "(") rfl cs
  rw [hmid] at hparen
  have hskip := reads_skip isBlankOrNewline cs₃
  rw [hclose] at hskip
  have hbrack : Idle (tokenNl "[") ('(' :: cs) := idle_tokenNl (by simp [List.isPrefixOf])
  exact .orElse' (.bind (idle_dot (by decide) cs)) (.orElse' (.bind (idle_dot (by decide) cs))
    (.orElse' (.bind hbrack) (.orElse' (.bind hbrack)
      (.bind hparen fun l _ => .bind hargs fun args ha => .bind hdots fun dots hd =>
        .bind hcomma fun _ _ =>
        .bind hskip fun _ _ => .bind (reads_close rfl rest) fun r _ =>
          .pure ⟨l, args, dots, r, rfl, ha, hd⟩))))

theorem reads_elements {P : List Expr → Prop} (hmid : trim isBlankOrNewline cs = mid)
    (hlist : Reads (sepEndBy (keyedElement g) (tokenNl ",")) mid cs₁ P)
    (hclose : trim isBlankOrNewline cs₁ = '\x7d' :: rest) :
    Reads (elements g) ('\x7b' :: cs) (trim isBlank rest) fun e => P e.list := by
  have hbrace := reads_bracket (s := "\x7b") rfl cs
  rw [hmid] at hbrace
  have hskip := reads_skip isBlankOrNewline cs₁
  rw [hclose] at hskip
  exact .bind hbrace fun _ _ => .bind hlist fun _ hP => .bind hskip fun _ _ =>
    .bind (reads_close rfl rest) fun _ _ => .pure hP

theorem reads_parenExpr (g : Rules) {cs mid cs₁ rest : List Char} {P : Expr → Prop}
    (hmid : trim isBlankOrNewline cs = mid) (hx : Reads g.expr mid cs₁ P)
    (hclose : trim isBlankOrNewline cs₁ = ')' :: rest) :
    Reads (parenExpr g) ('(' :: cs) (trim isBlank rest) fun e => ∃ l x r, e = .paren l x r ∧
    P x := by
  have hparen := reads_bracket (s := "(") rfl cs
  rw [hmid] at hparen
  have hskip := reads_skip isBlankOrNewline cs₁
  rw [hclose] at hskip
  exact .bind hparen fun l _ => .bind hx fun x hP => .bind hskip fun _ _ =>
    .bind (reads_close rfl rest) fun r _ => .pure ⟨l, x, r, rfl, hP⟩

/-- The suffixes of an expression, in a header or elsewhere. -/
def tail [IdleRound] (g : Rules) (inHeader : Bool) : Parser Suffix :=
  if inHeader then suffix g else suffix g <|> (do return .elements (← g.elements))

def primaryOf [IdleRound] (g : Rules) (inHeader : Bool) : Parser Expr := do
  let x ← operand g
  let after ← many (tail g inHeader)
  return after.foldl Suffix.apply x

theorem expr_eq_binding : expr g = binding (primaryOf g false) 0 := rfl

theorem headerExpr_eq_binding : headerExpr g = binding (primaryOf g true) 0 := rfl

/-- At this text an expression that binds with strength `k` comes to its end. -/
structure Ends (n : Nat) (inHeader : Bool) (k : Nat) (cs : List Char) : Prop where
  tail : Idle (tail (rules n) inHeader) cs
  operators : ∀ j, k ≤ j → j < 6 → Idle (operatorOf (levelAt j)) cs

theorem Ends.mono {n : Nat} {inHeader : Bool} {k' : Nat} (h : Ends n inHeader k cs) (hk : k ≤ k') :
    Ends n inHeader k' cs :=
  ⟨h.tail, fun j hj => h.operators j (Nat.le_trans hk hj)⟩

theorem idle_rules_elements (n : Nat) (h : Stops (· == '\x7b') cs) :
    Idle (rules n).elements cs := by
  cases n with
  | zero => exact fun _ => rfl
  | succ n => exact .bind (idle_tokenNl_of_stops (by decide) h)

theorem idle_tail (n : Nat) {inHeader : Bool} (hs : Idle (suffix (rules n)) cs)
    (h : Stops (fun c => !inHeader && c == '\x7b') cs) : Idle (tail (rules n) inHeader) cs := by
  cases inHeader with
  | true => exact hs
  | false => exact .orElse hs (.bind (idle_rules_elements n (h.mono (by simp))))

def startsOperator (c : Char) : Bool := "|&=!<>+-*/%^".toList.contains c

theorem idle_operators (h : Stops startsOperator cs) (k : Nat) :
    Idle (operatorOf (levelAt k)) cs := by
  have hstarts : ∀ k < 6, ∀ x ∈ levelAt k,
      x.1.symbol.toList.head?.any startsOperator = true := by decide
  refine idle_operatorOf fun x hx => ?_
  have hk : ∃ j < 6, x ∈ levelAt j := by
    by_cases hk : k < 6
    · exact ⟨k, hk, hx⟩
    · exact ⟨5, by decide, by rwa [levelAt, show 5 - k = 5 - 5 by omega] at hx⟩
  obtain ⟨j, hj, hx⟩ := hk
  simp [absent, isPrefixOf_of_stops (hstarts j hj x hx) h]

theorem ends_of_stops (n : Nat) {inHeader : Bool} (k : Nat)
    (h : Stops (fun c => startsSuffix c || startsOperator c || !inHeader && c == '\x7b') cs) :
    Ends n inHeader k cs where
  tail := idle_tail n (idle_suffix _ (h.mono (by simp +contextual))) (h.mono (by simp +contextual))
  operators j _ _ := idle_operators (h.mono (by simp +contextual)) j

theorem ends_dots (n : Nat) (inHeader : Bool) (k : Nat) (cs : List Char) :
    Ends n inHeader k ('.' :: '.' :: cs) where
  tail := idle_tail n (idle_suffix_dots _ cs) (by simp)
  operators j _ _ := idle_operators (by simp; decide) j

/-- The text behind an operator does not run into it. -/
structure Apart (op : BinaryOp) (cs : List Char) : Prop where
  longer : Lex.Stops ((longer op).toList.contains ·) cs
  comment : op = .quo → Lex.Stops (fun c => c == '/' || c == '*') cs

theorem apart_blank (op : BinaryOp) (hc : isBlank c = true) (cs : List Char) :
    Apart op (c :: cs) where
  longer := by
    rw [stops_cons]
    rcases eq_of_isBlank hc with rfl | rfl | rfl <;> cases op <;> decide
  comment _ := by
    rw [stops_cons]
    rcases eq_of_isBlank hc with rfl | rfl | rfl <;> decide

theorem symbol_head (op : BinaryOp) :
    ∃ c t, op.symbol.toList = c :: t ∧ startsOperator c = true := by
  cases op <;> exact ⟨_, _, rfl, by decide⟩

theorem trim_operator {op : BinaryOp} (h : Apart op cs) :
    trim isBlank (op.symbol.toList ++ cs) = op.symbol.toList ++ cs := by
  by_cases hop : op = .quo
  · subst hop
    have hcomment := h.comment rfl
    cases cs with
    | nil => exact trim_of_comment_eq_none (by decide) (by decide)
    | cons d cs =>
      simp only [stops_cons, Bool.or_eq_false_iff, beq_eq_false_iff_ne] at hcomment
      exact trim_slash (by decide) hcomment.1 hcomment.2 cs
  · refine trim_isBlank ?_
    cases op <;> first | exact absurd rfl hop | (simp [BinaryOp.symbol]; decide)

/-- What stands behind the left operand of an operator ends it. -/
theorem ends_operator (n : Nat) (inHeader : Bool) {op : BinaryOp} (h : Apart op cs) :
    Ends n inHeader (op.precedence + 1) (op.symbol.toList ++ cs) where
  tail := by
    obtain ⟨c, t, ht, hc⟩ := symbol_head op
    have hsuffix : startsSuffix c = false := eq_false_of_contains (by decide) c hc
    have hbrace : (c == '\x7b') = false :=
      eq_false_of_contains (p := (· == '\x7b')) (by decide) c hc
    rw [ht]
    exact idle_tail n (idle_suffix _ (by simpa using hsuffix)) (by simp [hbrace])
  operators j hj hlt := idle_stronger op h.longer hlt hj

def startsExpr (c : Char) : Bool := startsOperand c || startsLead c || c == '['

theorem idle_primaryOf (inHeader : Bool) (h : Idle (operand g) cs) :
    Idle (primaryOf g inHeader) cs := .bind h

theorem idle_binding_of_stops (inHeader : Bool) (k : Nat) (h : Stops startsExpr cs) :
    Idle (binding (primaryOf g inHeader) k) cs := by
  refine idle_binding (idle_primaryOf g inHeader (idle_operand g (h.mono ?_))) (h.mono ?_) k
  · intro c hc
    simp only [Bool.or_eq_true, beq_iff_eq] at hc
    rcases hc with (hc | rfl) | rfl
    · simp [startsExpr, hc]
    · decide
    · decide
  · simp +contextual [startsExpr]

theorem idle_rules_expr (n : Nat) (h : Stops startsExpr cs) : Idle (rules n).expr cs := by
  cases n with
  | zero => exact fun _ => rfl
  | succ n => exact idle_binding_of_stops (rules n) false 0 h

theorem idle_rules_expr_dots (n : Nat) (cs : List Char) :
    Idle (rules n).expr ('.' :: '.' :: cs) := by
  cases n with
  | zero => exact fun _ => rfl
  | succ n =>
    have htype : OpensNoType ('.' :: '.' :: cs) := .of_stops (by simp; decide)
    have hparen : Idle (tokenNl "(") ('.' :: '.' :: cs) := idle_tokenNl (by simp [List.isPrefixOf])
    have hword : Stops Text.startsWord ('.' :: '.' :: cs) := by simp; decide
    have hoperand : Idle (operand (rules n)) ('.' :: '.' :: cs) :=
      .orElse (.bind (idle_literal_dots cs))
        (.orElse htype.idle_funcLit (.orElse htype.idle_literalType
        (.orElse htype.idle_chanType (.orElse htype.idle_interfaceType
          (.orElse (.bind (idle_ident hword)) (.bind hparen))))))
    exact idle_binding (idle_primaryOf (rules n) false hoperand) (by simp; decide) 0

end Grammar

end GoFun
