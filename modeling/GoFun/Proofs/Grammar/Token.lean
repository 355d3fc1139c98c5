import GoFun.Grammar.Stmt
import GoFun.Proofs.Grammar.Formed
import GoFun.Proofs.Grammar.Reads
import GoFun.Proofs.Lex.Piece

/-!
# Reading tokens

Each token is read from its spelling, and the blanks behind it are taken with it. Where another
character comes first, it is idle.
-/
namespace GoFun

open Parser Lex List

variable {c : Char} {cs rest : List Char} {blank : Char → Bool} {s : String}
variable {d : Char} {l : Literal}

/-- The text behind the layout at its front. -/
def Lex.trim (blank : Char → Bool) (cs : List Char) : List Char := (Lex.layout blank cs).2

theorem Lex.comment_eq_none (h : c ≠ '/') : comment (c :: cs) = none := by
  have hstop : Stops (· == '/') (c :: cs) := by simpa using h
  exact opens_comment.eq_none hstop

theorem Lex.comment_slash_eq_none (h : d ≠ '/') (h' : d ≠ '*') :
    comment ('/' :: d :: cs) = none := by
  cases hc : comment ('/' :: d :: cs) with
  | none => rfl
  | some x =>
    obtain ⟨t, r⟩ := x
    rw [comment_eq] at hc
    rcases orElse_eq_some.1 hc with hc | ⟨-, hc⟩
    · obtain ⟨t₁, r₁, t₂, ht, -, -⟩ := append_eq_some.1 hc
      have hd := (text_eq_some.1 ht).1
      simp [h] at hd
    · obtain ⟨t₁, r₁, t₂, ht, -, -⟩ := append_eq_some.1 hc
      have hd := (text_eq_some.1 ht).1
      simp [h'] at hd

theorem Lex.eq_of_isBlank (h : isBlank c = true) : c = ' ' ∨ c = '\t' ∨ c = '\r' := by
  simpa [isBlank, or_assoc] using h

theorem Lex.trim_nil (blank : Char → Bool) : trim blank [] = [] := by simp [trim, layout]

theorem Lex.trim_blank (h : blank c = true) (cs : List Char) :
    trim blank (c :: cs) = trim blank cs := by
  rw [trim, layout]
  simp [h, trim]

theorem Lex.trim_append_of_all {sep : List Char} (h : ∀ c ∈ sep, blank c = true) (cs : List Char) :
    trim blank (sep ++ cs) = trim blank cs := by
  induction sep with
  | nil => rfl
  | cons c sep ih =>
    rw [cons_append, trim_blank (h c (by simp))]
    exact ih fun d hd => h d (by simp [hd])

theorem Lex.trim_of_comment_eq_none (h : blank c = false) (hc : comment (c :: cs) = none) :
    trim blank (c :: cs) = c :: cs := by
  rw [trim, layout]
  simp only [h, Bool.false_eq_true, if_false]
  split
  · simp_all
  · rfl

theorem Lex.trim_of_ne (h : blank c = false) (hc : c ≠ '/') (cs : List Char) :
    trim blank (c :: cs) = c :: cs :=
  trim_of_comment_eq_none h (comment_eq_none hc)

theorem Lex.trim_slash (h : blank '/' = false) (hd : d ≠ '/') (hd' : d ≠ '*') (cs : List Char) :
    trim blank ('/' :: d :: cs) = '/' :: d :: cs :=
  trim_of_comment_eq_none h (comment_slash_eq_none hd hd')

theorem IsName.head (h : IsName s) : ∃ c t, s.toList = c :: t ∧ Text.startsWord c = true := by
  obtain ⟨c, t, ht, hc, -⟩ := opens_word _ _ _ h.1
  exact ⟨c, t, ht, hc⟩

theorem Literal.IsWritten.head (h : l.IsWritten) :
    ∃ c t, l.text.toList = c :: t ∧ startsLiteral c = true := by
  rcases h with ⟨hl, -⟩ | ⟨hl, -⟩ | ⟨hl, -⟩
  · obtain ⟨c, t, ht, hc, -⟩ := opens_number _ _ _ hl
    exact ⟨c, t, ht, by grind [startsLiteral]⟩
  · obtain ⟨c, t, ht, hc, -⟩ := opens_string _ _ _ hl
    exact ⟨c, t, ht, by grind [startsLiteral]⟩
  · obtain ⟨c, t, ht, hc, -⟩ := opens_char _ _ _ hl
    exact ⟨c, t, ht, by grind [startsLiteral]⟩

def Literal.isNumber (l : Literal) : Bool :=
  match l.kind with
  | .int | .float | .imag => true
  | .char | .string => false

theorem reads_skip (blank : Char → Bool) (cs : List Char) :
    Reads (skip blank) cs (trim blank cs) fun _ => True :=
  fun _ => ⟨(), _, rfl, trivial⟩

theorem reads_lexeme {l : Lexer} {piece : List Char} (h : l cs = some (piece, rest)) :
    Reads (lexeme l) cs rest fun x => x.2 = piece := by
  intro o
  refine ⟨(o, piece), o + utf8Length piece, ?_, rfl⟩
  unfold lexeme
  rw [h]

theorem idle_lexeme {l : Lexer} (h : l cs = none) : Idle (lexeme l) cs := by
  intro o
  unfold lexeme
  rw [h]

namespace Grammar

variable {w : String} {x : BinaryOp × String} {op : BinaryOp}

theorem reads_token (s : String) (rest : List Char) :
    Reads (token s) (s.toList ++ rest) (trim isBlank rest) fun p => p.isSome = true :=
  .bind (reads_lexeme (text_eq_some.2 ⟨rfl, rfl⟩)) fun _ _ =>
    .bind (reads_skip isBlank rest) fun _ _ => .pure rfl

theorem reads_tokenNl (s : String) (rest : List Char) :
    Reads (tokenNl s) (s.toList ++ rest) (trim isBlankOrNewline rest) fun p => p.isSome = true :=
  .bind (reads_lexeme (text_eq_some.2 ⟨rfl, rfl⟩)) fun _ _ =>
    .bind (reads_skip isBlankOrNewline rest) fun _ _ => .pure rfl

theorem text_eq_none (h : s.toList.isPrefixOf cs = false) : Lexer.text s cs = none := by
  simp [Lexer.text, h]

theorem idle_token (h : s.toList.isPrefixOf cs = false) : Idle (token s) cs :=
  .bind (idle_lexeme (text_eq_none h))

theorem idle_tokenNl (h : s.toList.isPrefixOf cs = false) : Idle (tokenNl s) cs :=
  .bind (idle_lexeme (text_eq_none h))

theorem word_append (h : word s.toList = some (s.toList, [])) (hr : Stops Text.continuesWord rest) :
    word (s.toList ++ rest) = some (s.toList, rest) :=
  rereads_word _ _ _ h rest hr

theorem reads_keyword (h : word w.toList = some (w.toList, [])) (rest : List Char)
    (hr : Stops Text.continuesWord rest) :
    Reads (keyword w) (w.toList ++ rest) (trim isBlank rest) fun p => p.isSome = true :=
  .bind (reads_lexeme (word_append h hr)) fun ⟨offset, piece⟩ hp =>
    .bind (.guarded (by simp [show piece = w.toList from hp])) fun _ _ =>
      .bind (reads_skip isBlank rest) fun _ _ => .pure rfl

theorem reads_ident (h : IsName s) (hr : Stops Text.continuesWord rest) :
    Reads ident (s.toList ++ rest) (trim isBlank rest) fun id => id.name = s :=
  .bind (reads_lexeme (word_append h.1 hr)) fun ⟨offset, piece⟩ hp =>
    .bind (.guarded (by simpa [show piece = s.toList from hp] using h.2)) fun _ _ =>
      .bind (reads_skip isBlank rest) fun _ _ => .pure (by simp [show piece = s.toList from hp])

theorem idle_keyword_of_word (h : word s.toList = some (s.toList, []))
    (hr : Stops Text.continuesWord rest) (hne : s ≠ w) :
    Idle (keyword w) (s.toList ++ rest) :=
  .bind' (reads_lexeme (word_append h hr)) fun ⟨offset, piece⟩ hp =>
    .bind (.guarded (by simpa [show piece = s.toList from hp] using hne))

theorem idle_ident_of_keyword (h : word s.toList = some (s.toList, []))
    (hr : Stops Text.continuesWord rest) (hk : s ∈ keywords) : Idle ident (s.toList ++ rest) :=
  .bind' (reads_lexeme (word_append h hr)) fun ⟨offset, piece⟩ hp =>
    .bind (.guarded (by simpa [show piece = s.toList from hp] using hk))

theorem idle_keyword (w : String) (h : Stops Text.startsWord cs) : Idle (keyword w) cs :=
  .bind (idle_lexeme (opens_word.eq_none h))

theorem idle_ident (h : Stops Text.startsWord cs) : Idle ident cs :=
  .bind (idle_lexeme (opens_word.eq_none h))

theorem ofNumber_isNumber (text : List Char) :
    LitKind.ofNumber text = .int ∨ LitKind.ofNumber text = .float ∨
    LitKind.ofNumber text = .imag := by
  unfold LitKind.ofNumber
  split
  · simp
  · split <;> split <;> simp

theorem reads_literalOf {lexer : Lexer} {kind : List Char → LitKind}
    (h : lexer (cs ++ rest) = some (cs, rest)) :
    Reads (literalOf kind lexer) (cs ++ rest) (trim isBlank rest) fun l =>
      l.kind = kind cs ∧ l.text = String.ofList cs :=
  .bind (reads_lexeme h) fun ⟨_, piece⟩ hp => .bind (reads_skip isBlank rest) fun _ _ =>
    .pure (by simp [show piece = cs from hp])

theorem idle_literalOf {lexer : Lexer} {o : Char → Bool} (kind : List Char → LitKind)
    (ho : Opens lexer o) (hs : Stops o cs) : Idle (literalOf kind lexer) cs :=
  .bind (idle_lexeme (ho.eq_none hs))

/-- A literal is read again in front of a text that cannot continue it. -/
theorem reads_literal (h : l.IsWritten) (hr : l.isNumber = true → Stops continuesNumber rest) :
    Reads literal (l.text.toList ++ rest) (trim isBlank rest) fun l' => l'.shape = l.shape := by
  have hshape : ∀ kind : LitKind, l.kind = kind → ∀ l' : Literal,
      l'.kind = kind ∧ l'.text = String.ofList l.text.toList → l'.shape = l.shape := by
    rintro kind rfl l' ⟨hk, ht⟩
    simp [Literal.shape, hk, ht]
  rcases h with ⟨hl, hk⟩ | ⟨hl, hk⟩ | ⟨hl, hk⟩
  · have hn : l.isNumber = true := by
      unfold Literal.isNumber
      rcases ofNumber_isNumber l.text.toList with h | h | h <;> simp [hk, h]
    exact .orElse ((reads_literalOf (rereads_number _ _ _ hl rest (hr hn))).mono (hshape _ hk))
  · have hread := rereads_string (fun _ => false) _ _ _ hl rest fun _ _ => rfl
    obtain ⟨c, t, ht, hc, -⟩ := opens_string _ _ _ hl
    have hnumber : Stops (fun c => isDigit c || c == '.') (l.text.toList ++ rest) := by
      rw [ht]
      rcases Bool.or_eq_true_iff.1 hc with hc | hc <;> simp_all [isDigit]
    exact .orElse' (idle_literalOf _ opens_number hnumber)
      (.orElse ((reads_literalOf hread).mono (hshape _ hk)))
  · have hread := rereads_char (fun _ => false) _ _ _ hl rest fun _ _ => rfl
    obtain ⟨c, t, ht, hc, -⟩ := opens_char _ _ _ hl
    obtain rfl : c = '\'' := by simpa using hc
    exact .orElse' (idle_literalOf _ opens_number (by simp [ht, isDigit]))
      (.orElse' (idle_literalOf _ opens_string (by simp [ht]))
        ((reads_literalOf hread).mono (hshape _ hk)))

theorem idle_literal (h : Stops startsLiteral cs) : Idle literal cs :=
  .orElse (idle_literalOf _ opens_number (h.mono (by simp +contextual [startsLiteral])))
    (.orElse (idle_literalOf _ opens_string (h.mono (by simp +contextual [startsLiteral, or_imp])))
      (idle_literalOf _ opens_char (h.mono (by simp +contextual [startsLiteral]))))

theorem idle_literal_dots (cs : List Char) : Idle literal ('.' :: '.' :: cs) := by
  have hnumber : number ('.' :: '.' :: cs) = none := number_dot_eq_none (by simp; decide)
  exact .orElse (.bind (idle_lexeme hnumber))
    (.orElse (idle_literalOf _ opens_string (by simp)) (idle_literalOf _ opens_char (by simp)))

/-- The operator does not stand at the front of the text, or stands there as a part of a longer
token. -/
def absent (x : BinaryOp × String) (cs : List Char) : Bool :=
  !x.1.symbol.toList.isPrefixOf cs ||
    (cs.drop x.1.symbol.toList.length).head?.any (x.2.toList.contains ·)

theorem idle_operator (h : absent x cs = true) : Idle (operator x.1 x.2) cs := by
  rcases Bool.or_eq_true_iff.1 h with h | h
  · exact .bind (idle_lexeme (text_eq_none (by simpa using h)))
  · by_cases hp : x.1.symbol.toList.isPrefixOf cs = true
    · have hread : Lexer.text x.1.symbol cs =
          some (x.1.symbol.toList, cs.drop x.1.symbol.toList.length) := by
        simp [Lexer.text, hp]
      refine .bind' (reads_lexeme hread) fun _ _ => .bind fun o => ?_
      unfold notNext
      rw [if_pos h]
    · exact .bind (idle_lexeme (text_eq_none (eq_false_of_ne_true hp)))

theorem idle_operatorOf {level : List (BinaryOp × String)} (h : ∀ x ∈ level, absent x cs = true) :
    Idle (operatorOf level) cs := by
  induction level with
  | nil => exact fun _ => rfl
  | cons x level ih => exact .orElse (idle_operator (h x (by simp))) (ih fun y hy => h y (by simp [hy]))

theorem reads_operator {longer : String} (h : Stops (longer.toList.contains ·) rest) :
    Reads (operator op longer) (op.symbol.toList ++ rest) (trim isBlankOrNewline rest) fun x => x.2 = op := by
  refine .bind (reads_lexeme (text_eq_some.2 ⟨rfl, rfl⟩)) fun _ _ => ?_
  refine .bind (P := fun _ => True) (fun o => ⟨(), o, ?_, trivial⟩) fun _ _ =>
    .bind (reads_skip isBlankOrNewline rest) fun _ _ => .pure rfl
  unfold notNext
  rw [if_neg]
  cases rest with
  | nil => simp
  | cons c rest => simpa using h

/-- The characters that must not follow an operator. -/
def longer (op : BinaryOp) : String :=
  (levels.flatten.lookup op).getD ""

def levelAt (k : Nat) : List (BinaryOp × String) := levels[5 - k]?.getD []

/-- The operators that are tried before `op` on its level. -/
def triedBefore (op : BinaryOp) : List (BinaryOp × String) :=
  (levelAt op.precedence).takeWhile (·.1 != op)

theorem levelAt_eq (op : BinaryOp) :
    ∃ after, levelAt op.precedence = triedBefore op ++ (op, longer op) :: after := by
  refine ⟨((levelAt op.precedence).dropWhile (·.1 != op)).tail, ?_⟩
  cases op <;> rfl

/-- The two operators cannot be mistaken for each other: neither begins like the other, or the
longer one goes on with a character that must not follow the shorter one. -/
def apart (x : BinaryOp × String) (op : BinaryOp) : Bool :=
  if x.1.symbol.toList.isPrefixOf op.symbol.toList then
    (op.symbol.toList.drop x.1.symbol.toList.length).head?.any (x.2.toList.contains ·)
  else if op.symbol.toList.isPrefixOf x.1.symbol.toList then
    (x.1.symbol.toList.drop op.symbol.toList.length).head?.any ((longer op).toList.contains ·)
  else true

theorem absent_of_apart (hx : apart x op = true) (h : Stops ((longer op).toList.contains ·) rest) :
    absent x (op.symbol.toList ++ rest) = true := by
  unfold apart at hx
  split at hx
  case isTrue hp =>
    obtain ⟨u, hu⟩ := isPrefixOf_iff_prefix.1 hp
    rw [← hu, drop_left] at hx
    cases u with
    | nil => simp at hx
    | cons d u =>
      have hd : d ∈ x.2.toList := by simpa using hx
      rw [absent, ← hu, append_assoc, drop_left]
      simp [hd]
  case isFalse hp =>
    have hnot : ¬ x.1.symbol.toList <+: op.symbol.toList ++ rest := by
      intro hpre
      split at hx
      case isTrue hop =>
        obtain ⟨u, hu⟩ := isPrefixOf_iff_prefix.1 hop
        rw [← hu, drop_left] at hx
        rw [← hu, prefix_append_right_inj] at hpre
        cases u with
        | nil => simp at hx
        | cons d u =>
          obtain ⟨v, rfl⟩ := hpre
          simp_all
      case isFalse hop =>
        rcases prefix_or_prefix_of_prefix hpre (prefix_append op.symbol.toList rest) with h | h
        · exact hp <| isPrefixOf_iff_prefix.2 h
        · exact hop <| isPrefixOf_iff_prefix.2 h
    have hfalse : x.1.symbol.toList.isPrefixOf (op.symbol.toList ++ rest) = false := by
      rw [← Bool.not_eq_true, isPrefixOf_iff_prefix]
      exact hnot
    simp [absent, hfalse]

theorem apart_of_triedBefore (op : BinaryOp) : ∀ x ∈ triedBefore op, apart x op = true := by
  cases op <;> decide

theorem apart_of_stronger (op : BinaryOp) :
    ∀ k < 6, op.precedence < k → ∀ x ∈ levelAt k, apart x op = true := by
  cases op <;> decide

theorem reads_operatorOf (op : BinaryOp) (h : Stops ((longer op).toList.contains ·) rest) :
    Reads (operatorOf (levelAt op.precedence)) (op.symbol.toList ++ rest)
      (trim isBlankOrNewline rest)
      fun x => x.2 = op := by
  obtain ⟨after, hlevel⟩ := levelAt_eq op
  have hidle : ∀ x ∈ triedBefore op, absent x (op.symbol.toList ++ rest) = true :=
    fun x hx => absent_of_apart (apart_of_triedBefore op x hx) h
  rw [hlevel]
  generalize triedBefore op = before at hidle
  induction before with
  | nil => exact .orElse (reads_operator h)
  | cons x xs ih => exact .orElse' (idle_operator (hidle x (by simp))) (ih fun y hy => hidle y (by simp [hy]))

/-- Operators of a stronger level are idle in front of a weaker one. -/
theorem idle_stronger (op : BinaryOp) (h : Stops ((longer op).toList.contains ·) rest) {k : Nat} (hk : k < 6)
    (hop : op.precedence < k) : Idle (operatorOf (levelAt k)) (op.symbol.toList ++ rest) :=
  idle_operatorOf fun x hx => absent_of_apart (apart_of_stronger op k hk hop x hx) h

end Grammar

end GoFun
