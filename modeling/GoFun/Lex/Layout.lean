import GoFun.Lex.Basic

/-!
# Layout: blanks and comments

Layout separates tokens. A line comment ends before its line break, a block comment with the first
close after its opening; without one it is no comment at all. Whether a line break is a blank
depends on the place.
-/
namespace GoFun.Lex

open Lexer

def lineComment : Lexer := text "//" ++ run (· != '\n')

/-- A character inside of a block comment. A star is one unless a slash follows it. -/
def inside : Lexer := one (· != '*') <|> (text "*" ++ opt (text "/")).check (·.length == 1)

def blockComment : Lexer := text "/*" ++ many inside ++ text "*/"

def comment : Lexer := lineComment <|> blockComment

/-- Everything through the first close of a block comment. -/
def throughClose : Lexer
  | [] => none
  | '*' :: '/' :: cs => some (['*', '/'], cs)
  | c :: cs => (throughClose cs).map fun (s, rest) => (c :: s, rest)

theorem inside_of_ne {c : Char} {cs : List Char} (h : ∀ tail, c = '*' → cs ≠ '/' :: tail) :
    inside (c :: cs) = some ([c], cs) := by
  by_cases hc : c = '*'
  · subst hc
    cases cs with
    | nil => rfl
    | cons d tail =>
      have hd : '/' ≠ d := fun hd => h tail rfl (by rw [hd])
      have hopt : opt (text "/") (d :: tail) = some ([], d :: tail) := by simp [opt, text, hd]
      change (none <|> Option.filter _ ((opt (text "/") (d :: tail)).bind _)) = _
      rw [hopt]
      rfl
  · change (one _ (c :: cs) <|> _) = _
    simp [one, hc]

/-- The loop over the inside of a comment ends at the first close. -/
theorem many_inside_append : many inside ++ text "*/" = throughClose := by
  funext cs
  change ((text "*/" (rounds inside cs).2).bind fun x => some ((rounds inside cs).1 ++ x.1, x.2)) =
    _
  fun_induction throughClose cs with
  | case1 => rw [rounds_of_none rfl]; rfl
  | case2 cs => rw [rounds_of_none rfl]; rfl
  | case3 c cs hne ih =>
    rw [rounds_of_some (inside_of_ne hne) (Nat.lt_succ_self _), ← ih]
    cases text "*/" (rounds inside cs).2 <;> rfl

theorem comment_eq : comment = (lineComment <|> text "/*" ++ throughClose) := by
  rw [comment, blockComment, append_assoc, many_inside_append]

theorem throughClose_append {cs s rest : List Char} (h : throughClose cs = some (s, rest)) :
    s ++ rest = cs := by
  fun_induction throughClose cs generalizing s with
  | case1 => simp at h
  | case2 cs =>
    obtain ⟨rfl, rfl⟩ := result_inj h
    rfl
  | case3 c cs _ ih =>
    obtain ⟨⟨t, r⟩, ht, he⟩ := Option.map_eq_some_iff.1 h
    obtain ⟨rfl, rfl⟩ := Prod.mk.inj he
    simp [ih ht]

theorem comment_append {cs s rest : List Char} (h : comment cs = some (s, rest)) :
    2 ≤ s.length ∧ s ++ rest = cs := by
  have key : ∀ (o : String) (b : Lexer),
      (∀ {cs t r : List Char}, b cs = some (t, r) → t ++ r = cs) → o.toList.length = 2 →
      ∀ {s rest : List Char}, (text o ++ b) cs = some (s, rest) → 2 ≤ s.length ∧
        s ++ rest = cs := by
    intro o b hb ho s rest h
    obtain ⟨⟨t, r⟩, ht, h⟩ := Option.bind_eq_some_iff.1 h
    obtain ⟨⟨u, v⟩, hu, h⟩ := Option.bind_eq_some_iff.1 h
    obtain ⟨rfl, rfl⟩ := result_inj h
    obtain ⟨rfl, rfl⟩ := text_append ht
    have := hb hu
    subst this
    exact ⟨by simp only [List.length_append]; omega, List.append_assoc ..⟩
  rw [comment_eq] at h
  change ((text "//" ++ run (· != '\n')) cs <|> (text "/*" ++ throughClose) cs) = _ at h
  cases hl : (text "//" ++ run (· != '\n')) cs with
  | some r =>
    obtain rfl : r = (s, rest) := by simpa [hl] using h
    exact key "//" _ run_append rfl hl
  | none => exact key "/*" _ throughClose_append rfl (by simpa [hl] using h)

theorem comment_shorter {cs s rest : List Char} (h : comment cs = some (s, rest)) :
    rest.length < cs.length := by
  obtain ⟨hs, rfl⟩ := comment_append h
  simp only [List.length_append]
  omega

/-- The longest layout at the front of the input, and the rest. -/
def layout (blank : Char → Bool) (cs : List Char) : List Char × List Char :=
  match cs with
  | [] => ([], [])
  | c :: tail =>
    if blank c then
      let (s, rest) := layout blank tail
      (c :: s, rest)
    else
      match h : comment (c :: tail) with
      | some (s, rest) =>
        have := comment_shorter h
        let (t, last) := layout blank rest
        (s ++ t, last)
      | none => ([], c :: tail)
termination_by cs.length
decreasing_by
  · exact Nat.lt_succ_self _
  · exact this

/-- Blanks that do not end a statement. -/
def isBlank (c : Char) : Bool := c == ' ' || c == '\t' || c == '\r'

def isBlankOrNewline (c : Char) : Bool := isBlank c || c == '\n'

end GoFun.Lex
