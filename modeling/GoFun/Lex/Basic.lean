/-!
# Lexers

A lexer takes a piece of text off the front of its input, or fails. The result is the piece and the
rest. Alternatives are ordered: once one has matched, the others are not tried again.
-/
namespace GoFun

def Lexer := List Char → Option (List Char × List Char)

theorem result_inj {α β : Type} {a a' : α} {rest rest' : β}
    (h : some (a, rest) = some (a', rest')) :
    a = a' ∧ rest = rest' :=
  Prod.mk.inj (Option.some.inj h)

namespace Lexer

def one (p : Char → Bool) : Lexer
  | [] => none
  | c :: cs => if p c then some ([c], cs) else none

/-- The longest run of characters that satisfy `p`, maybe empty. -/
def run (p : Char → Bool) : Lexer := fun cs => some (cs.takeWhile p, cs.dropWhile p)

/-- Exactly the given text, whatever follows it. -/
def text (s : String) : Lexer := fun cs =>
  if s.toList.isPrefixOf cs then some (s.toList, cs.drop s.toList.length) else none

def oneOf (s : String) : Lexer := one (s.toList.contains ·)

def append (a b : Lexer) : Lexer := fun cs => do
  let (s, rest) ← a cs
  let (t, last) ← b rest
  return (s ++ t, last)

def orElse (a : Lexer) (b : Unit → Lexer) : Lexer := fun cs => a cs <|> b () cs

instance : Append Lexer := ⟨append⟩

instance : OrElse Lexer := ⟨orElse⟩

/-- The piece of `a`, or nothing when `a` fails. -/
def opt (a : Lexer) : Lexer := fun cs => a cs <|> some ([], cs)

/-- The piece of `a` when it satisfies `p`. -/
def check (a : Lexer) (p : List Char → Bool) : Lexer := fun cs =>
  (a cs).filter fun (s, _) => p s

/-- As many rounds of `a` as possible. A round that takes nothing is not counted. -/
def rounds (a : Lexer) (cs : List Char) : List Char × List Char :=
  match a cs with
  | none => ([], cs)
  | some (s, rest) =>
    if rest.length < cs.length then
      let (t, last) := rounds a rest
      (s ++ t, last)
    else ([], cs)
termination_by cs.length

def many (a : Lexer) : Lexer := fun cs => some (rounds a cs)

theorem append_assoc (a b c : Lexer) : a ++ b ++ c = a ++ (b ++ c) := by
  funext cs
  change ((a cs).bind _).bind _ = (a cs).bind _
  cases a cs with
  | none => rfl
  | some x =>
    change ((b x.2).bind _).bind _ = ((b x.2).bind _).bind _
    cases b x.2 with
    | none => rfl
    | some y =>
      change (c y.2).bind _ = ((c y.2).bind _).bind _
      cases c y.2 with
      | none => rfl
      | some z => simp [List.append_assoc]

theorem rounds_of_none {a : Lexer} {cs : List Char} (h : a cs = none) : rounds a cs = ([], cs) := by
  rw [rounds, h]

theorem rounds_of_some {a : Lexer} {cs s rest : List Char} (h : a cs = some (s, rest))
    (hlt : rest.length < cs.length) :
    rounds a cs = (s ++ (rounds a rest).1, (rounds a rest).2) := by
  rw [rounds, h]
  exact if_pos hlt

theorem text_append {s : String} {cs t rest : List Char} (h : text s cs = some (t, rest)) :
    t = s.toList ∧ t ++ rest = cs := by
  unfold text at h
  split at h
  case isTrue hp =>
    obtain ⟨rfl, rfl⟩ := result_inj h
    obtain ⟨r, rfl⟩ := List.isPrefixOf_iff_prefix.1 hp
    simp
  case isFalse => simp at h

theorem run_append {p : Char → Bool} {cs t rest : List Char} (h : run p cs = some (t, rest)) :
    t ++ rest = cs := by
  obtain ⟨rfl, rfl⟩ := result_inj h
  exact List.takeWhile_append_dropWhile

end Lexer

end GoFun
