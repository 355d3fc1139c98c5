import GoFun.Lex.Layout

/-!
# Parsers

A parser reads a value off the characters in front of a cursor, or fails. Alternatives are ordered
and a choice once made stands: what fails later does not bring another alternative back. Lists are
greedy, and a round that fails leaves the cursor where the round began.
-/
namespace GoFun

/-- A place in the source: the byte offset of what comes next, and the characters from there on. -/
structure Cursor where
  offset : Nat
  rest : List Char
  deriving DecidableEq, Repr

abbrev Parser := StateT Cursor Option

/-- What a list makes of an idle round, one that takes no character and would be repeated forever:
the list ends before it, or it fails. -/
class inductive IdleRound where
  | ends
  | fails

instance : IdleRound := .ends

namespace Parser

attribute [local instance (high)] Zero.ofOfNat0

def utf8Length (cs : List Char) : Nat := (cs.map Char.utf8Size).sum

/-- The piece that a lexer takes, with the offset where it starts. -/
def lexeme (l : Lexer) : Parser (Nat × List Char) := fun s =>
  match l s.rest with
  | some (piece, rest) => some ((s.offset, piece), ⟨s.offset + utf8Length piece, rest⟩)
  | none => none

def skip (blank : Char → Bool) : Parser Unit := fun s =>
  let (piece, rest) := Lex.layout blank s.rest
  some ((), ⟨s.offset + utf8Length piece, rest⟩)

/-- Succeeds, without moving, unless one of the characters of `s` comes next. -/
def notNext (s : String) : Parser Unit := fun c =>
  if (c.rest.head?.any (s.toList.contains ·)) then none else some ((), c)

def atEnd : Parser Unit := fun s => if s.rest.isEmpty then some ((), s) else none

/-- As many rounds of `p` as possible, up to an idle one. -/
def manyFrom {α : Type} (p : Parser α) (s : Cursor) : List α × Cursor :=
  match p s with
  | none => ([], s)
  | some (a, next) =>
    if next.rest.length < s.rest.length then
      let (as, last) := manyFrom p next
      (a :: as, last)
    else ([], s)
termination_by s.rest.length

/-- As many rounds of `p` as possible, none of them idle. -/
def manyFrom? {α : Type} (p : Parser α) (s : Cursor) : Option (List α × Cursor) :=
  match p s with
  | none => some ([], s)
  | some (a, next) =>
    if next.rest.length < s.rest.length then
      (manyFrom? p next).map fun (as, last) => (a :: as, last)
    else none
termination_by s.rest.length

def many {α : Type} [idle : IdleRound] (p : Parser α) : Parser (List α) := fun s =>
  match idle with
  | .ends => some (manyFrom p s)
  | .fails => manyFrom? p s

/-- One or more `p`. A separator that no `p` follows is left in place. -/
def sepBy1 {α β : Type} [IdleRound] (p : Parser α) (sep : Parser β) : Parser (List α) := do
  let a ← p
  let as ← many (sep *> p)
  return a :: as

def sepBy {α β : Type} [IdleRound] (p : Parser α) (sep : Parser β) : Parser (List α) :=
  sepBy1 p sep <|> pure []

/-- Any number of `p`, and after the last one maybe a separator more. -/
def sepEndBy {α β : Type} [IdleRound] (p : Parser α) (sep : Parser β) : Parser (List α) :=
  (sepBy1 p sep <* optional sep) <|> pure []

/-- Operands joined by operators, grouped from the left. -/
def chain {α β : Type} [IdleRound] (p : Parser α) (op : Parser β) (join : α → β → α → α) :
    Parser α := do
  let x ← p
  let steps ← many (do return (← op, ← p))
  return steps.foldl (fun x (o, y) => join x o y) x

end Parser

end GoFun
