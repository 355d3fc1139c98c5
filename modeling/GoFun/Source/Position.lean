import GoFun.Search

/-!
# Positions in source text

A position is a byte offset, or nothing for a node that was not read from text. A source map turns
an offset into a line and a column. Both start at 1, and columns count bytes. Offsets are words of
64 bits, and a column that needs more bits has no value.
-/
namespace GoFun

namespace Word

def add? (a b : UInt64) : Option UInt64 :=
  if a.toNat + b.toNat < UInt64.size then some (a + b) else none

def sub? (a b : UInt64) : Option UInt64 := if b ≤ a then some (a - b) else none

end Word

abbrev Pos := Option Nat

/-- The position `n` bytes further: the end of a token of `n` bytes that starts here. -/
def Pos.plus (p : Pos) (n : Nat) : Pos := p.map (· + n)

structure Position where
  name : String
  line : Nat
  column : Nat
  deriving DecidableEq, Repr

namespace Position

def unknown : Position := ⟨"", 0, 0⟩

def isKnown (p : Position) : Bool := p.line != 0

/-- `name:line:column`, without the name when it is empty, and a dash when nothing is known. -/
def text (p : Position) : String :=
  if p.isKnown then
    let place := toString p.line ++ ":" ++ toString p.column
    if p.name.isEmpty then place else p.name ++ ":" ++ place
  else "-"

end Position

structure SourceMap where
  name : String
  /-- Offset of the first byte of every line, in increasing order. -/
  starts : Array Nat

namespace SourceMap

/-- The map of a tree that was not read from text. -/
def empty : SourceMap := ⟨"", #[]⟩

/-- Offsets of the line starts after the first one, in text that begins at `offset`. -/
def startsFrom (offset : Nat) : List Char → List Nat
  | [] => []
  | c :: cs =>
    let next := offset + c.utf8Size
    if c = '\n' then next :: startsFrom next cs else startsFrom next cs

def ofText (name text : String) : SourceMap := ⟨name, (0 :: startsFrom 0 text.toList).toArray⟩

/-- How the start of a line compares with an offset. -/
def startOrder (m : SourceMap) (offset line : Nat) : Ordering :=
  (m.starts[line]?.map (compare · offset)).getD .gt

/-- Index of the line that starts at `offset`, or else of the last one that starts before it. -/
def lineIndex (m : SourceMap) (offset : Nat) : Nat :=
  match search (m.startOrder offset) 0 m.starts.size with
  | .found line => line
  | .vacant next => next - 1

/-- The position of an offset of any size. -/
def position (m : SourceMap) : Pos → Position
  | none => .unknown
  | some offset =>
    let line := m.lineIndex offset
    ⟨m.name, line + 1, offset - m.starts[line]?.getD 0 + 1⟩

/-- The position of an offset of 64 bits. There is none when the column needs more bits. -/
def wordPosition? (m : SourceMap) (offset : UInt64) : Option Position := do
  let line := m.lineIndex offset.toNat
  let distance ← Word.sub? offset (.ofNat (m.starts[line]?.getD 0))
  let column ← Word.add? distance 1
  return ⟨m.name, line + 1, column.toNat⟩

/-- The line of a position, 0 when it is unknown. -/
def line (m : SourceMap) (p : Pos) : Nat := (m.position p).line

end SourceMap

end GoFun
