import GoFun.Source.Position
import GoFun.Text.Quoted

/-!
# Outlines

An outline shows a tree as text, one line for each field and for each closing brace. Lines are
numbered and indented by their depth. A filter decides which fields are shown.
-/
namespace GoFun

/-- What a field is for. -/
inductive Entry.Role where
  | position
  /-- Found out after reading, such as what a name stands for. -/
  | metadata
  | value
  deriving DecidableEq, Repr

mutual

/-- A node with its kind and its fields. -/
inductive Outline where
  | node (kind : String) (entries : List Entry)

structure Entry where
  name : String
  role : Entry.Role
  value : Value

inductive Value where
  | pos (p : Pos)
  /-- Shown in quotes. -/
  | text (s : String)
  /-- Shown as it is. -/
  | token (s : String)
  | node (o : Outline)
  | nodes (os : List Outline)
  | absent

end

inductive Filter where
  /-- Every field, absent ones too. -/
  | all
  /-- No absent fields and no empty lists. -/
  | notEmpty
  /-- No positions either. -/
  | compact
  deriving DecidableEq, Repr

def Value.isEmpty : Value → Bool
  | .nodes os => os.isEmpty
  | .absent => true
  | _ => false

def Filter.keeps (f : Filter) (role : Entry.Role) (empty : Bool) : Bool :=
  match f with
  | all => true
  | notEmpty => !empty
  | compact => !empty && role != .position

mutual

/-- The outline without the fields that the filter drops, at every depth. -/
def Outline.select (f : Filter) : Outline → Outline
  | .node kind entries => .node kind (selectEntries f entries)

def selectEntries (f : Filter) : List Entry → List Entry
  | [] => []
  | ⟨name, role, value⟩ :: entries =>
    if f.keeps role value.isEmpty then ⟨name, role, value.select f⟩ :: selectEntries f entries
    else selectEntries f entries

def Value.select (f : Filter) : Value → Value
  | .node o => .node (o.select f)
  | .nodes os => .nodes (selectNodes f os)
  | .pos p => .pos p
  | .text s => .text s
  | .token s => .token s
  | .absent => .absent

def selectNodes (f : Filter) : List Outline → List Outline
  | [] => []
  | o :: os => o.select f :: selectNodes f os

end

namespace Outline

structure Line where
  level : Nat
  text : String
  deriving DecidableEq, Repr

end Outline

open Outline (Line)

mutual

/-- The lines of a node: its kind behind a label, the fields one level deeper, and a brace. -/
def Outline.lines (m : SourceMap) (level : Nat) (label : String) : Outline → List Line
  | .node kind entries =>
    ⟨level, label ++ kind ++ " \x7b"⟩ :: entryLines m (level + 1) entries ++ [⟨level, "\x7d"⟩]

def entryLines (m : SourceMap) (level : Nat) : List Entry → List Line
  | [] => []
  | ⟨name, _, value⟩ :: entries => value.lines m level (name ++ ": ") ++ entryLines m level entries

def Value.lines (m : SourceMap) (level : Nat) (label : String) : Value → List Line
  | .pos p => [⟨level, label ++ (m.position p).text⟩]
  | .text s => [⟨level, label ++ Text.quoteString s⟩]
  | .token s => [⟨level, label ++ s⟩]
  | .node o => o.lines m level label
  | .nodes os =>
    ⟨level, label ++ "[] (len = " ++ toString os.length ++ ") \x7b"⟩ ::
      nodeLines m (level + 1) 0 os ++ [⟨level, "\x7d"⟩]
  | .absent => [⟨level, label ++ "nil"⟩]

/-- The nodes of a list are labelled with their number. -/
def nodeLines (m : SourceMap) (level i : Nat) : List Outline → List Line
  | [] => []
  | o :: os => o.lines m level (toString i ++ ": ") ++ nodeLines m level (i + 1) os

end

namespace Outline

/-- A number in at least six columns. -/
def lineNumber (n : Nat) : String :=
  let digits := toString n
  String.ofList (List.replicate (6 - digits.length) ' ') ++ digits

def Line.render (n : Nat) (line : Line) : String :=
  lineNumber n ++ "  " ++ String.join (List.replicate line.level ".  ") ++ line.text ++ "\n"

def render (m : SourceMap) (f : Filter) (o : Outline) : String :=
  String.join (((o.select f).lines m 0 "").mapIdx Line.render)

end Outline

end GoFun
