import GoFun.Tree.Basic

/-!
# Scopes

A frame holds what one scope declares, the newest declaration first. The open scopes are a list of
frames, the innermost first. A name means its newest declaration in the innermost scope that has
one.
-/
namespace GoFun

abbrev Frame := List (String × ObjKind)

abbrev Scopes := List Frame

namespace Scopes

def declare (name : String) (kind : ObjKind) : Scopes → Scopes
  | [] => []
  | frame :: outer => ((name, kind) :: frame) :: outer

def find? (name : String) (scopes : Scopes) : Option ObjKind :=
  scopes.findSome? (·.lookup name)

end Scopes

/-- Computations that open and close scopes and declare names in the innermost one. -/
abbrev Scoping := StateM Scopes

namespace Scoping

/-- Runs `act` in a scope of its own. -/
def nested {α : Type} (act : Scoping α) : Scoping α := do
  modify ([] :: ·)
  let a ← act
  modify List.tail
  return a

/-- A low line declares nothing. -/
def declare (kind : ObjKind) (id : Ident) : Scoping Ident := do
  if id.isBlank then return id
  modify (Scopes.declare id.name kind)
  return { id with obj := some ⟨kind, id.name⟩ }

/-- A name that is declared nowhere stays as it is. -/
def use (id : Ident) : Scoping Ident := do
  if id.isBlank then return id
  match (← get).find? id.name with
  | some kind => return { id with obj := some ⟨kind, id.name⟩ }
  | none => return id

end Scoping

end GoFun
