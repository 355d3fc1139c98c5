import GoFun.Fun.Lowering
import GoFun.Grammar.File
import GoFun.Scope.Resolve

/-!
# Source units

A unit is the resolved tree of one source text, with what is needed to place it in the text.
-/
namespace GoFun

structure SourceUnit where
  map : SourceMap
  file : File

namespace SourceUnit

/-- Reads a source text. The name is shown in positions. Nothing when the text is no Go file. -/
def read? (name text : String) : Option SourceUnit :=
  (Grammar.parse? text).map fun file => ⟨.ofText name text, file.resolve⟩

/-- What is said of a text that is no Go file. -/
def malformed (name : String) : String := "failed to parse " ++ name ++ ": 1 error(s)"

def lower (u : SourceUnit) (c : Fun.Config) : Fun.Lowering Fun.Module :=
  Fun.lowerFile u.map c u.file

def outline (u : SourceUnit) (f : Filter) : String := u.file.outline.render u.map f

end SourceUnit

end GoFun
