/-!
# Paths

A path is a list of names with slashes between them. `withExtension` names the file that stands
beside another one and differs in its extension.
-/
namespace GoFun.Path

/-- The pieces between the slashes, empty ones too. -/
def pieces : List Char → List (List Char)
  | [] => [[]]
  | c :: cs =>
    if c = '/' then [] :: pieces cs
    else match pieces cs with
      | [] => [[c]]
      | p :: ps => (c :: p) :: ps

def names (path : String) : List String := (pieces path.toList).map String.ofList

def isAbsolute (path : String) : Bool := path.toList.head? == some '/'

/-- A piece that stays in its folder. -/
def isIdle (piece : List Char) : Bool := piece.isEmpty || piece == ['.']

/-- The name of a file without its last dot and what follows. A dot that begins the name does not
count, and a name without a dot is its own stem. -/
def stem (name : List Char) : List Char :=
  let before := (name.reverse.dropWhile (· != '.')).drop 1
  if before.isEmpty then name else before.reverse

/-- The name with another extension. Where only a dot would be left before the extension, and the
name is the end of its path, the name becomes that of the parent folder. -/
def rename (extension name : List Char) (isLast : Bool) : List Char :=
  if isLast && stem name == ['.'] then ['.', '.'] else stem name ++ '.' :: extension

/-- The path of a file with another extension, without what stands behind its name. A path that ends
in no name, as `/`, `.` and `..` do, stays as it is. -/
def withExtension (extension path : String) : String :=
  let all := pieces path.toList
  match all.reverse.dropWhile isIdle with
  | [] => path
  | name :: above =>
    if name = ['.', '.'] then path
    else
      let renamed := rename extension.toList name (above.length + 1 == all.length)
      String.ofList (['/'].intercalate (above.reverse ++ [renamed]))

end GoFun.Path
