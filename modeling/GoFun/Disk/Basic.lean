import GoFun.Disk.Path

/-!
# Disks

A disk holds files and folders, each at its place below the top folder. Paths are followed name by
name from the top or from the home folder. A step can lead elsewhere than its name says: links, and
names that differ in case only, can be further names of one file.
-/
namespace GoFun

attribute [local instance (high)] ByteArray.instDecidableEq

inductive Node where
  | file (content : ByteArray)
  | folder
  deriving DecidableEq

/-- The names that lead from the top folder to a node. -/
abbrev Place := List String

/-- Why a file cannot be read or written. -/
inductive Cause where
  | notFound | notFolder | isFolder | notText
  | other (text : String)
  deriving DecidableEq, Repr

structure Disk where
  home : Place
  entries : List (Place × Node)
  /-- Where a name in a folder leads to. -/
  leads : Place → Except Cause Place := .ok

def Cause.message : Cause → String
  | notFound => "No such file or directory (os error 2)"
  | notFolder => "Not a directory (os error 20)"
  | isFolder => "Is a directory (os error 21)"
  | notText => "stream did not contain valid UTF-8"
  | other text => text

namespace Disk

def get? (d : Disk) (p : Place) : Option Node :=
  if p.isEmpty then some .folder else d.entries.lookup p

def put (d : Disk) (p : Place) (n : Node) : Disk :=
  { d with entries := (p, n) :: d.entries.filter (·.1 != p) }

/-- Puts a node at a place and folders above it. -/
def add (d : Disk) (p : Place) (n : Node) : Disk :=
  let above := ((List.range p.length).drop 1).map p.take
  (above.foldl (fun d q => d.put q .folder) d).put p n

def mustBeFolder (d : Disk) (p : Place) : Except Cause Unit :=
  match d.get? p with
  | some .folder => .ok ()
  | some (.file _) => .error .notFolder
  | none => .error .notFound

/-- The place that a name leads to from a folder. -/
def next (d : Disk) (p : Place) (name : String) : Except Cause Place :=
  if Path.isIdle name.toList then .ok p
  else if name = ".." then .ok p.dropLast
  else d.leads (p ++ [name])

def walk (d : Disk) (p : Place) : List String → Except Cause Place
  | [] => .ok p
  | name :: names => do
    d.mustBeFolder p
    d.walk (← d.next p name) names

def start (d : Disk) (path : String) : Place := if Path.isAbsolute path then [] else d.home

/-- The place that a path leads to, be there a node or not. -/
def place? (d : Disk) (path : String) : Except Cause Place :=
  d.walk (d.start path) (Path.names path)

def read (d : Disk) (path : String) : Except Cause ByteArray := do
  match d.get? (← d.place? path) with
  | some (.file content) => return content
  | some .folder => throw .isFolder
  | none => throw .notFound

/-- The last name of a path, the names before it, and whether a slash follows it. -/
def target (path : String) : List String × String × Bool :=
  let rest := (Path.names path).reverse.dropWhile (· == "")
  (rest.tail.reverse, rest.headD "", rest.length != (Path.names path).length)

/-- Writes a file, new or in place of an older one. A path that ends with a slash can only be a
folder. -/
def write (d : Disk) (path : String) (content : ByteArray) : Except Cause Disk := do
  let (parents, name, slash) := target path
  let folder ← d.walk (d.start path) parents
  d.mustBeFolder folder
  if slash then throw .isFolder
  let p ← d.next folder name
  if d.get? p = some .folder then throw .isFolder
  return d.put p (.file content)

/-- The files below the home folder that `after` has and `before` has not, with their paths. -/
def changes (before after : Disk) : List (String × ByteArray) :=
  after.entries.filterMap fun (p, n) =>
    match n with
    | .file content =>
      if before.home.isPrefixOf p && before.get? p != some n then
        some ("/".intercalate (p.drop before.home.length), content)
      else none
    | .folder => none

end Disk

end GoFun
