import GoFun.Fun.Lowering

/-!
# Command lines

There are two programs. Both take a file and options in any order; `--` ends the options. Arguments
are read from the left, and the first one that asks for help or the version, or that is wrong,
decides.
-/
namespace GoFun.Command

inductive Program where
  | lowering | outline
  deriving DecidableEq, Repr

def Program.name : Program → String
  | lowering => "fun-translate"
  | outline => "goast"

def Program.ofName? (name : String) : Option Program :=
  [lowering, outline].find? (·.name == name)

inductive Switch where
  | output | strictTopLevels | rejectLongChars | all | help | version
  deriving DecidableEq, Repr

def Switch.word : Switch → String
  | output => "output"
  | strictTopLevels => "strict-top-levels"
  | rejectLongChars => "reject-multi-char"
  | all => "all"
  | help => "help"
  | version => "version"

def Switch.letter? : Switch → Option Char
  | output => some 'o'
  | help => some 'h'
  | version => some 'V'
  | _ => none

def Program.switches : Program → List Switch
  | lowering => [.output, .strictTopLevels, .rejectLongChars, .help, .version]
  | outline => [.all, .help, .version]

inductive UsageError where
  | unexpected (argument : String)
  | unneededValue (s : Switch)
  | missingValue (s : Switch)
  | repeated (s : Switch)
  | emptyPath
  | missingFile
  deriving DecidableEq, Repr

def UsageError.message : UsageError → String
  | unexpected argument => "error: unexpected argument '" ++ argument ++ "' found"
  | unneededValue s => "error: unexpected value for '--" ++ s.word ++
      "' found; no more were expected"
  | missingValue s => "error: a value is required for '--" ++ s.word ++ "' but none was supplied"
  | repeated s => "error: the argument '--" ++ s.word ++ "' cannot be used multiple times"
  | emptyPath => "error: a value is required but none was supplied"
  | missingFile => "error: the following required arguments were not provided:\n  <FILE>"

/-- What the arguments so far have set. -/
structure Given where
  file : Option String
  output : Option String
  flags : List Switch
  deriving DecidableEq, Repr

def Given.none : Given := ⟨.none, .none, []⟩

namespace Given

def addFile (g : Given) (path : String) : Except UsageError Given :=
  if g.file.isSome then .error (.unexpected path)
  else if path.isEmpty then .error .emptyPath
  else .ok { g with file := some path }

def addOutput (g : Given) (path : String) : Except UsageError Given :=
  if g.output.isSome then .error (.repeated .output)
  else if path.isEmpty then .error .emptyPath
  else .ok { g with output := some path }

def addFlag (g : Given) (s : Switch) : Except UsageError Given :=
  if s ∈ g.flags then .error (.repeated s) else .ok { g with flags := s :: g.flags }

end Given

inductive Request where
  | help
  | version
  | run (file : String) (g : Given)
  deriving DecidableEq, Repr

/-- Splits `word=value`. -/
def splitValue (cs : List Char) : String × Option String :=
  let word := String.ofList (cs.takeWhile (· != '='))
  match cs.dropWhile (· != '=') with
  | [] => (word, none)
  | _ :: value => (word, some (String.ofList value))

/-- The switch that an argument names and the value attached to it. An argument that does not start
with a dash, or is only a dash, names none. Behind a letter the value may follow at once or after an
equals sign. -/
def switch? (p : Program) (argument : String) :
    Except UsageError (Option (Switch × Option String)) :=
  match argument.toList with
  | '-' :: '-' :: cs =>
    let (word, value) := splitValue cs
    match p.switches.find? (·.word == word) with
    | none => .error (.unexpected argument)
    | some s =>
      if value.isSome && s != .output then .error (.unneededValue s) else .ok (some (s, value))
  | '-' :: c :: cs =>
    match p.switches.find? (·.letter? == some c) with
    | none => .error (.unexpected argument)
    | some s => .ok (some (s, attached cs))
  | _ => .ok none
where
  attached : List Char → Option String
    | [] => none
    | '=' :: value => some (String.ofList value)
    | value => some (String.ofList value)

/-- A value that stands alone may not look like a switch. -/
def isValue (argument : String) : Bool := argument == "-" || argument.toList.head? != some '-'

def finish (g : Given) : Except UsageError Request :=
  match g.file with
  | some file => .ok (.run file g)
  | none => .error .missingFile

def readArguments (p : Program) (g : Given) : List String → Except UsageError Request
  | [] => finish g
  | "--" :: files => files.foldlM Given.addFile g >>= finish
  | argument :: rest =>
    match switch? p argument with
    | .error e => .error e
    | .ok none => g.addFile argument >>= (readArguments p · rest)
    | .ok (some (.help, _)) => .ok .help
    | .ok (some (.version, _)) => .ok .version
    | .ok (some (.output, some value)) => g.addOutput value >>= (readArguments p · rest)
    | .ok (some (.output, none)) =>
      match rest with
      | value :: rest =>
        if isValue value then g.addOutput value >>= (readArguments p · rest)
        else .error (.missingValue .output)
      | [] => .error (.missingValue .output)
    | .ok (some (s, _)) => g.addFlag s >>= (readArguments p · rest)

def Given.config (g : Given) : Fun.Config :=
  { strictTopLevels := .strictTopLevels ∈ g.flags, rejectLongChars := .rejectLongChars ∈ g.flags }

def Given.filter (g : Given) : Filter := if .all ∈ g.flags then .all else .compact

def Program.versionText (p : Program) : String := p.name ++ " 0.1.0\n"

def Program.usage : Program → String
  | lowering => "Usage: fun-translate [OPTIONS] <FILE>\n"
  | outline => "Usage: goast [OPTIONS] <FILE>\n"

def Program.helpText (p : Program) : String :=
  match p with
  | lowering =>
    "Translate a Go source file into a Fun syntax tree\n\n" ++ p.usage ++ "
Arguments:
  <FILE>  Go source file

Options:
  -o, --output <OUTPUT>    Output path. Defaults to the input path with the `.fun` extension
      -- strict-top-levels  Fail on top-level var, const and type declarations instead of skipping
      -- them reject-multi-char  Fail on character literals longer than one code point instead of
      -- truncating them
  -h, --help               Print help
  -V, --version            Print version
"
  | outline =>
    "Print the syntax tree of a Go source file\n\n" ++ p.usage ++ "
Arguments:
  <FILE>  Go source file

Options:
      --all      Keep positions and empty fields
  -h, --help     Print help
  -V, --version  Print version
"

end GoFun.Command
