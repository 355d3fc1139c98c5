import GoFun.Command.Options
import GoFun.Disk.Basic
import GoFun.Fun.Text
import GoFun.Source.Unit

/-!
# Running a command

A command reads one file and then prints a text, writes one file or fails. It is written for any
store of files, so that it runs on the disk of this library as on any other.
-/
namespace GoFun.Command

structure Store (m : Type → Type) where
  read : String → m (Except Cause ByteArray)
  write : String → ByteArray → m (Except Cause Unit)

structure Outcome where
  exit : Nat
  stdout : String
  stderr : String
  deriving DecidableEq, Repr

/-- What is to be done once the source file has been read. -/
inductive Reply where
  | print (text : String)
  | save (path text : String)
  | fail (message : String)
  deriving DecidableEq, Repr

def decode (content : Except Cause ByteArray) : Except Cause String := do
  match String.fromUTF8? (← content) with
  | some text => return text
  | none => throw .notText

def outputPath (file : String) (g : Given) : String := g.output.getD (Path.withExtension "fun" file)

def replyTo (p : Program) (file : String) (g : Given) (u : SourceUnit) : Reply :=
  match p with
  | .outline => .print (u.outline g.filter)
  | .lowering =>
    match u.lower g.config with
    | .ok m => .save (outputPath file g) (m.text ++ "\n")
    | .error e => .fail (e.message u.map)

def reply (p : Program) (file : String) (g : Given) (content : Except Cause ByteArray) : Reply :=
  match decode content with
  | .error cause => .fail ("Can't read " ++ file ++ ": " ++ cause.message)
  | .ok text =>
    match SourceUnit.read? file text with
    | none => .fail (SourceUnit.malformed file)
    | some u => replyTo p file g u

def failed (message : String) : Outcome := ⟨1, "", message ++ "\n"⟩

def perform {m : Type → Type} [Monad m] (s : Store m) : Reply → m Outcome
  | .print text => pure ⟨0, text, ""⟩
  | .fail message => pure (failed message)
  | .save path text => do
    match ← s.write path text.toUTF8 with
    | .ok _ => return ⟨0, "", ""⟩
    | .error cause => return failed ("Can't write " ++ path ++ ": " ++ cause.message)

def run {m : Type → Type} [Monad m] (s : Store m) (p : Program) (arguments : List String) :
    m Outcome := do
  match readArguments p .none arguments with
  | .error e => return ⟨2, "", e.message ++ "\n\n" ++ p.usage⟩
  | .ok .help => return ⟨0, p.helpText, ""⟩
  | .ok .version => return ⟨0, p.versionText, ""⟩
  | .ok (.run file g) => perform s (reply p file g (← s.read file))

end GoFun.Command
