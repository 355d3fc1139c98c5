import GoFun.Command.Run

/-!
# The command line

The first argument names the program, the others are its own.
-/
namespace GoFun

def causeOf : IO.Error → Cause
  | .noFileOrDirectory .. => .notFound
  | .inappropriateType _ code _ => if code = 21 then .isFolder else .notFolder
  | e => .other (toString e)

def files : Command.Store IO where
  read path := do return (← (IO.FS.readBinFile path).toBaseIO).mapError causeOf
  write path content := do return (← (IO.FS.writeBinFile path content).toBaseIO).mapError causeOf

end GoFun

def main (arguments : List String) : IO UInt32 := do
  match arguments with
  | name :: rest =>
    match GoFun.Command.Program.ofName? name with
    | some p =>
      let outcome ← GoFun.Command.run GoFun.files p rest
      IO.print outcome.stdout
      IO.eprint outcome.stderr
      return outcome.exit.toUInt32
    | none => unknown
  | [] => unknown
where
  unknown : IO UInt32 := do
    IO.eprintln "usage: (fun-translate | goast) ARGUMENTS"
    return 2
