import OnePass.Command.Build
import OnePass.Command.Execute
import OnePass.Machine.Seeded

/-!
# The program

One program holds both commands, and its first argument says which one is meant. All that
is decided is decided elsewhere: here a run meets the real files, the real input and the
real output. Input is read a line at a time, and only when the run is about to take one;
output is handed on before that, so that whoever types sees what was asked.
-/

namespace OnePass.Program

/-- The number of a failure and its wording, where the system gives them. -/
def systemFailure? : IO.Error → Option (UInt32 × String)
  | .alreadyExists _ code details => some (code, details)
  | .otherError code details => some (code, details)
  | .resourceBusy code details => some (code, details)
  | .resourceVanished code details => some (code, details)
  | .unsupportedOperation code details => some (code, details)
  | .hardwareFault code details => some (code, details)
  | .unsatisfiedConstraints code details => some (code, details)
  | .illegalOperation code details => some (code, details)
  | .protocolError code details => some (code, details)
  | .timeExpired code details => some (code, details)
  | .interrupted _ code details => some (code, details)
  | .noFileOrDirectory _ code details => some (code, details)
  | .invalidArgument _ code details => some (code, details)
  | .permissionDenied _ code details => some (code, details)
  | .resourceExhausted _ code details => some (code, details)
  | .inappropriateType _ code details => some (code, details)
  | .noSuchThing _ code details => some (code, details)
  | .unexpectedEof => none
  | .userError _ => none

/-- Why the system could not do something with a file. -/
def fileError (e : IO.Error) : FileError :=
  match systemFailure? e with
  | some (2, _) => .notFound
  | some (16, _) => .busy
  | some (20, _) => .notDirectory
  | some (21, _) => .isDirectory
  | some (36, _) => .nameTooLong
  | some (code, details) => .other (details ++ " (os error " ++ toString code.toNat ++ ")")
  | none => .other (toString e)

/-- Does something with a file and tells why it could not be done. -/
def attempt {α : Type} (action : IO α) : IO (Except FileError α) := do
  try return .ok (← action)
  catch e => return .error (fileError e)

/-- Makes a file, or empties the one that is there, and writes bytes to it. -/
def create (path : String) (bytes : List UInt8) : IO (Except WriteError Unit) := do
  match ← attempt (IO.FS.Handle.mk path .write) with
  | .error e => return .error (.opening e)
  | .ok file =>
    return (← attempt do
      file.write ⟨bytes.toArray⟩
      file.flush).mapError .writing

/-- The files of the machine. -/
instance : FileSystem IO where
  read path := attempt do return (← (← IO.FS.Handle.mk path .read).readBinToEnd).toList
  create := create
  rename source target := attempt (IO.FS.rename source target)
  remove path := attempt (IO.FS.removeFile path)
  -- all that a command writes there is part of its outcome, and goes there at the end
  print _ := return .ok ()

/-- Hands on what a run has written so far. -/
def handOn (output : IO.FS.Stream) (store : Store) : IO Store := do
  output.write ⟨store.output.bytes⟩
  output.flush
  return { store with output := { store.output with bytes := #[] } }

/-- Reads a line with its line feed; nothing at the end of the input. -/
partial def readLine (input : IO.FS.Stream) (line : Array UInt8) : IO (List UInt8) := do
  match (← input.read 1).data[0]? with
  | none => return line.toList
  | some byte =>
    if byte = 0x0a then return (line.push byte).toList
    else readLine input (line.push byte)

/-- Carries a run to its end. -/
partial def drive (image : Image) (input output : IO.FS.Stream) : Run → IO Result
  | .done result store => do
    let _ ← handOn output store
    return result
  | .active p => do
    if p.readsNext && p.store.input.isEmpty then
      let store ← handOn output p.store
      let line ← readLine input #[]
      drive image input output
        (Execution.step image { p with store := { store with input := line } })
    else
      drive image input output (Execution.step image p)

/-- Any seed. -/
def anySeed : IO UInt64 := do
  return (← IO.getRandomBytes 8).data.foldl (fun seed byte => seed * 256 + byte.toUInt64) 0

/-- The command that runs an image. -/
def executeLive (args : List String) : IO Outcome := do
  match ← Execute.load Options.read args with
  | .error o => return o
  | .ok job =>
    let seed ← match job.seed with
      | some seed => pure seed
      | none => anySeed
    let start := Execution.start job.image (.new job.image [] none (.ofSeed seed) .simple)
    return Execute.finish (← drive job.image (← IO.getStdin) (← IO.getStdout) start) ""

/-- Writes what a command wrote and gives its exit status. -/
def conclude (o : Outcome) : IO UInt32 := do
  (← IO.getStdout).putStr o.output
  (← IO.getStderr).putStr o.errors
  return UInt32.ofNat o.status

/-- A command that does not end. -/
partial def idle : IO UInt32 := idle

/-- The command that compiles. -/
def buildLive (args : List String) : IO UInt32 := do
  match ← build Options.read .simple args with
  | some o => conclude o
  | none => idle

/-- Runs the command that the first argument names: `cmc` compiles, and `cmrun` runs an
image. -/
def run (args : List String) : IO UInt32 := do
  match args with
  | "cmc" :: rest => buildLive rest
  | "cmrun" :: rest => conclude (← executeLive rest)
  | _ => conclude (.refused (Build.usage ++ Execute.usage))

end OnePass.Program

/-- The program; see `OnePass.Program.run`. -/
def main (args : List String) : IO UInt32 := OnePass.Program.run args
