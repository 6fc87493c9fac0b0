import OnePass.Image.Decoding
import OnePass.Machine
import OnePass.Command.Arguments
import OnePass.Command.FileSystem
import OnePass.Command.Outcome

/-!
# The command that runs images

`Execute.load` reads the image that a command line names and makes a run ready;
`Execute.finish` turns the end of a run into the end of the command. Between the two the
run advances as long as it takes, so `execute`, which does all three, is given a number of
instructions to stop at.
-/

namespace OnePass

namespace Execute

/-- What the command is called. -/
def title : String := "C-minus image runner"

/-- The version of the command. -/
def versionText : String := "0.1.0"

/-- The options of the command. -/
def options : Options := ⟨[(none, "seed")], []⟩

/-- The shape of a command line. -/
def usage : String := "Usage: cmrun [--seed SEED] IMAGE\n"

/-- What is to be run: an image, and the seed that was asked for. -/
structure Job where
  /-- the image -/
  image : Image
  /-- the seed for random numbers, if it was given -/
  seed : Option UInt64

/-- The causes of a failure to read an image. -/
def imageCauses (e : ImageError) : List String :=
  match e with
  | .truncated => [e.message, "failed to fill whole buffer"]
  | _ => [e.message]

/-- The causes of a failed run. -/
def runCauses (e : MachineError) : List String :=
  match e with
  | .channel cause => [e.message, cause.message]
  | _ => [e.message]

/-- Reads the image at a path. A directory can be opened, but not read. -/
def loadImage {m : Type → Type} [Monad m] [FileSystem m] (path : String) :
    m (Except Outcome Image) := do
  match ← FileSystem.read path with
  | .error .isDirectory =>
    return .error (.failure "" "" ("Failed to load image: " ++ path)
      ["I/O error", FileError.isDirectory.message])
  | .error e => return .error (.failure "" "" ("Failed to open: " ++ path) [e.message])
  | .ok bytes =>
    match Image.decode bytes with
    | .ok (image, _) => return .ok image
    | .error e =>
      return .error (.failure "" "" ("Failed to load image: " ++ path) (imageCauses e))

/-- Reads a seed, if one is given. -/
def readSeed (given : Option String) : Except Outcome (Option UInt64) :=
  match given with
  | none => .ok none
  | some text =>
    match Text.unsigned64 text.toList with
    | .ok seed => .ok (some seed)
    | .error e => .error (.failure "" "" "Seed must be an unsigned integer" [e.message])

/-- Makes what a command line names ready to run, or ends the command. The seed is looked
at before the image. -/
def load {m : Type → Type} [Monad m] [FileSystem m] (reader : ArgumentReader)
    (args : List String) : m (Except Outcome Job) := do
  match reader options args with
  | .usageError => return .error (.refused usage)
  | .help => return .error (.success usage "")
  | .version => return .error (.success (title ++ " " ++ versionText ++ "\n") "")
  | .run path given _ =>
    match readSeed (given.lookup "seed") with
    | .error o => return .error o
    | .ok seed => return (← loadImage path).map fun image => ⟨image, seed⟩

/-- The exit status for a word: its lowest eight bits. -/
def status (w : Int32) : Nat := (w.toInt % 256).toNat

/-- The end of the command from the end of its run. -/
def finish (result : Result) (output : String) : Outcome :=
  match result with
  | .ok none => .success output ""
  | .ok (some w) => .exited (status w) output ""
  | .error e => .failure output "" "Runtime error" (runCauses e)

end Execute

/-- Runs the command that runs an image for at most `n` instructions; without an answer
it has not ended by then. A seed stands for one of the generators `seeded`; without one random
numbers come from `any`. -/
def execute {m : Type → Type} [Monad m] [FileSystem m] (n : Nat) (reader : ArgumentReader)
    (caseless : Caseless) (seeded : UInt64 → Random) (any : Random) (args : List String)
    (input : List UInt8) :
    m (Option Outcome) := do
  match ← Execute.load reader args with
  | .error o => return some o
  | .ok job =>
    let store := Store.new job.image input none (job.seed.elim any seeded) caseless
    match Run.advance job.image n (Execution.start job.image store) with
    | .active _ => return none
    | .done result store =>
      return some (Execute.finish result (Text.decodeCut store.output.bytes.toList))

end OnePass
