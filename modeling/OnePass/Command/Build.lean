import OnePass.Compile
import OnePass.Image.Encoding
import OnePass.Image.Listing
import OnePass.Command.Arguments
import OnePass.Command.FileSystem
import OnePass.Command.Outcome
import OnePass.Command.Path
import OnePass.Text.Caseless

/-!
# The command that compiles

`build` reads a source file, compiles it and writes the image, and on request the tree and
the listing. The image is written to a file beside its place first and then given that
place, so that a failure never leaves half an image, nor touches an earlier one.

A directory can be opened as a source, but each attempt to read a line of it fails, and as the
faults of all lines are collected, there is no end of attempts. The command does not end then.
-/

namespace OnePass

namespace Build

/-- What the command is called. -/
def title : String := "C-minus compiler"

/-- The version of the command. -/
def versionText : String := "1.0.0"

/-- The options of the command. -/
def options : Options :=
  ⟨[(some 'o', "output"), (some 'S', "listing")], ["dump-ast", "legacy-compound"]⟩

/-- The shape of a command line. -/
def usage : String :=
  "Usage: cmc [--dump-ast] [--legacy-compound] [-S FILE] [-o FILE] SOURCE\n"

/-- An argument as it is read: the output may also be given with one dash. -/
def normalise (arg : String) : String :=
  if "-output=".isPrefixOf arg then "-" ++ arg else arg

/-- Whether a path has the extension of a source, in letters of either case. -/
def isSource (caseless : Caseless) (path : String) : Bool :=
  match Path.extension? path.toList with
  | some e => caseless.same e ['c', 'm']
  | none => false

/-- Where an image is written before it gets its place. -/
def temporary (output : String) (name : List Char) : String :=
  String.ofList (Path.withFileName output.toList (name ++ ".partial".toList))

variable {m : Type → Type} [Monad m] [FileSystem m]

/-- Writes an image to its place; a failure names its causes. -/
def writeImage (output : String) (image : Image) : m (Except (List String) Unit) := do
  match Path.fileName? output.toList with
  | none => return .error ["Output path `" ++ output ++ "` does not name a file"]
  | some name =>
    let temp := temporary output name
    match ← FileSystem.create temp image.encode with
    | .error e => abandon temp e.cause
    | .ok () =>
      match ← FileSystem.rename temp output with
      | .error e => abandon temp e
      | .ok () => return .ok ()
where
  /-- Takes away what is there of an image. Whether that fails is not looked at. -/
  abandon (temp : String) (e : FileError) : m (Except (List String) Unit) := do
    let _ ← FileSystem.remove temp
    return .error ["I/O error", e.message]

/-- What a failure to write a listing to a file is told as. -/
def listingContext (path : String) : WriteError → String
  | .opening _ => "Failed to open for writing: " ++ path
  | .writing _ => "Failed to write listing: " ++ path

/-- Writes a listing where it is asked for; a dash is the standard output. What was written
there is handed back, and a failure as what it is told as, with its cause. -/
def writeListing (request : Option String) (listing : String) :
    m (Except (String × FileError) String) := do
  match request with
  | none => return .ok ""
  | some path =>
    if path = "-" then
      return match ← FileSystem.print listing with
        | .error e => .error ("Failed to write listing to stdout", e)
        | .ok () => .ok listing
    else
      return match ← FileSystem.create path (Text.encode listing) with
        | .error e => .error (listingContext path e, e.cause)
        | .ok () => .ok ""

/-- Writes all that is asked for of a compilation. -/
def writeAll (source output : String) (listing : Option String) (dump : Bool)
    (c : Compilation) : m Outcome := do
  let errors := if dump then c.tree.node.render source else ""
  match ← writeListing listing c.image.listing with
  | .error (context, e) => return .failure "" errors context [e.message]
  | .ok text =>
    match ← writeImage output c.image with
    | .error causes => return .failure text errors ("Failed to write image: " ++ output) causes
    | .ok () => return .success text errors

/-- Compiles the file at a path. Without an outcome the command does not end. -/
def compileFile (caseless : Caseless) (source : String) (options : List (String × String))
    (flags : List String) : m (Option Outcome) := do
  if !isSource caseless source then
    return some (.failure "" "" ("Source file must have a .cm extension: " ++ source) [])
  match ← FileSystem.read source with
  | .error .isDirectory => return none
  | .error e => return some (.failure "" "" ("Failed to open: " ++ source) [e.message])
  | .ok bytes =>
    match compile source (flags.contains "legacy-compound") bytes with
    | .error report => return some (.exited 1 "" report.render)
    | .ok c =>
      let output := (options.lookup "output").getD (defaultOutput source)
      some <$> writeAll source output (options.lookup "listing") (flags.contains "dump-ast") c

end Build

/-- Runs the command that compiles. Without an outcome it does not end. -/
def build {m : Type → Type} [Monad m] [FileSystem m] (reader : ArgumentReader)
    (caseless : Caseless) (args : List String) : m (Option Outcome) :=
  match reader Build.options (args.map Build.normalise) with
  | .usageError => return some (.refused Build.usage)
  | .help => return some (.success Build.usage "")
  | .version => return some (.success (Build.title ++ " " ++ Build.versionText ++ "\n") "")
  | .run source options flags => Build.compileFile caseless source options flags

end OnePass
