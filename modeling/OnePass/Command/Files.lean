import OnePass.Command.FileSystem

/-!
# A tree of files

A file system as far as the commands use it: directories, files and links, found by walking
down a path, component by component; all but the last must be directories that are there, or
links to some. Commands run in one of the directories, where a path begins unless it begins
with a slash. A slash at the end of a path asks for a directory. Neither a name nor a path is
of any length.

A link holds a path, which goes on from the directory that the link is in. Whether a link at
the end of a path is followed depends on what is asked for: a file is read and made behind the
link, but it is the link that gets another place or is taken away.
-/

namespace OnePass

/-- What stands at a place of the tree. -/
inductive Entry where
  | directory
  | file (bytes : List UInt8)
  /-- a link, and the path that it holds -/
  | link (target : String)
  deriving DecidableEq, Repr

/-- A place in the tree: the names on the way from the root. -/
abbrev Location := List String

/-- A tree of files. -/
structure Files where
  /-- the directory in which commands run; it and those around it are always there -/
  here : Location
  /-- what stands elsewhere -/
  entries : List (Location × Entry)
  deriving DecidableEq, Repr

namespace Files

/-- A tree of no files. -/
def empty : Files := ⟨["home"], []⟩

/-- What stands at a place. -/
def found? (f : Files) (l : Location) : Option Entry :=
  if l.isPrefixOf f.here then some .directory else f.entries.lookup l

/-- The tree with nothing at a place. -/
def erase (f : Files) (l : Location) : Files :=
  { f with entries := f.entries.filter fun e => e.1 != l }

/-- The tree with something else at a place. -/
def put (f : Files) (l : Location) (e : Entry) : Files :=
  { f with entries := (l, e) :: (f.erase l).entries }

/-- The names in the directory in which commands run. -/
def names (f : Files) : List String :=
  f.entries.filterMap fun e => if e.1.dropLast = f.here then e.1.getLast? else none

/-- The components of a path. -/
def components (path : String) : List String :=
  ((path.toList.splitOn '/').filter (· ≠ [])).map String.ofList

/-- The most bytes that a name may have. -/
def longestName : Nat := 255

/-- The most bytes that a path may have. -/
def longestPath : Nat := 4095

/-- Where a path ends. -/
inductive Goal where
  /-- at a directory that is there, since the path says no name at its end -/
  | directory (l : Location)
  /-- at a name in a directory that is there; the name itself need not be there -/
  | name (l : Location) (n : String)
  deriving DecidableEq, Repr

/-- The place of a name in a directory. -/
def child (l : Location) (n : String) : Except FileError Location :=
  if n.utf8ByteSize ≤ longestName then .ok (l ++ [n]) else .error .nameTooLong

/-- The place where a path ends. -/
def Goal.location : Goal → Except FileError Location
  | .directory l => .ok l
  | .name l n => child l n

/-- The most links that are followed on the way to the end of a path. -/
def mostLinks : Nat := 40

/-- Where a path begins that is met in a directory. -/
def start (l : Location) (path : String) : Location :=
  if path.toList.head? = some '/' then [] else l

/-- Walks from a directory down the components of a path. Behind a link `onLink` goes on; a link
at the end of the path is where the path ends, unless `last` says that it is to be followed. -/
def walk (f : Files) (last : Bool) (onLink : Location → List String → Except FileError Goal)
    (l : Location) : List String → Except FileError Goal
  | [] => .ok (.directory l)
  | n :: rest =>
    if n = "." then walk f last onLink l rest
    else if n = ".." then walk f last onLink l.dropLast rest
    else if rest = [] ∧ last = false then .ok (.name l n)
    else match child l n with
      | .error e => .error e
      | .ok next =>
        match f.found? next with
        | some (.link target) => onLink (start l target) (components target ++ rest)
        | some .directory => if rest = [] then .ok (.name l n) else walk f last onLink next rest
        | some (.file _) => if rest = [] then .ok (.name l n) else .error .notDirectory
        | none => if rest = [] then .ok (.name l n) else .error .notFound

/-- Walks from a directory down the components of a path over at most so many links. -/
def resolve (f : Files) (last : Bool) : Nat → Location → List String → Except FileError Goal
  | 0 => f.walk last fun _ _ => .error .tooManyLinks
  | links + 1 => f.walk last (resolve f last links)

/-- Follows a path to where it ends. -/
def follow (f : Files) (last : Bool) (path : String) : Except FileError Goal :=
  if path = "" then .error .notFound
  else if longestPath < path.utf8ByteSize then .error .nameTooLong
  else f.resolve last mostLinks (start f.here path) (components path)

/-- The place that a path leads to, over all links. -/
def locate (f : Files) (path : String) : Except FileError Location := do
  (← f.follow true path).location

/-- Whether a path asks for a directory. -/
def endsInSlash (path : String) : Bool := path.toList.getLast? = some '/'

/-- The place whose name a path says at its end. A link that stands there is not followed. -/
def entryAt (f : Files) (path : String) : Except FileError Location := do
  match ← f.follow false path with
  | .directory _ => .error .busy
  | .name l n => if endsInSlash path then .error .notDirectory else child l n

/-- The bytes of a file. -/
def read (f : Files) (path : String) : Except FileError (List UInt8) := do
  match f.found? (← f.locate path) with
  | none => .error .notFound
  | some .directory => .error .isDirectory
  | some (.file bytes) => if endsInSlash path then .error .notDirectory else .ok bytes
  | some (.link _) => .error .tooManyLinks

/-- Makes a file, or empties the one that is there, and writes bytes to it. -/
def create (f : Files) (path : String) (bytes : List UInt8) : Except FileError Files := do
  match ← f.follow true path with
  | .directory _ => .error .isDirectory
  | .name l n =>
    if endsInSlash path then .error .isDirectory
    else
      let place ← child l n
      match f.found? place with
      | some .directory => .error .isDirectory
      | some (.link _) => .error .tooManyLinks
      | some (.file _) | none => return f.put place (.file bytes)

/-- Makes a directory. -/
def makeDirectory (f : Files) (path : String) : Except FileError Files := do
  return f.put (← f.locate path) .directory

/-- Gives a file or a link another place, where another one may stand, but no directory. Both
paths have to say a name at their end. -/
def rename (f : Files) (source target : String) : Except FileError Files := do
  let old ← f.entryAt source
  let new ← f.entryAt target
  match f.found? old, f.found? new with
  | none, _ => .error .notFound
  | some .directory, _ => .error .busy
  | some _, some .directory => .error .isDirectory
  | some e, _ => return (f.erase old).put new e

/-- Takes a file or a link away. -/
def remove (f : Files) (path : String) : Except FileError Files := do
  let place ← f.entryAt path
  match f.found? place with
  | none => .error .notFound
  | some .directory => .error .isDirectory
  | some _ => return f.erase place

/-- The tree behind an operation that may fail; a failure changes nothing. -/
def attempt {ε : Type} (f : Files) : Except ε Files → Except ε Unit × Files
  | .ok changed => (.ok (), changed)
  | .error e => (.error e, f)

/-- A tree of files is a file system. A file that can be made takes all that is written
to it. -/
instance : FileSystem (StateM Files) where
  read path := fun f => (f.read path, f)
  create path bytes := fun f => f.attempt ((f.create path bytes).mapError .opening)
  rename source target := fun f => f.attempt (f.rename source target)
  remove path := fun f => f.attempt (f.remove path)
  print _ := fun f => (.ok (), f)

end Files

end OnePass
