/-!
# What commands ask of a file system

A command reads whole files, makes files, gives them other places and takes them away, and it
writes to its standard output. It runs on anything that can do this, be it a machine's own
file system or a value that stands for one. Whatever it asks for may fail.
-/

namespace OnePass

/-- Why an operation on files fails. -/
inductive FileError where
  /-- there is nothing of that name -/
  | notFound
  /-- a file stands where a directory is needed -/
  | notDirectory
  /-- a directory stands where a file is needed -/
  | isDirectory
  /-- a directory in use cannot get another place, nor be replaced -/
  | busy
  /-- a name, or the path as a whole, has too many bytes -/
  | nameTooLong
  /-- one link leads to another too many times -/
  | tooManyLinks
  /-- any other reason, in the words of the file system -/
  | other (wording : String)
  deriving DecidableEq, Repr

/-- The wording of a failure. -/
def FileError.message : FileError → String
  | .notFound => "No such file or directory (os error 2)"
  | .notDirectory => "Not a directory (os error 20)"
  | .isDirectory => "Is a directory (os error 21)"
  | .busy => "Device or resource busy (os error 16)"
  | .nameTooLong => "File name too long (os error 36)"
  | .tooManyLinks => "Too many levels of symbolic links (os error 40)"
  | .other wording => wording

/-- Why bytes do not get into a file. -/
inductive WriteError where
  /-- there is no file to write them to -/
  | opening (cause : FileError)
  /-- the file does not take all of them -/
  | writing (cause : FileError)
  deriving DecidableEq, Repr

/-- What went wrong with the file itself. -/
def WriteError.cause : WriteError → FileError
  | .opening cause => cause
  | .writing cause => cause

/-- Files that can be found by their paths. -/
class FileSystem (m : Type → Type) where
  /-- The bytes of a file. Of a directory there are none to be had, though it can be opened. -/
  read : String → m (Except FileError (List UInt8))
  /-- Makes a file, or empties the one that is there, and writes bytes to it. -/
  create : String → List UInt8 → m (Except WriteError Unit)
  /-- Gives a file another place, where another file may stand. -/
  rename : String → String → m (Except FileError Unit)
  /-- Takes a file away. -/
  remove : String → m (Except FileError Unit)
  /-- Writes to the standard output. -/
  print : String → m (Except FileError Unit)

end OnePass
