/-!
# Paths

A path is a text of components with slashes between them. Slashes at its end, and
components that are a single dot, do not count: the name of a file is the last component
that does, unless that one leads to the parent directory. A name splits at its last dot
into a stem and an extension; a dot at its beginning belongs to the stem.

A path gets another extension in two steps: the old one is cut off the end of the path,
and what is left gets the new one. Both steps look for a name of their own, and this can
be seen in a name of two dots and an extension, such as `..cm`: the first step leaves two
dots, which lead to the parent directory and take no extension.
-/

namespace OnePass.Path

/-- A reversed path without what does not count at its end. -/
def dropEnd : List Char → List Char
  | '/' :: r => dropEnd r
  | '.' :: '/' :: r => dropEnd r
  | cs => cs

/-- A path without what does not count at its end. -/
def trimmed (p : List Char) : List Char := (dropEnd p.reverse).reverse

/-- The last component of a path that counts. -/
def lastComponent (p : List Char) : List Char :=
  ((trimmed p).reverse.takeWhile (· != '/')).reverse

/-- The name of the file that a path leads to, if it leads to one by name. -/
def fileName? (p : List Char) : Option (List Char) :=
  let name := lastComponent p
  if name = [] ∨ name = ['.'] ∨ name = ['.', '.'] then none else some name

/-- All of a path before the name of its file. -/
def directory (p : List Char) : List Char :=
  (trimmed p).take ((trimmed p).length - (lastComponent p).length)

/-- The stem of a name and its extension, if it has one. -/
def splitName (name : List Char) : List Char × Option (List Char) :=
  let extension := (name.reverse.takeWhile (· != '.')).reverse
  let stem := name.take (name.length - extension.length - 1)
  if extension.length = name.length ∨ stem = [] then (name, none) else (stem, some extension)

/-- The extension of the file that a path leads to. -/
def extension? (p : List Char) : Option (List Char) :=
  (fileName? p).bind fun name => (splitName name).2

/-- A path without as many characters at its end as the extension of its file has. -/
def cutExtension (p : List Char) : List Char :=
  p.take (p.length - ((extension? p).getD []).length)

/-- A path to a file of the same stem with another extension. A path that has no name
once its own extension is cut off stays cut off. -/
def withExtension (p extension : List Char) : List Char :=
  let rest := cutExtension p
  match fileName? rest with
  | none => rest
  | some name => directory rest ++ (splitName name).1 ++ ['.'] ++ extension

/-- A path to a file of another name in the same directory. All that separates the name
from its directory, slashes and components that do not count, becomes one slash. -/
def withFileName (p name : List Char) : List Char :=
  match directory p with
  | [] => name
  | d => trimmed d ++ '/' :: name

end OnePass.Path

namespace OnePass

/-- Where an image goes unless it is said: beside the source, with an extension of its
own. -/
def defaultOutput (source : String) : String :=
  String.ofList (Path.withExtension source.toList "cmx".toList)

end OnePass
