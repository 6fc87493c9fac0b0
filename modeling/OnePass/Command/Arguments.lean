/-!
# Command lines

A command takes one path, options with a value and flags without one, in any order. An
option is given by its long name, or by its letter if it has one; its value follows as an
argument of its own or is attached. Two dashes alone end the options, and one dash alone
is not one.

How a command line is read is up to whoever runs a command (`ArgumentReader`). Here is one way.
Arguments are read from left to right, and the first one that cannot be understood is an
error; a request for the version or for help counts from where it stands. What can only be
judged at the end (an option without a value, anything given twice, a missing path) is
judged at the end.
-/

namespace OnePass

/-- What a command line may hold beside the path. -/
structure Options where
  /-- options with a value: their letters, if they have one, and their names -/
  options : List (Option Char × String)
  /-- the names of the flags -/
  flags : List String

/-- What a command line asks for. -/
inductive Request where
  /-- it cannot be understood -/
  | usageError
  /-- the version of the command -/
  | version
  /-- help -/
  | help
  /-- the work of the command -/
  | run (path : String) (options : List (String × String)) (flags : List String)
  deriving DecidableEq, Repr

namespace Arguments

/-- What has been read of a command line. -/
structure State where
  /-- the path, if it was given -/
  path : Option String
  /-- the options given, the last one first -/
  options : List (String × String)
  /-- the flags given -/
  flags : List String
  /-- the option whose value the next argument is -/
  pending : Option String
  /-- whether some option has no value -/
  incomplete : Bool
  /-- whether the options are over -/
  optionsOver : Bool

/-- Nothing has been read. -/
def State.start : State := ⟨none, [], [], none, false, false⟩

/-- Another option or flag begins; one that still waits for its value will not get it. -/
def State.settle (s : State) : State :=
  { s with pending := none, incomplete := s.incomplete || s.pending.isSome }

/-- Reads the path, of which there is only one. -/
def takePath (s : State) (arg : String) : Except Request State :=
  match s.path with
  | some _ => .error .usageError
  | none => .ok { s.settle with path := some arg }

/-- Reads an argument behind two dashes: a name, and a value behind an equals sign. -/
def takeLong (y : Options) (s : State) (arg : List Char) : Except Request State :=
  let name := String.ofList (arg.takeWhile (· != '='))
  let value := match arg.dropWhile (· != '=') with
    | _ :: cs => some (String.ofList cs)
    | [] => none
  let s := s.settle
  if y.options.any fun o => o.2 = name then
    match value with
    | some v => .ok { s with options := (name, v) :: s.options }
    | none => .ok { s with pending := some name }
  else if value.isSome then .error .usageError
  else if y.flags.contains name then .ok { s with flags := name :: s.flags }
  else if name = "version" then .error .version
  else if name = "help" then .error .help
  else .error .usageError

/-- Reads an argument behind one dash: the letter of an option, and its value, with or
without an equals sign. -/
def takeShort (y : Options) (s : State) (letter : Char) (rest : List Char) :
    Except Request State :=
  let s := s.settle
  match y.options.find? fun o => o.1 = some letter with
  | some (_, name) =>
    match rest with
    | [] => .ok { s with pending := some name }
    | '=' :: value => .ok { s with options := (name, String.ofList value) :: s.options }
    | value => .ok { s with options := (name, String.ofList value) :: s.options }
  | none =>
    if letter = 'V' then .error .version
    else if letter = 'h' then .error .help
    else .error .usageError

/-- Reads an argument that is no option. -/
def takePlain (s : State) (arg : String) : Except Request State :=
  match s.pending with
  | some name => .ok { s with pending := none, options := (name, arg) :: s.options }
  | none => takePath s arg

/-- Reads one argument. -/
def take (y : Options) (s : State) (arg : String) : Except Request State :=
  if s.optionsOver then takePath s arg
  else match arg.toList with
    | ['-', '-'] => .ok { s with optionsOver := true }
    | '-' :: '-' :: long => takeLong y s long
    | '-' :: letter :: rest => takeShort y s letter rest
    | _ => takePlain s arg

/-- Whether a list has an element twice. -/
def hasDuplicate : List String → Bool
  | [] => false
  | x :: xs => xs.contains x || hasDuplicate xs

/-- Judges a command line at its end. -/
def finish (s : State) : Request :=
  let s := s.settle
  match s.path with
  | none => .usageError
  | some path =>
    if s.incomplete || hasDuplicate (s.options.map Prod.fst) || hasDuplicate s.flags then
      .usageError
    else .run path s.options s.flags

end Arguments

/-- A way of reading command lines: what the arguments of a command ask for. -/
abbrev ArgumentReader := Options → List String → Request

/-- What a command line asks for, read from left to right. -/
def Options.read : ArgumentReader := fun y args =>
  match args.foldlM (Arguments.take y) .start with
  | .ok s => Arguments.finish s
  | .error r => r

end OnePass
