/-!
# How a command ends

A command ends with an exit status and what it wrote to its two outputs. A failure is
told as a context and its causes, from the outside in; several causes are numbered.
-/

namespace OnePass

/-- How a command ended. -/
inductive Outcome where
  /-- its command line was not understood; the hint shows what it looks like -/
  | refused (hint : String)
  /-- it ran to its end, with an exit status from 0 to 255 and what it wrote to its standard
  output and to its error output -/
  | exited (status : Nat) (output errors : String)
  deriving DecidableEq, Repr

namespace Outcome

/-- The exit status. -/
def status : Outcome → Nat
  | .refused _ => 2
  | .exited status _ _ => status

/-- What was written to the standard output. -/
def output : Outcome → String
  | .refused _ => ""
  | .exited _ output _ => output

/-- What was written to the error output. -/
def errors : Outcome → String
  | .refused hint => hint
  | .exited _ _ errors => errors

/-- An end without failure. -/
def success (output errors : String) : Outcome := .exited 0 output errors

/-- Text behind an indentation that its later lines share. -/
def indented (first later text : String) : String :=
  first ++ String.ofList (text.toList.flatMap fun c =>
    if c = '\n' then '\n' :: later.toList else [c])

/-- The lines that tell the causes of a failure. -/
def causeLines : List String → String
  | [] => ""
  | [cause] => "\n\nCaused by:\n" ++ indented "    " "    " cause
  | causes =>
    "\n\nCaused by:" ++ String.join (causes.zipIdx.map fun (cause, n) =>
      let number := toString n
      let margin := String.ofList (List.replicate (5 - number.length) ' ')
      "\n" ++ indented (margin ++ number ++ ": ") "       " cause)

/-- An end with a failure. -/
def failure (output errors context : String) (causes : List String) : Outcome :=
  .exited 1 output (errors ++ "Error: " ++ context ++ causeLines causes ++ "\n")

end Outcome

end OnePass
