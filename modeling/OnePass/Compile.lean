import OnePass.Generator.Handed
import OnePass.Tree.Parser
import OnePass.Tree.View
import OnePass.Token.Lexer
import OnePass.Report

/-!
# Compilation

From the bytes of a source to a tree and an image, or to a report. Faults of spelling are
reported all together and stop everything else; after that the first error ends the
compilation. An error of meaning in what was recognised before a fault of syntax comes
first, because it is met first.
-/

namespace OnePass

/-- The error that ended a compilation behind the lexer. -/
inductive CompileError where
  | syntactic (e : Located SyntaxError)
  | semantic (e : Located SemanticError)
  deriving DecidableEq, Repr

/-- An error in words. -/
def CompileError.diagnostic : CompileError → Diagnostic
  | .syntactic e => ⟨.syntactic, e.value.message, e.span⟩
  | .semantic e => ⟨.semantic, e.value.message, e.span⟩

/-- A fault of spelling in words. -/
def lexicalDiagnostic (e : Located LexicalError) : Diagnostic :=
  ⟨.lexical, e.value.message, e.span⟩

/-- What a successful compilation produces. -/
structure Compilation where
  /-- the program -/
  tree : Program
  /-- what it is compiled to -/
  image : Image

/-- Compiles tokens of a text that starts at `start`. -/
def compileTokensFrom (start : Span) (legacy : Bool) (tokens : List (Located Token)) :
    Except CompileError Compilation :=
  let parsed := parse start tokens
  match generateFrom start legacy parsed.constructs.toList, parsed.result with
  | .error e, _ => .error (.semantic e)
  | .ok _, .error e => .error (.syntactic e)
  | .ok g, .ok tree => .ok ⟨tree, g.finish⟩

/-- Compiles the tokens of a source, which starts at its first character. -/
def compileTokens (legacy : Bool) (tokens : List (Located Token)) :
    Except CompileError Compilation :=
  compileTokensFrom Reader.start legacy tokens

/-- Compiles the bytes of a source of a given name. -/
def compile (name : String) (legacy : Bool) (source : List UInt8) :
    Except Report Compilation :=
  let lines := Line.ofBytes source
  match tokenize (readings source) with
  | .error es => .error ⟨name, lines, es.map lexicalDiagnostic⟩
  | .ok tokens =>
    match compileTokens legacy tokens with
    | .error e => .error ⟨name, lines, [e.diagnostic]⟩
    | .ok c => .ok c

end OnePass
