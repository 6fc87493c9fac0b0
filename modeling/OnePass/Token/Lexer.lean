import OnePass.Token
import OnePass.Text.Source
import OnePass.Text.Blank

/-!
# From readings to tokens

The lexer is an automaton fed with one reading at a time. Its state holds what has been
seen of the token in progress; a character either belongs to that token, completes it,
stands behind it and begins the next one, or is a fault. A fault is reported where it is
met, and the rest of its line is skipped. Nothing is lost to lookahead: a character that
ends a token is looked at again from the fresh state, where it never waits twice.

`lexemes` is everything the lexer produces, tokens and faults in order; `tokenize` keeps
the tokens if there is no fault and the faults otherwise.
-/

namespace OnePass

/-- Why a piece of a source text is no token. -/
inductive LexicalError where
  /-- a line is not readable -/
  | unreadable
  /-- no token starts with this character -/
  | badChar (c : Char)
  /-- only this character could stand here -/
  | expected (c : Char)
  /-- the literal exceeds the machine word -/
  | intOverflow
  /-- a back slash before a character that has no escape -/
  | badEscape (c : Char)
  /-- nothing between two single quotes -/
  | emptyChar
  /-- the line ends inside a string -/
  | unterminatedString
  /-- the text ends inside a block comment -/
  | unterminatedComment
  deriving DecidableEq, Repr

/-- The wording of a lexical error. -/
def LexicalError.message : LexicalError → String
  | .unreadable => "I/O error"
  | .badChar c => "Bad character " ++ Text.quotedChar c ++ " in input stream"
  | .expected c => "Expected " ++ Text.quotedChar c
  | .intOverflow => "Integer literal overflow, valid range is [0, 2147483647]"
  | .badEscape c => "Unknown escape sequence " ++ Token.ticked (String.ofList ['\\', c])
  | .emptyChar => "Empty character constant"
  | .unterminatedString => "Unterminated string literal"
  | .unterminatedComment => "Unterminated block comment"

/-- A token, or a fault, where it was met. -/
abbrev Lexeme := Except (Located LexicalError) (Located Token)

namespace Lexer

/-- What has been seen of the token in progress. A field `seen` is the region from the
start of the token to the end of its last character so far; text read so far is kept in
reverse. -/
inductive State where
  /-- between tokens -/
  | fresh
  /-- behind a fault, up to the end of the line -/
  | skipping
  /-- an operator that one more character may extend -/
  | operator (t : Token) (seen : Span)
  /-- a slash: division, compound division or the start of a comment -/
  | slash (seen : Span)
  /-- an exclamation mark, valid only before `=` -/
  | bang (seen : Span)
  /-- a colon, alone or the start of a choosing operator -/
  | colon (seen : Span)
  /-- a choosing operator lacking its last colon -/
  | bound (op : BoundOp) (seen : Span)
  /-- a comment up to the end of the line -/
  | lineComment
  /-- a block comment nested `depth` deep, a number of 32 bits, behind the slash or star `last` if
  that may still open or close a level -/
  | comment (depth : UInt32) (last : Option Char)
  /-- digits -/
  | integer (value : Nat) (seen : Span)
  /-- a word -/
  | word (text : List Char) (seen : Span)
  /-- behind an opening single quote -/
  | charOpen (seen : Span)
  /-- behind a back slash that follows it -/
  | charEscape (seen : Span)
  /-- behind the character of a literal, before its closing quote -/
  | charClose (c : Char) (seen : Span)
  /-- inside a string -/
  | string (text : List Char) (seen : Span)
  /-- behind a back slash in a string -/
  | stringEscape (text : List Char) (seen : Span)
  deriving DecidableEq, Repr

/-- What a character does to the lexer. -/
inductive Move where
  /-- it belongs to what is in progress -/
  | into (s : State)
  /-- it completes a token -/
  | complete (t : Token) (span : Span)
  /-- it stands behind a completed token and is still to be looked at -/
  | behind (t : Token) (span : Span)
  /-- it is a fault -/
  | fault (e : LexicalError)
  deriving DecidableEq, Repr

/-- Whether a character may start a word. -/
def isWordStart (c : Char) : Bool := c.isAlpha || c == '_'

/-- Whether a character may continue a word. -/
def isWordChar (c : Char) : Bool := c.isAlphanum || c == '_'

/-- The character that a back slash before `c` stands for. -/
def escape? (c : Char) : Option Char :=
  if c = 'n' then some '\n'
  else if c = 't' then some '\t'
  else if c = '0' then some '\x00'
  else if c = '\\' || c = '\'' || c = '"' then some c
  else none

/-- The token that a complete word spells. -/
def wordToken (text : List Char) : Token :=
  let s := String.ofList text.reverse
  if s = "true" then .bool true
  else if s = "false" then .bool false
  else match Keyword.ofSpelling? s with
    | some k => .keyword k
    | none => .ident s

/-- The tokens of one character that nothing can extend. -/
def single? : Char → Option Token
  | ',' => some .comma
  | ';' => some .semicolon
  | '(' => some .openParen
  | ')' => some .closeParen
  | '[' => some .openSquare
  | ']' => some .closeSquare
  | '\x7b' => some .openCurly
  | '\x7d' => some .closeCurly
  | '%' => some .percent
  | '?' => some .question
  | _ => none

/-- The operators of one character that a second one may extend. -/
def operator? : Char → Option Token
  | '+' => some .plus
  | '-' => some .minus
  | '*' => some .times
  | '=' => some (.assign .set)
  | '<' => some (.relation .lt)
  | '>' => some (.relation .gt)
  | _ => none

/-- The operator that `c` makes of an operator before it. -/
def extend? (t : Token) (c : Char) : Option Token :=
  match t, c with
  | .plus, '+' => some (.step .up)
  | .plus, '=' => some (.assign .add)
  | .minus, '-' => some (.step .down)
  | .minus, '=' => some (.assign .sub)
  | .times, '=' => some (.assign .mul)
  | .assign .set, '=' => some (.relation .eq)
  | .relation .lt, '=' => some (.relation .le)
  | .relation .gt, '=' => some (.relation .ge)
  | _, _ => none

/-- What the character `c` at `here` does between tokens. -/
def begin (c : Char) (here : Span) : Move :=
  match single? c, operator? c, Text.digit? c with
  | some t, _, _ => .complete t here
  | none, some t, _ => .into (.operator t here)
  | none, none, some d => .into (.integer d here)
  | none, none, none =>
    if c = '/' then .into (.slash here)
    else if c = '!' then .into (.bang here)
    else if c = ':' then .into (.colon here)
    else if c = '\'' then .into (.charOpen here)
    else if c = '"' then .into (.string [] here)
    else if isWordStart c then .into (.word [c] here)
    else if Text.isBlank c then .into .fresh
    else .fault (.badChar c)

/-- What the character `c` does to a block comment. Slashes and stars pair up from left
to right, and none is used twice. -/
def commentMove (depth : UInt32) (last : Option Char) (c : Char) : Move :=
  if last = some '/' && c = '*' then .into (.comment (depth + 1) none)
  else if last = some '*' && c = '/' then
    if depth = 1 then .into .fresh else .into (.comment (depth - 1) none)
  else if c = '/' || c = '*' then .into (.comment depth (some c))
  else .into (.comment depth none)

/-- What the character `c` at `here` does to the lexer. -/
def move (s : State) (c : Char) (here : Span) : Move :=
  match s with
  | .fresh => begin c here
  | .skipping => if c = '\n' then .into .fresh else .into .skipping
  | .operator t seen =>
    match extend? t c with
    | some longer => .complete longer (seen.upTo here)
    | none => .behind t seen
  | .slash seen =>
    if c = '/' then .into .lineComment
    else if c = '*' then .into (.comment 1 none)
    else if c = '=' then .complete (.assign .div) (seen.upTo here)
    else .behind .divide seen
  | .bang seen =>
    if c = '=' then .complete (.relation .ne) (seen.upTo here) else .fault (.expected '=')
  | .colon seen =>
    if c = '>' then .into (.bound .max (seen.upTo here))
    else if c = '<' then .into (.bound .min (seen.upTo here))
    else .behind .colon seen
  | .bound op seen =>
    if c = ':' then .complete (.bound op) (seen.upTo here) else .fault (.expected ':')
  | .lineComment => if c = '\n' then .into .fresh else .into .lineComment
  | .comment depth last => commentMove depth last c
  | .integer n seen =>
    match Text.digit? c with
    | some d =>
      if n * 10 + d ≤ 2147483647 then .into (.integer (n * 10 + d) (seen.upTo here))
      else .fault .intOverflow
    | none => .behind (.int (Int32.ofNat n)) seen
  | .word text seen =>
    if isWordChar c then .into (.word (c :: text) (seen.upTo here))
    else .behind (wordToken text) seen
  | .charOpen seen =>
    if c = '\\' then .into (.charEscape (seen.upTo here))
    else if c = '\'' then .fault .emptyChar
    else if c = '\n' then .fault (.expected '\'')
    else .into (.charClose c (seen.upTo here))
  | .charEscape seen =>
    match escape? c with
    | some e => .into (.charClose e (seen.upTo here))
    | none => .fault (.badEscape c)
  | .charClose v seen =>
    if c = '\'' then .complete (.char v) (seen.upTo here) else .fault (.expected '\'')
  | .string text seen =>
    if c = '"' then .complete (.str (String.ofList text.reverse)) (seen.upTo here)
    else if c = '\\' then .into (.stringEscape text (seen.upTo here))
    else if c = '\n' then .fault .unterminatedString
    else .into (.string (c :: text) (seen.upTo here))
  | .stringEscape text seen =>
    match escape? c with
    | some e => .into (.string (e :: text) (seen.upTo here))
    | none => .fault (.badEscape c)

/-- The state behind a fault at `c`: a fault at the end of a line has nothing to skip. -/
def recover (c : Char) : State := if c = '\n' then .fresh else .skipping

/-- Carries out a move that does not stand behind a token. -/
def settle (m : Move) (c : Char) (here : Span) : List Lexeme × State :=
  match m with
  | .into s => ([], s)
  | .complete t span => ([.ok ⟨t, span⟩], .fresh)
  | .behind t span => ([.ok ⟨t, span⟩], .fresh)
  | .fault e => ([.error ⟨e, here⟩], recover c)

/-- Feeds the character `c` at `here` to the lexer. -/
def feed (s : State) (c : Char) (here : Span) : List Lexeme × State :=
  match move s c here with
  | .behind t span =>
    let (rest, s') := settle (begin c here) c here
    (.ok ⟨t, span⟩ :: rest, s')
  | m => settle m c here

/-- What the end of the text, at `here`, makes of what is in progress. -/
def finish (s : State) (here : Span) : List Lexeme :=
  match s with
  | .fresh | .skipping | .lineComment => []
  | .operator t seen => [.ok ⟨t, seen⟩]
  | .slash seen => [.ok ⟨.divide, seen⟩]
  | .colon seen => [.ok ⟨.colon, seen⟩]
  | .integer n seen => [.ok ⟨.int (Int32.ofNat n), seen⟩]
  | .word text seen => [.ok ⟨wordToken text, seen⟩]
  | .bang _ => [.error ⟨.expected '=', here⟩]
  | .bound _ _ => [.error ⟨.expected ':', here⟩]
  | .comment _ _ => [.error ⟨.unterminatedComment, here⟩]
  | .charOpen _ | .charEscape _ | .charClose _ _ => [.error ⟨.expected '\'', here⟩]
  | .string _ _ | .stringEscape _ _ => [.error ⟨.unterminatedString, here⟩]

/-- All that the lexer makes of readings, from a state and with the next character
standing at `here`. An unreadable line is a fault at `here` and moves nothing. -/
def run (s : State) (here : Span) : List Reading → List Lexeme
  | [] => finish s here
  | .unreadable :: rest => .error ⟨.unreadable, here⟩ :: run .skipping here rest
  | .char c next :: rest =>
    let (out, s') := feed s c here
    out ++ run s' next rest

end Lexer

/-- All tokens and faults of a source text in order. -/
def lexemes (rs : List Reading) : List Lexeme := Lexer.run .fresh Reader.start rs

/-- The faults among lexemes. -/
def faults (ls : List Lexeme) : List (Located LexicalError) :=
  ls.filterMap fun
    | .error e => some e
    | .ok _ => none

/-- The tokens among lexemes. -/
def tokensOf (ls : List Lexeme) : List (Located Token) :=
  ls.filterMap fun
    | .ok t => some t
    | .error _ => none

/-- The tokens of a source text, or all of its faults if it has any. -/
def tokenize (rs : List Reading) : Except (List (Located LexicalError)) (List (Located Token)) :=
  match faults (lexemes rs) with
  | [] => .ok (tokensOf (lexemes rs))
  | es => .error es

end OnePass
