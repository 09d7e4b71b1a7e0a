import Scriptlet.Program.Read
import Scriptlet.Program.Render
import Scriptlet.Text.Quoted
import Scriptlet.Token.Scan

/-!
The way from source to script text: tokens, then a program, then text. Each stage that finishes can be told
in one line.

What can go wrong, on this way and elsewhere, is a cause with its data, and the wording of each is one function
here. A failure may be put into a context, which goes in front of its message and changes nothing else.
-/

namespace Scriptlet

/-! ### Failures -/

/-- A program was used in a way that has no result. -/
inductive Misuse where
  /-- A program with a missing term was rendered. -/
  | missingTerm
  /-- A store that was opened from a file without entries was updated. -/
  | sealedStore
  deriving DecidableEq, Repr

def Misuse.message : Misuse → Bytes
  | missingTerm => text "unexpected term: <nil>"
  | sealedStore => text "assignment to entry in nil map"

/-- The text of a program in which no term is missing. -/
def Program.generate (program : Program) : Except Misuse Bytes :=
  if program.isComplete then .ok program.render else .error .missingTerm

def TokenizeError.message (e : TokenizeError) : Bytes :=
  text "couldn't match token on " ++ quoted e.remainder

namespace ParseErrorKind

def ofInt : Int → ParseErrorKind
  | 0 => unexpectedLookahead
  | 1 => unexpectedToken
  | 2 => invalidInteger
  | n => other n

def name : ParseErrorKind → Bytes
  | unexpectedLookahead => text "unexpected lookahead"
  | unexpectedToken => text "unexpected token"
  | invalidInteger => text "invalid integer"
  | other number => text "ParseErrorKind(" ++ Decimal.ofInt number ++ text ")"

end ParseErrorKind

/-- A token in messages: its kind, and its value if it has one. -/
def Token.describe (token : Token) : Bytes :=
  if token.kind = .endOfInput ∨ token.value = [] then token.kind.name
  else token.kind.name ++ text " " ++ quoted token.value

def ParseError.message (e : ParseError) : Bytes :=
  match e.kind with
  | .unexpectedToken => text "expected token " ++ e.expected.name ++ text " but got " ++ e.found.describe
  | .invalidInteger => text "invalid integer literal " ++ quoted e.found.value
  | _ => text "unable to parse expression at " ++ e.found.describe

/-- Why a source has no program. -/
inductive SourceError where
  | tokenize (e : TokenizeError)
  | parse (e : ParseError)
  deriving DecidableEq, Repr

namespace SourceError

def message : SourceError → Bytes
  | tokenize e => e.message
  | parse e => e.message

/-- Whether more source could mend the error. -/
def isIncomplete : SourceError → Bool
  | tokenize _ => false
  | parse e => e.isIncomplete

end SourceError

inductive Failure where
  | source (e : SourceError)
  /-- The formatting tool failed: what it said, and how it ended. -/
  | format (output cause : Bytes)
  /-- The checking tool refused the text: what it said. -/
  | badSyntax (tool output : Bytes)
  | plain (message : Bytes)
  | context (label : Bytes) (inner : Failure)
  deriving DecidableEq, Repr

namespace Failure

def message : Failure → Bytes
  | source e => e.message
  | format output cause => text "prettier error: " ++ (if output = [] then cause else output)
  | badSyntax tool output => tool ++ text " syntax error: " ++ output
  | plain message => message
  | context label inner => label ++ text ": " ++ inner.message

/-- The failure without its contexts. -/
def cause : Failure → Failure
  | context _ inner => inner.cause
  | failure => failure

/-- Whether more source could mend the failure. -/
def isIncomplete (failure : Failure) : Bool :=
  match failure.cause with
  | source e => e.isIncomplete
  | _ => false

end Failure

/-! ### Stages -/

def readProgram (source : Bytes) : Except SourceError Program :=
  match tokenize source with
  | .error e => .error (.tokenize e)
  | .ok tokens =>
    match parse tokens with
    | .error e => .error (.parse e)
    | .ok program => .ok program

theorem readProgram_eq_ok_iff {source : Bytes} {p : Program} :
    readProgram source = .ok p ↔ ∃ tokens, tokenize source = .ok tokens ∧ parse tokens = .ok p := by
  rw [readProgram]
  cases tokenize source with
  | error e => simp
  | ok tokens => cases hparse : parse tokens <;> simp [hparse]

def translate (source : Bytes) : Except SourceError Bytes := (readProgram source).map Program.render

/-- A finished stage, with the size of its result. -/
inductive Stage where
  | tokenized (tokens : Nat)
  | parsed (nodes : Nat)
  | generated (bytes : Nat)
  deriving DecidableEq, Repr

def Stage.message : Stage → Bytes
  | tokenized tokens => text "tokenized " ++ Decimal.ofNat tokens ++ text " tokens"
  | parsed nodes => text "parsed " ++ Decimal.ofNat nodes ++ text " top-level nodes"
  | generated bytes => text "generated " ++ Decimal.ofNat bytes ++ text " bytes"

/-- The stages that finish when a source is translated. -/
def translateStages (source : Bytes) : List Stage :=
  match tokenize source with
  | .error _ => []
  | .ok tokens =>
    .tokenized tokens.length ::
      match parse tokens with
      | .error _ => []
      | .ok program => [.parsed program.length, .generated program.render.length]

end Scriptlet
