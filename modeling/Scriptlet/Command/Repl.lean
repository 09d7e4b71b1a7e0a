import Scriptlet.Translate

/-!
The interactive session. Lines are collected until they are no truncated program any more; such a chunk is
translated on its own, and its script text or its error is shown. Blank chunks are skipped. The session
ends when the input ends, which drops lines still waiting for more, or when it is told to quit.

The lines are those that a reader with a bounded buffer hands out, and the chunks are kept as a history from one
session to the next.
-/

namespace Scriptlet

/-! ### Lines of input

A line ends at a newline, with a carriage return before it or not. A line that does not fit the buffer comes in
pieces, and a carriage return at the end of a piece is left for the next one, since a newline may follow it.
-/

/-- A line of input, or a piece of one. -/
structure InputLine where
  bytes : Bytes
  /-- The line goes on: it did not fit the buffer. -/
  isPiece : Bool
  deriving DecidableEq, Repr

namespace InputLine

def bufferSize : Nat := 4096

/-- A line that is given backwards, without a carriage return at its end. -/
def endedLine (line : Bytes) : Bytes :=
  (if line.head? = some Ascii.carriageReturn then line.tail else line).reverse

/-- The lines of an input behind a line that has been begun: its bytes so far, the latest first, and the room
that the buffer has left. -/
def splitFrom (line : Bytes) (room : Nat) : Bytes → List InputLine
  | [] => if line.isEmpty then [] else [⟨line.reverse, false⟩]
  | b :: rest =>
    if b = Ascii.newline then ⟨endedLine line, false⟩ :: splitFrom [] bufferSize rest
    else if 1 < room then splitFrom (b :: line) (room - 1) rest
    else if b = Ascii.carriageReturn then ⟨line.reverse, true⟩ :: splitFrom [b] (bufferSize - 1) rest
    else ⟨(b :: line).reverse, true⟩ :: splitFrom [] bufferSize rest

def split (s : Bytes) : List InputLine := splitFrom [] bufferSize s

end InputLine

/-! ### The history

Its entries, the latest first. It is kept in a file, one entry a line and the latest last, of which only a fixed
number is kept. The file is read up to the first line that is too long or not text.
-/

namespace History

def limit : Nat := 1000

/-- The entries with another one in front of them, unless it repeats the latest. -/
def add (entries : List Bytes) (entry : Bytes) : List Bytes :=
  if entries.head? = some entry then entries else entry :: entries

def decode (content : Bytes) : List Bytes :=
  let usable := (InputLine.split content).takeWhile fun line => !line.isPiece && Bytes.isUtf8 line.bytes
  (usable.map (·.bytes)).reverse

def encode (entries : List Bytes) : Bytes :=
  (entries.take limit).reverse.flatMap (· ++ [Ascii.newline])

end History

/-! ### The session -/

namespace Repl

inductive Event where
  /-- It asks for a line: the first one of a chunk, or one more. -/
  | prompt (isContinuation : Bool)
  | script (js : Bytes)
  | failure (e : SourceError)
  deriving DecidableEq, Repr

inductive Ending where
  | quit
  /-- The input ended while these lines were waiting for more. -/
  | endOfInput (pending : Bytes)
  deriving DecidableEq, Repr

/-- A session: what it showed in order, the history afterwards, and how it ended. -/
structure Session where
  events : List Event
  history : List Bytes
  ending : Ending

def quitWord : Bytes := text ":quit"

/-- Whether a chunk that was translated so needs more lines. -/
def needsMore : Except SourceError Bytes → Bool
  | .ok _ => false
  | .error e => e.isIncomplete

/-- A chunk without blanks around it as an entry of the history: one line. -/
def historyEntry (trimmed : Bytes) : Bytes :=
  trimmed.map fun b => if b = Ascii.newline then Ascii.space else b

def respond : Except SourceError Bytes → Event
  | .ok js => .script js
  | .error e => .failure e

def Session.after (events : List Event) (s : Session) : Session := { s with events := events ++ s.events }

/-- Runs a session on lines; `pending` are the lines of the chunk being collected. -/
def run (history : List Bytes) (pending : Bytes) : List Bytes → Session
  | [] => ⟨[.prompt (!pending.isEmpty)], history, .endOfInput pending⟩
  | line :: lines =>
    let chunk := pending ++ line ++ [Ascii.newline]
    let trimmed := Bytes.trim chunk
    let result := translate chunk
    let asked := Event.prompt (!pending.isEmpty)
    if trimmed = quitWord then ⟨[asked], history, .quit⟩
    else if needsMore result then (run history chunk lines).after [asked]
    else if trimmed = [] then (run history [] lines).after [asked]
    else (run (History.add history (historyEntry trimmed)) [] lines).after [asked, respond result]

end Repl

end Scriptlet
