import Scriptlet.Command.Flags
import Scriptlet.Command.Repl
import Scriptlet.FileTree.Access
import Scriptlet.Outline
import Scriptlet.Tool

/-!
The command line. A command is a function from its arguments and the world it finds (files, the standard
streams, the formatting tool) to what it leaves: an exit status, what it wrote to the standard streams, and
the files. The commands write to standard output or to a file only after everything has gone well.

A file that was opened may still refuse the text, and then the command fails with a front of it in the file.
Standard output may refuse a text too, but of that the commands take no notice: they end as if it had all been
taken. Standard error is taken to take everything, and a tool to find its temporary file with the text in it. A
program that is ended from outside has no outcome.
-/

namespace Scriptlet.Command

/-- The world that a command finds. -/
structure World where
  files : FileTree
  /-- The path text of the home directory. -/
  home : Bytes
  input : Bytes
  formatter : Option Tool
  /-- How many bytes standard output takes, if not all. -/
  outputRoom : Option Nat

/-- What standard output takes of a text. -/
def World.shown (world : World) (s : Bytes) : Bytes :=
  match world.outputRoom with
  | none => s
  | some room => s.take room

structure Outcome where
  status : Nat
  stdout : Bytes
  stderr : Bytes
  files : FileTree

def logLine (message : Bytes) : Bytes := text "rbjs: " ++ Bytes.endLine message

def usage : Bytes := text "usage: rbjs <translate|outline|repl> [flags] [file.rb]"

def sourceMessage : SourceError → Bytes
  | .tokenize e => text "tokenize error: no token matches " ++ quoted (Bytes.firstLine e.remainder)
  | .parse e => text "parse error (" ++ e.kind.name ++ text "): " ++ e.message

/-- A command that left the files as they were and only logged. -/
def failed (world : World) (status : Nat) (stderr : Bytes) : Outcome := ⟨status, [], stderr, world.files⟩

/-- A command that did not accept its flags. -/
def refused (world : World) (e : FlagError) (usage : Bytes) : Outcome :=
  failed world 2 ((e.message?.map (· ++ [Ascii.newline])).getD [] ++ usage)

def translateFlags : List (Bytes × FlagKind) :=
  [(text "format", .switch), (text "o", .setting), (text "v", .switch)]

def translateUsage : Bytes :=
  text "Usage of translate:\n" ++
  text "  -format\n    \tpretty-print the output with prettier\n" ++
  text "  -o file\n    \twrite the output to file instead of stdout\n" ++
  text "  -v\tlog pipeline stages\n"

def outlineUsage : Bytes := text "Usage of outline:\n"

/-- The log of the stages in which a source is translated, if it is asked for. -/
def stageLog (verbose : Bool) (source : Bytes) : Bytes :=
  if verbose then (translateStages source).flatMap fun stage => logLine stage.message else []

/-- The message for a file that cannot be read as a source. A file that was opened is named twice. -/
def unreadable (e : PathError) : Bytes :=
  match e.access with
  | .read => e.path ++ text ": " ++ e.message
  | _ => e.message

def formatMessage : FormatError → Bytes
  | .failed output _ => text "format error: " ++ output
  | .vanished => text "no such file or directory"

/-- The text to put out for script text, formatted if that is asked for. -/
def finish (world : World) (format : Bool) (js : Bytes) : Except FormatError Bytes :=
  if format then
    (Formatter.standard.format world.files world.formatter false js).map (· ++ [Ascii.newline])
  else .ok js

/-- What is logged about a write. -/
def complaint : Option PathError → Bytes
  | none => []
  | some e => logLine e.message

/-- Puts a text out: to a file if one is named, else to standard output. The file may be the device of a
standard stream. -/
def putOut (world : World) (target log out : Bytes) : Outcome :=
  if target = [] then ⟨0, world.shown out, log, world.files⟩
  else
    let written := world.files.write target out
    let status := if written.failure.isSome then 1 else 0
    let said := complaint written.failure
    match world.files.device? target with
    | some .output => ⟨status, written.taken, log ++ said, written.files⟩
    | some .errors => ⟨status, [], log ++ written.taken ++ said, written.files⟩
    | _ => ⟨status, [], log ++ said, written.files⟩

def translateFile (world : World) (flags : List (Bytes × FlagValue)) (file : Bytes) : Outcome :=
  match world.files.read file with
  | .error e => failed world 1 (logLine (unreadable e))
  | .ok source =>
    let log := stageLog (Flags.isOn flags (text "v")) source
    match translate source with
    | .error e => failed world 1 (log ++ logLine (sourceMessage e))
    | .ok js =>
      match finish world (Flags.isOn flags (text "format")) js with
      | .error e => failed world 1 (log ++ logLine (formatMessage e))
      | .ok out => putOut world (Flags.valueOf flags (text "o")) log out

def translateCommand (world : World) (args : List Bytes) : Outcome :=
  match Flags.parse translateFlags args with
  | .error e => refused world e translateUsage
  | .ok (flags, [file]) => translateFile world flags file
  | .ok _ => failed world 2 (logLine (text "translate: expected exactly one source file"))

def outlineFile (world : World) (file : Bytes) : Outcome :=
  match world.files.read file with
  | .error e => failed world 1 (logLine e.message)
  | .ok source =>
    match readProgram source with
    | .error e => failed world 1 (logLine (sourceMessage e))
    | .ok program => ⟨0, world.shown (program.outline.render ++ text "\n"), [], world.files⟩

def outlineCommand (world : World) (args : List Bytes) : Outcome :=
  match Flags.parse [] args with
  | .error e => refused world e outlineUsage
  | .ok (_, [file]) => outlineFile world file
  | .ok _ => failed world 2 (logLine (text "outline: expected exactly one source file"))

def banner : Bytes := text "rbjs REPL. Ctrl+D or :quit exits.\n"

/-- The file that the history is kept in, in the home directory. -/
def historyPath (home : Bytes) : Bytes := PathText.joinClean [home, text ".rbjs_history"]

def eventOutput : Repl.Event → Bytes
  | .prompt false => text "rb> "
  | .prompt true => text "... "
  | .script js => js
  | .failure _ => []

def eventLog : Repl.Event → Bytes
  | .failure e => logLine (sourceMessage e)
  | _ => []

def endingOutput : Repl.Ending → Bytes
  | .quit => []
  | .endOfInput _ => text "\n"

/-- The command `repl`. A history that cannot be read is empty. One that cannot be written is dropped, and as much
of it as was taken is kept. -/
def replCommand (world : World) : Outcome :=
  let history :=
    match world.files.read (historyPath world.home) with
    | .ok content => History.decode content
    | .error _ => []
  let session := Repl.run history [] ((InputLine.split world.input).map (·.bytes))
  let written := world.files.write (historyPath world.home) (History.encode session.history)
  ⟨0, world.shown (banner ++ session.events.flatMap eventOutput ++ endingOutput session.ending),
    session.events.flatMap eventLog, written.files⟩

def run (world : World) : List Bytes → Outcome
  | [] => failed world 1 (logLine usage)
  | name :: args =>
    if name = text "translate" then translateCommand world args
    else if name = text "outline" then outlineCommand world args
    else if name = text "repl" then replCommand world
    else failed world 2 (logLine usage)

end Scriptlet.Command
