import Scriptlet.FileTree.Access
import Scriptlet.Translate

/-!
Tools that work on a file. A tool is told by what it does to the file it is given: the text it says, how
it changes the file, and how it ends. A command is the name of a tool, or with a slash in it the path of a
file to be run, and none of the files of a tree can be. What cannot be found or run, or was called off, does
not start. Two uses are made of tools: to format script text, and to check the syntax of a text.
-/

namespace Scriptlet

/-- What a tool does when it is run on a file, in the order of the fields. -/
structure Tool where
  /-- Says its arguments, the ending of the file's name and the content of the file. -/
  report : Bool
  output : Bytes
  rewrites : Option Bytes
  appends : Bytes
  deletes : Bool
  isKilled : Bool
  status : Nat

/-- Why a tool did not end well. -/
inductive ToolError where
  /-- The command is empty. -/
  | unnamed
  /-- No tool has the name. -/
  | unknown (name : Bytes)
  /-- The command is the root. -/
  | root (name : Bytes)
  /-- The command is a path, and what it leads to cannot be run. -/
  | refused (path : Bytes) (fault : Fault)
  | cancelled
  | killed
  | exited (status : Nat)
  deriving DecidableEq, Repr

namespace ToolError

def message : ToolError → Bytes
  | unnamed => text "exec: no command"
  | unknown name => text "exec: " ++ quoted name ++ text ": executable file not found in $PATH"
  | root name => text "exec: " ++ quoted name ++ text ": " ++ Fault.isDirectory.message
  | refused path fault => text "fork/exec " ++ path ++ text ": " ++ fault.message
  | cancelled => text "context canceled"
  | killed => text "signal: killed"
  | exited status => text "exit status " ++ Decimal.ofNat status

def wasStarted : ToolError → Bool
  | killed => true
  | exited _ => true
  | _ => false

def isMissingFile : ToolError → Bool
  | refused _ .notFound => true
  | _ => false

end ToolError

/-- How a run ended: what the tool said, the content of its file unless it deleted it, and the error if it
did not end well. -/
structure ToolRun where
  output : Bytes
  file : Option Bytes
  error : Option ToolError

namespace Tool

def reportText (args : List Bytes) (ending content : Bytes) : Bytes :=
  (args ++ [ending]).flatMap (· ++ text "\n") ++ content

def run (tool : Tool) (args : List Bytes) (ending content : Bytes) : ToolRun where
  output := (if tool.report then reportText args ending content else []) ++ tool.output
  file := if tool.deletes then none else some (tool.rewrites.getD content ++ tool.appends)
  error :=
    if tool.isKilled then some .killed
    else if tool.status = 0 then none
    else some (.exited tool.status)

/-- What a command leads to, given the tool of that name: the tool, or nothing if the command is a path. -/
def find (tool : Option Tool) (command : Bytes) : Except ToolError (Option Tool) :=
  if command = [] then .error .unnamed
  else if command = [Ascii.slash] then .error (.root command)
  else if command.contains Ascii.slash then .ok none
  else match tool with
    | some tool => .ok (some tool)
    | none => .error (.unknown command)

def isAvailable (tool : Option Tool) (command : Bytes) : Bool :=
  match find tool command with
  | .ok (some _) => true
  | _ => false

def pathFault (files : FileTree) (path : Bytes) (args : List Bytes) : Fault :=
  if args.any (·.contains 0) then .invalid
  else match files.find path with
    | .ok _ => .notPermitted
    | .error fault => fault

def notStarted (content : Bytes) (e : ToolError) : ToolRun := ⟨[], some content, some e⟩

/-- Runs what a command leads to on a file, unless the run was called off. -/
def start (files : FileTree) (tool : Option Tool) (command : Bytes) (isCancelled : Bool)
    (args : List Bytes) (ending content : Bytes) : ToolRun :=
  match find tool command with
  | .error e => notStarted content e
  | .ok found =>
    if isCancelled then notStarted content .cancelled
    else match found with
      | some tool => tool.run args ending content
      | none => notStarted content (.refused command (pathFault files command args))

end Tool

/-! ### Formatting

The tool rewrites a file in place.
-/

/-- A formatting tool: its name and the arguments before the file. -/
structure Formatter where
  command : Bytes
  args : List Bytes

/-- The formatter that is used unless another is given. -/
def Formatter.standard : Formatter := ⟨text "npx", [text "prettier", text "--write"]⟩

inductive FormatError where
  /-- The tool did not end well: what it said, and why. -/
  | failed (output : Bytes) (cause : ToolError)
  /-- The tool ended well, but its file is gone. -/
  | vanished
  deriving DecidableEq, Repr

/-- The text that the tool makes of a script text, without blanks around it. -/
def Formatter.format (f : Formatter) (files : FileTree) (tool : Option Tool) (isCancelled : Bool)
    (script : Bytes) : Except FormatError Bytes :=
  let run := Tool.start files tool f.command isCancelled f.args (text ".js") script
  match run.error, run.file with
  | some cause, _ => .error (.failed (Bytes.trim run.output) cause)
  | none, some content => .ok (Bytes.trim content)
  | none, none => .error .vanished

/-! ### Checking syntax

The tool is the interpreter of the language.
-/

inductive Language where
  | ruby
  | javaScript
  deriving DecidableEq, Repr

namespace Language

/-- The interpreter that is used unless another is given. -/
def interpreter : Language → Bytes
  | ruby => text "ruby"
  | javaScript => text "node"

def ending : Language → Bytes
  | ruby => text ".rb"
  | javaScript => text ".js"

/-- The arguments that make the interpreter check a file. -/
def checkArgs : Language → List Bytes
  | ruby => [text "-c"]
  | javaScript => [text "--check"]

end Language

inductive CheckError where
  /-- The tool refused the text: what it said. -/
  | rejected (tool output : Bytes)
  /-- The tool did not start. -/
  | notStarted (cause : ToolError)
  deriving DecidableEq, Repr

def CheckError.failure : CheckError → Failure
  | rejected tool output => .badSyntax tool output
  | notStarted cause => .plain cause.message

/-- What is wrong with a text, if anything. A tool that was started and did not end well has refused the
text. -/
def checkSyntax (language : Language) (files : FileTree) (tool : Option Tool) (command : Bytes)
    (isCancelled : Bool) (content : Bytes) : Option CheckError :=
  let run := Tool.start files tool command isCancelled language.checkArgs language.ending content
  match run.error with
  | none => none
  | some e =>
    if e.wasStarted then some (.rejected command (Bytes.trim run.output)) else some (.notStarted e)

end Scriptlet
