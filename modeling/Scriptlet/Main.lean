import Scriptlet.Command.Basic

/-!
The program. It takes a picture of the files that its arguments name, runs the command on it, and puts
what the command leaves on the standard streams and back into the files. No formatting tool is started
from here, and the picture is of a disk and a standard output that take everything.
-/

namespace Scriptlet.Main

/-- The text as a string; bytes that are not UTF-8 have none. -/
def stringOf (s : Bytes) : String := (String.fromUTF8? ⟨s.toArray⟩).getD ""

def toBytes (a : ByteArray) : Bytes := a.data.toList

/-- The path from the root that a path text leads to from a directory. -/
def pathFrom (directory name : Bytes) : Path :=
  let start := if name.head? = some Ascii.slash then [name] else [directory, name]
  (Bytes.splitAt Ascii.slash (PathText.joinClean start)).filter (!·.isEmpty)

def diskName (path : Path) : String := stringOf (Ascii.slash :: PathText.join path)

/-- The picture with the entry under a path added to it, if there is one. -/
def take (files : FileTree) (path : Path) : IO FileTree := do
  let there := (← IO.currentDir) / diskName path
  if (files.get? path).isSome then return files
  else if ← there.isDir then return files.insert path .directory
  else if ← there.pathExists then
    return files.insert path (.file (toBytes (← IO.FS.readBinFile there)))
  else return files

/-- The texts in an argument that may name a file: the argument, and what stands behind an equals sign. -/
def namesIn (arg : String) : List Bytes :=
  let value := (text arg).dropWhile (· != Ascii.equals)
  if value.isEmpty then [text arg] else [text arg, value.tail]

def bareTree (directory input : Bytes) : FileTree :=
  let bare : FileTree := { FileTree.empty with workingDirectory := pathFrom directory [] }
  (FileTree.devices input).foldl (fun t d => t.place d.1 (.device d.2)) bare

/-- A picture of the files under path texts, and of the directories that lead to them. -/
def picture (directory input : Bytes) (names : List Bytes) : IO FileTree :=
  let paths := pathFrom directory [] :: names.map (pathFrom directory)
  let parts := paths.flatMap fun path => (List.range path.length).map fun i => path.take (i + 1)
  parts.foldlM take (bareTree directory input)

/-- Whether one of the path texts leads to standard input. -/
def namesInput (directory : Bytes) (names : List Bytes) : Bool :=
  names.any fun name => (FileTree.devices []).contains (pathFrom directory name, .input [])

def putBack (before after : FileTree) : IO Unit :=
  after.entries.forM fun (path, entry) => do
    match entry with
    | .file content =>
      if before.get? path != some entry then IO.FS.writeBinFile (diskName path) ⟨content.toArray⟩
    | _ => pure ()

partial def readAll (stream : IO.FS.Stream) (sofar : ByteArray) : IO ByteArray := do
  let more ← stream.read 65536
  if more.isEmpty then return sofar else readAll stream (sofar ++ more)

end Scriptlet.Main

open Scriptlet in
/-- Runs the command that the arguments name. -/
def main (args : List String) : IO UInt32 := do
  let directory := text (← IO.currentDir).toString
  let home := text ((← IO.getEnv "HOME").getD "")
  let names := Command.historyPath home :: args.flatMap Main.namesIn
  let takesInput := args.head? = some "repl" || Main.namesInput directory names
  let input ← if takesInput then Main.readAll (← IO.getStdin) .empty else pure .empty
  let files ← Main.picture directory (Main.toBytes input) names
  let outcome := Command.run ⟨files, home, Main.toBytes input, none, none⟩ (args.map text)
  (← IO.getStdout).write ⟨outcome.stdout.toArray⟩
  (← IO.getStderr).write ⟨outcome.stderr.toArray⟩
  Main.putBack files outcome.files
  return outcome.status.toUInt32
