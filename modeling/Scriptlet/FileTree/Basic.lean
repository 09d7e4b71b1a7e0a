import Scriptlet.Text.Bytes

/-!
Files. A tree of files holds entries under paths of names, counted from the root, which is always there. No
path occurs twice. One directory of the tree is the working directory, from which path texts are read that
do not begin at the root. Besides files and directories there are devices, which keep nothing of what is
written to them.

A disk may be full, and it may fail. So a tree also has what comes of writing a content to an entry that was
opened for it: the content is taken as a whole, or the writing breaks off and only a front of it was taken.
Which of the two it is hangs on the entry and on the content, and nothing is assumed of how. Reading has no
such part: what is there can be read.
-/

namespace Scriptlet

/-- The names that lead from the root to an entry. -/
abbrev Path := List Bytes

/-- An entry that stands for something other than kept bytes. -/
inductive Device where
  /-- Gives nothing and takes everything. -/
  | null
  /-- Takes nothing. -/
  | full
  /-- Standard input, with what it gives. -/
  | input (content : Bytes)
  /-- Standard output. -/
  | output
  /-- Standard error. -/
  | errors
  deriving DecidableEq, Repr

def Device.content : Device → Bytes
  | .input content => content
  | _ => []

inductive Entry where
  | file (content : Bytes)
  | directory
  | device (device : Device)
  deriving DecidableEq, Repr

/-- Why an access is refused. -/
inductive Fault where
  | notFound
  | notDirectory
  | isDirectory
  | nameTooLong
  | invalid
  | notPermitted
  | noSpace
  | quotaExceeded
  | fileTooLarge
  | ioError
  deriving DecidableEq, Repr

def Fault.message : Fault → Bytes
  | notFound => text "no such file or directory"
  | notDirectory => text "not a directory"
  | isDirectory => text "is a directory"
  | nameTooLong => text "file name too long"
  | invalid => text "invalid argument"
  | notPermitted => text "permission denied"
  | noSpace => text "no space left on device"
  | quotaExceeded => text "disk quota exceeded"
  | fileTooLarge => text "file too large"
  | ioError => text "input/output error"

/-- The operation that was refused. A directory can be opened for reading, but not read, and a content that was
written may still be lost when the file is closed. -/
inductive Access where
  | open
  | read
  | write
  | close
  deriving DecidableEq, Repr

def Access.name : Access → Bytes
  | .open => text "open"
  | .read => text "read"
  | .write => text "write"
  | .close => text "close"

/-- How the writing of a content breaks off: after so many bytes, in this operation and for this reason. -/
structure Break where
  taken : Nat
  access : Access
  fault : Fault
  deriving DecidableEq, Repr

/-- What is taken of a content whose writing breaks off so, or does not. -/
def Break.front : Option Break → Bytes → Bytes
  | none, content => content
  | some stop, content => content.take stop.taken

/-- The entries of a root directory and of the directories in it, seen from a working directory. -/
structure FileTree where
  workingDirectory : Path
  entries : List (Path × Entry)
  nodup : (entries.map Prod.fst).Nodup
  /-- How the writing of a content to the opened entry under a path breaks off, if it does. -/
  breaks : Path → Bytes → Option Break

namespace FileTree

/-- A root directory without entries, which is the working directory too, on a disk that takes everything. -/
def empty : FileTree := ⟨[], [], by simp, fun _ _ => none⟩

/-- The entry under a path; the empty path is the root. -/
def get? (tree : FileTree) (path : Path) : Option Entry :=
  if path = [] then some .directory else tree.entries.lookup path

def erase (tree : FileTree) (path : Path) : FileTree where
  workingDirectory := tree.workingDirectory
  entries := tree.entries.filter fun e => e.1 != path
  nodup := tree.nodup.sublist (List.filter_sublist.map Prod.fst)
  breaks := tree.breaks

def insert (tree : FileTree) (path : Path) (entry : Entry) : FileTree where
  workingDirectory := tree.workingDirectory
  entries := (path, entry) :: (tree.erase path).entries
  nodup := by
    refine List.nodup_cons.mpr ⟨?_, (tree.erase path).nodup⟩
    simp [erase]
  breaks := tree.breaks

/-- The name of an entry directly in a directory. -/
def childName? : (directory path : Path) → Option Bytes
  | [], [name] => some name
  | outer :: directory, first :: path => if outer = first then childName? directory path else none
  | _, _ => none

def children (tree : FileTree) (directory : Path) : List Bytes :=
  tree.entries.filterMap fun e => childName? directory e.1

/-- Puts an entry under a path together with the directories that lead to it. -/
def place (tree : FileTree) (path : Path) (entry : Entry) : FileTree :=
  let missing := (List.range path.length).map path.take |>.filter fun p => (tree.get? p).isNone
  (missing.foldl (fun t p => t.insert p .directory) tree).insert path entry

/-- Puts an entry under a path that is counted from the working directory. -/
def placeHere (tree : FileTree) (path : Path) (entry : Entry) : FileTree :=
  tree.place (tree.workingDirectory ++ path) entry

/-- The entries in the working directory and below, under paths counted from there. -/
def entriesHere (tree : FileTree) : List (Path × Entry) :=
  tree.entries.filterMap fun e =>
    if tree.workingDirectory.isPrefixOf e.1 && e.1 != tree.workingDirectory then
      some (e.1.drop tree.workingDirectory.length, e.2)
    else none

/-! ### The standard tree

What a working directory stands in: the directories that every system has at its root, and the devices,
among them the standard streams under each of their names.
-/

def rootDirectories : List Bytes :=
  [text "bin", text "boot", text "dev", text "etc", text "home", text "lib", text "media", text "mnt",
   text "opt", text "proc", text "root", text "run", text "sbin", text "srv", text "sys", text "tmp",
   text "usr", text "var"]

/-- The standard streams, in the order of their numbers. -/
def standardStreams (input : Bytes) : List Device := [.input input, .output, .errors]

def devices (input : Bytes) : List (Path × Device) :=
  [([text "dev", text "null"], .null), ([text "dev", text "full"], .full)] ++
  [text "stdin", text "stdout", text "stderr"].zipWith (fun name d => ([text "dev", name], d))
    (standardStreams input) ++
  [text "0", text "1", text "2"].zipWith (fun name d => ([text "dev", text "fd", name], d))
    (standardStreams input) ++
  [text "0", text "1", text "2"].zipWith
    (fun name d => ([text "proc", text "self", text "fd", name], d)) (standardStreams input)

def scratchDirectory : Path := [text "tmp", text "work"]

/-- A tree with an empty working directory, the directories at the root and the devices. -/
def standard (input : Bytes) : FileTree :=
  let bare : FileTree := { empty with workingDirectory := scratchDirectory }
  let rooted := rootDirectories.foldl (fun t name => t.place [name] .directory) bare
  let equipped := (devices input).foldl (fun t d => t.place d.1 (.device d.2)) rooted
  equipped.place scratchDirectory .directory

end FileTree

end Scriptlet
