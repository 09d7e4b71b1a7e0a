import Scriptlet.FileTree.Basic

/-!
Reading and writing files by path text. A path text is walked name by name, from the root if it begins
with a slash and else from the working directory: each name but the last must be that of a directory, a
dot stays, two dots go up, and slashes in a row count as one. What an access finds wrong is a fault, told
together with the operation and the path as it was given. A file is emptied when it is opened for writing, so
a write that fails after that leaves a front of the content in it.
-/

namespace Scriptlet

/-- A refused access to a path. -/
structure PathError where
  access : Access
  path : Bytes
  fault : Fault
  deriving DecidableEq, Repr

def PathError.message (e : PathError) : Bytes :=
  e.access.name ++ text " " ++ e.path ++ text ": " ++ e.fault.message

def Break.error (path : Bytes) (stop : Break) : PathError := ⟨stop.access, path, stop.fault⟩

namespace FileTree

def maxName : Nat := 255

def maxPath : Nat := 4095

/-- The entry with a name in a directory. -/
def step (tree : FileTree) (directory : Path) (name : Bytes) : Except Fault Entry :=
  if maxName < name.length then .error .nameTooLong
  else match tree.get? (directory ++ [name]) with
    | some entry => .ok entry
    | none => .error .notFound

/-- The directory that names lead to from a directory. Above the root there is only the root. -/
def walk (tree : FileTree) : Path → List Bytes → Except Fault Path
  | directory, [] => .ok directory
  | directory, name :: names =>
    if name = [] ∨ name = text "." then walk tree directory names
    else if name = text ".." then walk tree directory.dropLast names
    else match tree.step directory name with
      | .ok .directory => walk tree (directory ++ [name]) names
      | .ok _ => .error .notDirectory
      | .error fault => .error fault

/-- The names that a path text is made of. Empty path texts and those that no system accepts are refused. -/
def names (path : Bytes) : Except Fault (List Bytes) :=
  if path.contains 0 then .error .invalid
  else if path = [] then .error .notFound
  else if maxPath < path.length then .error .nameTooLong
  else .ok (Bytes.splitAt Ascii.slash path)

/-- The directory that a path text is read from. -/
def origin (tree : FileTree) (path : Bytes) : Path :=
  if path.head? = some Ascii.slash then [] else tree.workingDirectory

/-- The entry that a path text names. -/
def find (tree : FileTree) (path : Bytes) : Except Fault Entry := do
  let names ← names path
  let directory ← tree.walk (tree.origin path) names.dropLast
  let last := names.getLastD []
  if last = [] ∨ last = text "." ∨ last = text ".." then .ok .directory
  else tree.step directory last

def device? (tree : FileTree) (path : Bytes) : Option Device :=
  match tree.find path with
  | .ok (.device device) => some device
  | _ => none

/-- The content of the file that a path text names, or what the device gives that it names. -/
def read (tree : FileTree) (path : Bytes) : Except PathError Bytes :=
  match tree.find path with
  | .ok (.file content) => .ok content
  | .ok (.device device) => .ok device.content
  | .ok .directory => .error ⟨.read, path, .isDirectory⟩
  | .error fault => .error ⟨.open, path, fault⟩

/-- The path under which a file of that path text is or would be. -/
def target (tree : FileTree) (path : Bytes) : Except Fault Path := do
  let given ← names path
  let names := (given.reverse.dropWhile List.isEmpty).reverse
  let directory ← tree.walk (tree.origin path) names.dropLast
  let last := names.getLastD []
  if last = [] ∨ last = text "." ∨ last = text ".." ∨ names.length < given.length then
    .error .isDirectory
  else match tree.step directory last with
    | .ok .directory => .error .isDirectory
    | .ok _ => .ok (directory ++ [last])
    | .error .notFound => .ok (directory ++ [last])
    | .error fault => .error fault

/-- How the writing of a content to the opened entry under a path breaks off, if it does. -/
def break? (tree : FileTree) (p : Path) (content : Bytes) : Option Break :=
  if tree.get? p = some (.device .full) then some ⟨0, .write, .noSpace⟩ else tree.breaks p content

/-- What writing a file leaves. -/
structure Written where
  files : FileTree
  /-- What the file or the device took of the content. -/
  taken : Bytes
  failure : Option PathError

/-- Writes a file. The directory that it is in must be there. A device keeps nothing. -/
def write (tree : FileTree) (path content : Bytes) : Written :=
  match tree.target path with
  | .error fault => ⟨tree, [], some ⟨.open, path, fault⟩⟩
  | .ok p =>
    let stop := tree.break? p content
    let taken := Break.front stop content
    let failure := stop.map (Break.error path)
    match tree.get? p with
    | some (.device _) => ⟨tree, taken, failure⟩
    | _ => ⟨tree.insert p (.file taken), taken, failure⟩

/-- The path of the entry that a path text names, if it can be removed: a file or a device, or a directory
without entries, which alone may have slashes behind its name. -/
def removable? (tree : FileTree) (path : Bytes) : Option Path :=
  match names path with
  | .error _ => none
  | .ok given =>
    let names := (given.reverse.dropWhile List.isEmpty).reverse
    let last := names.getLastD []
    match tree.walk (tree.origin path) names.dropLast with
    | .error _ => none
    | .ok directory =>
      if last = [] ∨ last = text "." ∨ last = text ".." then none
      else match tree.step directory last with
        | .error _ => none
        | .ok .directory =>
          if tree.children (directory ++ [last]) = [] then some (directory ++ [last]) else none
        | .ok _ => if names.length < given.length then none else some (directory ++ [last])

def remove (tree : FileTree) (path : Bytes) : FileTree :=
  match tree.removable? path with
  | some p => tree.erase p
  | none => tree

/-- The names of the entries of the directory that a path text names; none if it is no directory. -/
def list (tree : FileTree) (path : Bytes) : List Bytes :=
  match (names path).bind (tree.walk (tree.origin path)) with
  | .ok directory => tree.children directory
  | .error _ => []

end FileTree

/-! ### Shortest path texts

Those without empty names and dots, and with two dots only at the front.
-/

namespace PathText

def join (names : List Bytes) : Bytes := [Ascii.slash].intercalate names

/-- The shortest names for the names to come, given those passed so far, the latest first. Above the root
there is only the root. -/
def cleanNames (rooted : Bool) : (passed : List Bytes) → List Bytes → List Bytes
  | passed, [] => passed.reverse
  | passed, name :: names =>
    if name = [] ∨ name = text "." then cleanNames rooted passed names
    else if name = text ".." then
      match passed with
      | [] => cleanNames rooted (if rooted then [] else [name]) names
      | last :: before =>
        if last = text ".." then cleanNames rooted (name :: last :: before) names
        else cleanNames rooted before names
    else cleanNames rooted (name :: passed) names

/-- The shortest path text that leads to the same place. -/
def clean (path : Bytes) : Bytes :=
  let rooted := path.head? = some Ascii.slash
  let names := cleanNames rooted [] (Bytes.splitAt Ascii.slash path)
  if rooted then Ascii.slash :: join names
  else if names = [] then text "."
  else join names

/-- The shortest path text for parts, one inside the other. Empty parts are left out. -/
def joinClean (parts : List Bytes) : Bytes := clean (join (parts.filter (!·.isEmpty)))

end PathText

end Scriptlet
