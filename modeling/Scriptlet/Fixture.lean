import Scriptlet.FileTree.Glob
import Scriptlet.Json
import Scriptlet.Sha256
import Scriptlet.Translate

/-!
Fixtures: sources in a directory, and the digests of contents that have been seen.

The store of digests tells which contents have been seen under which paths. It is kept as a JSON object in a
file, read once when the store is opened and written again at every update, the entries in increasing
order of the paths. A file that says null opens as a sealed store, which knows nothing and takes no
update.
-/

namespace Scriptlet

/-! ### Maps from paths to digests

A map is kept as a list in increasing order of the paths, so two maps with the same digests under the same
paths are equal.
-/

/-- Digests under paths, in increasing order of the paths. -/
structure DigestMap where
  entries : List (Bytes × Bytes)
  sorted : entries.Pairwise fun a b => a.1 < b.1

namespace DigestMap

def empty : DigestMap := ⟨[], .nil⟩

def insertEntry (path digest : Bytes) : List (Bytes × Bytes) → List (Bytes × Bytes)
  | [] => [(path, digest)]
  | entry :: entries =>
    if path < entry.1 then (path, digest) :: entry :: entries
    else if path = entry.1 then (path, digest) :: entries
    else entry :: insertEntry path digest entries

theorem mem_insertEntry {path digest : Bytes} {entries : List (Bytes × Bytes)} {e : Bytes × Bytes}
    (h : e ∈ insertEntry path digest entries) : e = (path, digest) ∨ e ∈ entries := by
  induction entries with
  | nil => exact Or.inl (List.mem_singleton.mp h)
  | cons entry entries ih =>
    unfold insertEntry at h
    split at h
    · exact List.mem_cons.mp h
    · split at h
      · exact (List.mem_cons.mp h).imp_right (List.mem_cons_of_mem _)
      · rcases List.mem_cons.mp h with rfl | h
        · exact Or.inr List.mem_cons_self
        · exact (ih h).imp_right (List.mem_cons_of_mem _)

private theorem lt_of_not_lt_of_ne {a b : Bytes} (h : ¬ a < b) (hne : a ≠ b) : b < a := by
  rcases List.le_iff_lt_or_eq.mp (List.not_lt.mp h) with hlt | heq
  · exact hlt
  · exact absurd heq.symm hne

theorem pairwise_insertEntry (path digest : Bytes) {entries : List (Bytes × Bytes)}
    (h : entries.Pairwise fun a b => a.1 < b.1) :
    (insertEntry path digest entries).Pairwise fun a b => a.1 < b.1 := by
  induction entries with
  | nil => exact List.pairwise_singleton _ _
  | cons entry entries ih =>
    obtain ⟨hhead, htail⟩ := List.pairwise_cons.mp h
    unfold insertEntry
    split
    · rename_i hlt
      refine List.pairwise_cons.mpr ⟨fun e he => ?_, h⟩
      rcases List.mem_cons.mp he with rfl | he
      · exact hlt
      · exact List.lt_trans hlt (hhead e he)
    · split
      · rename_i heq
        exact List.pairwise_cons.mpr ⟨fun e he => heq ▸ hhead e he, htail⟩
      · rename_i hlt hne
        refine List.pairwise_cons.mpr ⟨fun e he => ?_, ih htail⟩
        rcases mem_insertEntry he with rfl | he
        · exact lt_of_not_lt_of_ne hlt hne
        · exact hhead e he

def insert (m : DigestMap) (path digest : Bytes) : DigestMap :=
  ⟨insertEntry path digest m.entries, pairwise_insertEntry path digest m.sorted⟩

def get? (m : DigestMap) (path : Bytes) : Option Bytes := m.entries.lookup path

/-- The last of the entries under each path, for entries in which those under one path are next to each
other. -/
def lastOfEach : List (Bytes × Bytes) → List (Bytes × Bytes)
  | [] => []
  | [entry] => [entry]
  | entry :: next :: entries =>
    if entry.1 = next.1 then lastOfEach (next :: entries) else entry :: lastOfEach (next :: entries)

theorem mem_lastOfEach {entries : List (Bytes × Bytes)} {e : Bytes × Bytes} (h : e ∈ lastOfEach entries) :
    e ∈ entries := by
  fun_induction lastOfEach entries with
  | case1 => exact h
  | case2 => exact h
  | case3 entry next entries _ ih => exact List.mem_cons_of_mem _ (ih h)
  | case4 entry next entries _ ih =>
    rcases List.mem_cons.mp h with rfl | h
    · exact List.mem_cons_self
    · exact List.mem_cons_of_mem _ (ih h)

private theorem lt_of_le_of_ne_of_le {a b c : Bytes} (hab : a ≤ b) (hne : a ≠ b) (hbc : b ≤ c) :
    a < c := by
  have hlt : a < b := (List.le_iff_lt_or_eq.mp hab).resolve_right hne
  rcases List.le_iff_lt_or_eq.mp hbc with h | h
  · exact List.lt_trans hlt h
  · exact h ▸ hlt

theorem pairwise_lastOfEach {entries : List (Bytes × Bytes)}
    (h : entries.Pairwise fun a b => a.1 ≤ b.1) :
    (lastOfEach entries).Pairwise fun a b => a.1 < b.1 := by
  fun_induction lastOfEach entries with
  | case1 => exact List.Pairwise.nil
  | case2 => exact List.pairwise_singleton _ _
  | case3 entry next entries _ ih => exact ih (List.pairwise_cons.mp h).2
  | case4 entry next entries hne ih =>
    obtain ⟨hhead, htail⟩ := List.pairwise_cons.mp h
    refine List.pairwise_cons.mpr ⟨fun e he => ?_, ih htail⟩
    have hnext : next.1 ≤ e.1 := by
      rcases List.mem_cons.mp (mem_lastOfEach he) with rfl | he
      · exact List.le_refl _
      · exact (List.pairwise_cons.mp htail).1 e he
    exact lt_of_le_of_ne_of_le (hhead next List.mem_cons_self) hne hnext

/-- Entries in the order of their paths; those under one path stay in their order. -/
def inOrder (entries : List (Bytes × Bytes)) : List (Bytes × Bytes) :=
  entries.mergeSort fun a b => decide (a.1 ≤ b.1)

theorem pairwise_inOrder (entries : List (Bytes × Bytes)) :
    (inOrder entries).Pairwise fun a b => a.1 ≤ b.1 := by
  have h := @List.pairwise_mergeSort _ (fun a b : Bytes × Bytes => decide (a.1 ≤ b.1))
    (fun a b c hab hbc => decide_eq_true (List.le_trans (of_decide_eq_true hab) (of_decide_eq_true hbc)))
    (fun a b => by simpa using List.le_total a.1 b.1) entries
  exact h.imp of_decide_eq_true

/-- The map of a list of entries, of which the last under each path counts. -/
def ofList (entries : List (Bytes × Bytes)) : DigestMap :=
  ⟨lastOfEach (inOrder entries), pairwise_lastOfEach (pairwise_inOrder entries)⟩

end DigestMap

/-! ### The store -/

inductive StoreError where
  /-- The file cannot be read. -/
  | file (e : PathError)
  /-- The file is not one JSON value. -/
  | badSyntax
  /-- The file is not an object of strings. -/
  | badType
  deriving DecidableEq, Repr

/-- A store: the file that it is kept in, and the digests; a sealed store has none. -/
structure Store where
  path : Bytes
  digests : Option DigestMap

namespace Store

/-- The string of a member of the object; null counts as the empty string. -/
def memberText? : Json.Value → Option Bytes
  | .string value => some value
  | .null => some []
  | _ => none

/-- The entries of the members of an object, if all are strings. -/
def entries? : List (Bytes × Json.Value) → Option (List (Bytes × Bytes))
  | [] => some []
  | (path, value) :: members =>
    match memberText? value, entries? members with
    | some digest, some entries => some ((path, digest) :: entries)
    | _, _ => none

def decode (content : Bytes) : Except StoreError (Option DigestMap) :=
  if Bytes.isBlank content then .ok (some .empty)
  else match Json.parse? content with
    | none => .error .badSyntax
    | some .null => .ok none
    | some (.object members) =>
      match entries? members with
      | some entries => .ok (some (.ofList entries))
      | none => .error .badType
    | some _ => .error .badType

def encodeEntry (entry : Bytes × Bytes) : Bytes :=
  text "  " ++ (Json.writeString entry.1 ++ (text ": " ++ Json.writeString entry.2))

def encode (m : DigestMap) : Bytes :=
  text "\x7b\n" ++ ((text ",\n").intercalate (m.entries.map encodeEntry) ++ text "\n\x7d\n")

/-- Opens the store that is kept in a file. A file that is not there is an empty store. -/
def load (files : FileTree) (path : Bytes) : Except StoreError Store :=
  match files.read path with
  | .ok content => (decode content).map fun digests => ⟨path, digests⟩
  | .error e => if e.fault = .notFound then .ok ⟨path, some .empty⟩ else .error (.file e)

/-- Whether the content was the last one stored under the path. -/
def isMatch (s : Store) (path content : Bytes) : Bool :=
  match s.digests with
  | some m => m.get? path == some (Sha256.hex content)
  | none => false

/-- What an update does: the store and the files afterwards, the line that is logged, and why the file
does not hold the digests, if it does not. The store changes in any case. -/
structure Updated where
  store : Store
  files : FileTree
  log : Bytes
  failure : Option PathError

/-- Stores the digest of a content under a path and writes the file. -/
def update (s : Store) (files : FileTree) (path content : Bytes) : Except Misuse Updated :=
  match s.digests with
  | none => .error .sealedStore
  | some m =>
    let m := m.insert path (Sha256.hex content)
    let log := text "updated sha for " ++ path
    let written := files.write s.path (encode m)
    .ok ⟨⟨s.path, some m⟩, written.files, log, written.failure⟩

end Store

/-! ### Finding fixtures

The sources in the subdirectory `rb` of a directory, by their names without the ending. The directory may be a
pattern.
-/

inductive LocateError where
  | badPattern
  | tooFew (least : Int) (directory : Bytes) (found : Nat)
  deriving DecidableEq, Repr

def LocateError.message : LocateError → Bytes
  | badPattern => text "syntax error in pattern"
  | tooFew least directory found =>
    text "expected to find at least " ++ Decimal.ofInt least ++ text " golden files in " ++ directory ++
      text ", only found " ++ Decimal.ofNat found

def sourcePattern (directory : Bytes) : Bytes :=
  PathText.joinClean [directory, text "rb", text "*.rb"]

def fixtureName (path : Bytes) : Bytes :=
  Bytes.dropTail (text ".rb") ((Bytes.splitAt Ascii.slash path).getLastD [])

/-- The names of the fixtures of a directory in increasing order; there must be at least so many. -/
def locate (files : FileTree) (directory : Bytes) (least : Int) : Except LocateError (List Bytes) :=
  match Glob.matches? files Glob.maxDepth (Bytes.splitAt Ascii.slash (sourcePattern directory)).reverse with
  | none => .error .badPattern
  | some paths =>
    if (paths.length : Int) < least then .error (.tooFew least directory paths.length)
    else .ok (Bytes.sort (paths.map fixtureName))

end Scriptlet
