import Scriptlet.Fixture
import Scriptlet.Proofs.FileWrites
import Scriptlet.Proofs.JsonValues

/-!
What a store of digests keeps over its updates. Digests of valid text survive being written to the file and
read again, whatever characters their paths have; and whatever a file holds that a store can be opened
from, its digests are valid text. So after any updates, if the last one was written as a whole, the file opens
as the store that is in use. A device keeps nothing of what is written to it, so a store that is kept
in one does not.
-/

namespace Scriptlet

/-! ### Digests -/

namespace DigestMap

theorem lookup_insertEntry (path digest : Bytes) (entries : List (Bytes × Bytes)) (key : Bytes) :
    (insertEntry path digest entries).lookup key = if key = path then some digest else entries.lookup key := by
  have hhere : ∀ rest : List (Bytes × Bytes), ((path, digest) :: rest).lookup key =
      if key = path then some digest else rest.lookup key := by
    intro rest
    by_cases h : key = path
    · simp [h]
    · simp [List.lookup_cons, h, beq_eq_false_iff_ne.mpr h]
  induction entries with
  | nil => exact hhere []
  | cons entry entries ih =>
      unfold insertEntry
      split
      · exact hhere _
      · split
        · rename_i heq
          rw [hhere]
          by_cases h : key = path
          · rw [if_pos h, if_pos h]
          · rw [if_neg h, if_neg h, List.lookup_cons, beq_eq_false_iff_ne.mpr (heq ▸ h)]
        · rename_i hne
          rw [List.lookup_cons, List.lookup_cons, ih]
          by_cases h : key = path
          · rw [if_pos h, beq_eq_false_iff_ne.mpr (h ▸ hne), if_pos h]
          · rw [if_neg h, if_neg h]

theorem insertEntry_ne_nil (path digest : Bytes) (entries : List (Bytes × Bytes)) :
    insertEntry path digest entries ≠ [] := by
  fun_cases insertEntry path digest entries <;> exact List.cons_ne_nil _ _

theorem get?_insert (m : DigestMap) (path digest key : Bytes) :
    (m.insert path digest).get? key = if key = path then some digest else m.get? key :=
  lookup_insertEntry path digest m.entries key

theorem lastOfEach_eq_self {entries : List (Bytes × Bytes)} (h : entries.Pairwise fun a b => a.1 < b.1) :
    lastOfEach entries = entries := by
  fun_induction lastOfEach entries with
  | case1 => rfl
  | case2 => rfl
  | case3 entry next entries heq _ =>
      have hlt := (List.pairwise_cons.mp h).1 next (List.mem_cons_self ..)
      rw [heq] at hlt
      exact absurd hlt (List.lt_irrefl _)
  | case4 entry next entries _ ih => rw [ih (List.pairwise_cons.mp h).2]

theorem inOrder_eq_self {entries : List (Bytes × Bytes)} (h : entries.Pairwise fun a b => a.1 < b.1) :
    inOrder entries = entries := by
  apply List.mergeSort_of_pairwise
  exact h.imp fun hlt => decide_eq_true (List.le_of_lt hlt)

theorem ofList_entries (m : DigestMap) : ofList m.entries = m := by
  obtain ⟨entries, hsorted⟩ := m
  have hentries : lastOfEach (inOrder entries) = entries := by
    rw [inOrder_eq_self hsorted, lastOfEach_eq_self hsorted]
  simp only [ofList, hentries]

/-- The paths and the digests are valid text. -/
def IsText (m : DigestMap) : Prop := ∀ e ∈ m.entries, e.1.isUtf8 = true ∧ e.2.isUtf8 = true

theorem IsText.insert {m : DigestMap} (h : m.IsText) {path digest : Bytes} (hpath : path.isUtf8 = true)
    (hdigest : digest.isUtf8 = true) : (m.insert path digest).IsText := by
  intro e he
  rcases mem_insertEntry he with rfl | he
  · exact ⟨hpath, hdigest⟩
  · exact h e he

theorem isText_ofList {entries : List (Bytes × Bytes)}
    (h : ∀ e ∈ entries, e.1.isUtf8 = true ∧ e.2.isUtf8 = true) : (ofList entries).IsText := by
  intro e he
  exact h e (List.mem_mergeSort.mp (mem_lastOfEach he))

end DigestMap

namespace Store
open Json

/-! ### The file -/

/-- The text behind an entry, with the entries that follow. -/
def behindEntry : List (Bytes × Bytes) → Bytes
  | [] => text "\n\x7d\n"
  | entry :: entries => text ",\n" ++ (encodeEntry entry ++ behindEntry entries)

theorem intercalate_entries (entry : Bytes × Bytes) (entries : List (Bytes × Bytes)) :
    (text ",\n").intercalate ((entry :: entries).map encodeEntry) ++ text "\n\x7d\n" =
      encodeEntry entry ++ behindEntry entries := by
  induction entries generalizing entry with
  | nil => simp [behindEntry]
  | cons next entries ih =>
      rw [behindEntry, ← ih next]
      simp [List.intercalate_cons_cons]

theorem encode_eq {m : DigestMap} {entry : Bytes × Bytes} {entries : List (Bytes × Bytes)}
    (h : m.entries = entry :: entries) :
    encode m = text "\x7b\n" ++ (encodeEntry entry ++ behindEntry entries) := by
  rw [encode, h, intercalate_entries]

theorem lexes_entry {entry : Bytes × Bytes} (h : entry.1.isUtf8 = true ∧ entry.2.isUtf8 = true) {rest : Bytes}
    {ls : List Lexeme} (hrest : Lexes rest ls) :
    Lexes (encodeEntry entry ++ rest) (.string entry.1 :: .colon :: .string entry.2 :: ls) := by
  have hvalue : Lexes (text ": " ++ (writeString entry.2 ++ rest)) (.colon :: .string entry.2 :: ls) :=
    .cons rfl rfl (Nat.le_refl _) (.space rfl (.string h.2 hrest))
  rw [encodeEntry, List.append_assoc, List.append_assoc, List.append_assoc]
  exact .space rfl (.space rfl (.string h.1 hvalue))

theorem lexes_behindEntry {entries : List (Bytes × Bytes)}
    (h : ∀ e ∈ entries, e.1.isUtf8 = true ∧ e.2.isUtf8 = true) :
    Lexes (behindEntry entries) (membersBehind entries) := by
  induction entries with
  | nil => exact .space rfl (.cons rfl rfl (Nat.le_refl _) (.space rfl .nil))
  | cons entry entries ih =>
      rw [List.forall_mem_cons] at h
      exact .cons rfl rfl (Nat.le_refl _) (.space rfl (lexes_entry h.1 (ih h.2)))

theorem isUtf8_encodeEntry {entry : Bytes × Bytes} (h : entry.1.isUtf8 = true ∧ entry.2.isUtf8 = true) :
    (encodeEntry entry).isUtf8 = true := by
  rw [encodeEntry, Bytes.isUtf8_append (by decide), Bytes.isUtf8_append (isUtf8_writeString h.1),
    Bytes.isUtf8_append (by decide), isUtf8_writeString h.2]

theorem isUtf8_behindEntry {entries : List (Bytes × Bytes)}
    (h : ∀ e ∈ entries, e.1.isUtf8 = true ∧ e.2.isUtf8 = true) : (behindEntry entries).isUtf8 = true := by
  induction entries with
  | nil => decide
  | cons entry entries ih =>
      rw [List.forall_mem_cons] at h
      rw [behindEntry, Bytes.isUtf8_append (by decide), Bytes.isUtf8_append (isUtf8_encodeEntry h.1)]
      exact ih h.2

theorem parse?_encode {m : DigestMap} (h : m.IsText) (hne : m.entries ≠ []) :
    parse? (encode m) = some (.object (m.entries.map fun e => (e.1, .string e.2))) := by
  obtain ⟨entry, entries, heq⟩ := List.exists_cons_of_ne_nil hne
  rw [DigestMap.IsText, heq, List.forall_mem_cons] at h
  have hvalid : (encode m).isUtf8 = true := by
    rw [encode_eq heq, Bytes.isUtf8_append (by decide), Bytes.isUtf8_append (isUtf8_encodeEntry h.1)]
    exact isUtf8_behindEntry h.2
  have hlexes : Lexes (encode m)
      (.openBrace :: .string entry.1 :: .colon :: .string entry.2 :: membersBehind entries) := by
    rw [encode_eq heq]
    exact .cons rfl rfl (Nat.le_refl _) (.space rfl (lexes_entry h.1 (lexes_behindEntry h.2)))
  calc parse? (encode m) = (lexemes? (encode m)).bind (build none maxDepth []) := by
        rw [parse?, repair_of_isUtf8 hvalid]
    _ = build none maxDepth []
          (.openBrace :: .string entry.1 :: .colon :: .string entry.2 :: membersBehind entries) := by
        rw [lexemes?, hlexes _ (Nat.le_refl _), Option.bind_some]
    _ = some (.object (m.entries.map fun e => (e.1, .string e.2))) := by
        rw [heq]
        exact build_object entry entries

theorem entries?_strings (entries : List (Bytes × Bytes)) :
    entries? (entries.map fun e => (e.1, .string e.2)) = some entries := by
  induction entries with
  | nil => rfl
  | cons entry entries ih =>
      rw [List.map_cons, entries?, ih]
      rfl

theorem isBlank_of_mem {s : Bytes} {b : UInt8} (hb : b ∈ s) (hlt : b.toNat < 128)
    (hchar : Scriptlet.isBlank (Char.ofNat b.toNat) = false) : Bytes.isBlank s = false := by
  rw [Bytes.isBlank, List.isEmpty_eq_false_iff, ne_eq, Bytes.trim_eq_nil_iff]
  rintro ⟨cs, hblank, rfl⟩
  obtain ⟨c, hc, hmem⟩ := List.mem_flatMap.mp hb
  rw [Utf8.ofNat_of_mem_encodeChar hmem hlt, hblank c hc] at hchar
  cases hchar

/-- Digests that were written to a file are read from it as they were. -/
theorem decode_encode {m : DigestMap} (h : m.IsText) (hne : m.entries ≠ []) :
    decode (encode m) = .ok (some m) := by
  have hblank : Bytes.isBlank (encode m) = false :=
    isBlank_of_mem (show Ascii.openBrace ∈ encode m from List.mem_cons_self ..) (by decide) (by decide)
  rw [decode, hblank, parse?_encode h hne]
  simp only [entries?_strings, DigestMap.ofList_entries, Bool.false_eq_true, if_false]

theorem isText_of_entries? {members : List (Bytes × Json.Value)} {entries : List (Bytes × Bytes)}
    (h : entries? members = some entries) (hmembers : (Value.object members).Shows (Bytes.isUtf8 · = true)) :
    ∀ e ∈ entries, e.1.isUtf8 = true ∧ e.2.isUtf8 = true := by
  fun_induction entries? members generalizing entries with
  | case1 =>
      cases h
      exact nofun
  | case2 path value members digest entries' hentries htext ih =>
      cases h
      obtain ⟨⟨hpath, hvalue⟩, hmembers⟩ := List.forall_mem_cons.mp hmembers
      refine List.forall_mem_cons.mpr ⟨⟨hpath, ?_⟩, ih hentries hmembers⟩
      cases value with
      | string digest => cases htext; exact hvalue _ rfl
      | null => cases htext; rfl
      | _ => cases htext
  | case3 => cases h

theorem isText_of_decode {content : Bytes} {m : DigestMap} (h : decode content = .ok (some m)) : m.IsText := by
  unfold decode at h
  split at h
  · cases h
    exact nofun
  · split at h
    · cases h
    · cases h
    · rename_i members hparse
      split at h
      · rename_i entries hentries
        cases h
        exact DigestMap.isText_ofList (isText_of_entries? hentries (parse?_shows hparse))
      · cases h
    · cases h

theorem isText_of_load {files : FileTree} {path : Bytes} {m : DigestMap}
    (h : load files path = .ok ⟨path, some m⟩) : m.IsText := by
  unfold load at h
  split at h
  · rename_i content _
    cases hdecode : decode content with
    | error e =>
        rw [hdecode] at h
        cases h
    | ok digests =>
        rw [hdecode] at h
        cases h
        exact isText_of_decode hdecode
  · split at h
    · cases h
      exact nofun
    · cases h

/-! ### Updates -/

/-- What the update of a path leaves with these digests: they are in the store and were written, whatever came of
that. -/
def saved (path : Bytes) (m : DigestMap) (files : FileTree) (p : Bytes) : Updated where
  store := ⟨path, some m⟩
  files := (files.write path (encode m)).files
  log := text "updated sha for " ++ p
  failure := (files.write path (encode m)).failure

theorem update_eq_saved (path : Bytes) (m : DigestMap) (files : FileTree) (p c : Bytes) :
    update ⟨path, some m⟩ files p c = .ok (saved path (m.insert p (Sha256.hex c)) files p) := rfl

theorem read_saved {path : Bytes} {m : DigestMap} {files : FileTree} {p : Bytes}
    (hdevice : files.device? path = none) (h : (saved path m files p).failure = none) :
    (saved path m files p).files.read path = .ok (encode m) :=
  FileTree.read_of_find (FileTree.find_of_write hdevice h)

/-- The updates one after the other, each with the files that the one before left. -/
def updateAll (s : Store) (files : FileTree) (updates : List (Bytes × Bytes)) : Except Misuse Updated :=
  updates.foldlM (fun now u => now.store.update now.files u.1 u.2) ⟨s, files, [], none⟩

/-- A store in use that has these digests. Where its file is kept at all, the file opens as the store
unless the last update was not written as a whole. -/
structure InUse (path : Bytes) (kept : Prop) (m : DigestMap) (now : Updated) : Prop where
  store : now.store = ⟨path, some m⟩
  isText : m.IsText
  device : kept → now.files.device? path = none
  saved : kept → now.failure = none → load now.files path = .ok ⟨path, some m⟩

theorem InUse.update {path : Bytes} {kept : Prop} {m : DigestMap} {now : Updated} (h : InUse path kept m now)
    {p : Bytes} (hp : p.isUtf8 = true) (c : Bytes) : ∃ next, now.store.update now.files p c = .ok next ∧
      InUse path kept (m.insert p (Sha256.hex c)) next := by
  have hisText := h.isText.insert hp (Sha256.isUtf8_hex c)
  rw [h.store]
  refine ⟨_, update_eq_saved path m now.files p c, rfl, hisText, ?_, ?_⟩
  · intro hkept
    exact (now.files.device?_write path _).trans (h.device hkept)
  -- written as a whole, the file holds the new digests; else it says nothing about the store
  · intro hkept hwritten
    rw [load, read_saved (h.device hkept) hwritten]
    simp only [decode_encode hisText (DigestMap.insertEntry_ne_nil _ _ _), Except.map]

def digestsAfter (m : DigestMap) (updates : List (Bytes × Bytes)) : DigestMap :=
  updates.foldl (fun m u => m.insert u.1 (Sha256.hex u.2)) m

theorem InUse.updateAll {path : Bytes} {kept : Prop} {m : DigestMap} {now : Updated} (h : InUse path kept m now)
    {updates : List (Bytes × Bytes)} (hpaths : ∀ u ∈ updates, u.1.isUtf8 = true) :
    ∃ final, updates.foldlM (fun now u => now.store.update now.files u.1 u.2) now = .ok final ∧
      InUse path kept (digestsAfter m updates) final := by
  induction updates generalizing m now with
  | nil => exact ⟨now, rfl, h⟩
  | cons u updates ih =>
      rw [List.forall_mem_cons] at hpaths
      obtain ⟨next, hnext, hinUse⟩ := h.update hpaths.1 u.2
      obtain ⟨final, hfinal, hlast⟩ := ih hinUse hpaths.2
      refine ⟨final, ?_, hlast⟩
      rw [List.foldlM_cons, hnext]
      exact hfinal

/-- The digest that counts under a path after updates: that of its last update, or else the one before. -/
def Counts (m : DigestMap) (updates : List (Bytes × Bytes)) (p digest : Bytes) : Prop :=
  (∃ before c after, updates = before ++ (p, c) :: after ∧ (∀ u ∈ after, u.1 ≠ p) ∧ Sha256.hex c = digest) ∨
    (∀ u ∈ updates, u.1 ≠ p) ∧ m.get? p = some digest

theorem counts_cons (m : DigestMap) (u : Bytes × Bytes) (updates : List (Bytes × Bytes)) (p digest : Bytes) :
    Counts (m.insert u.1 (Sha256.hex u.2)) updates p digest ↔ Counts m (u :: updates) p digest := by
  rw [Counts, DigestMap.get?_insert]
  constructor
  · rintro (⟨before, c, after, rfl, hafter, hc⟩ | ⟨hnone, hget⟩)
    · exact .inl ⟨u :: before, c, after, rfl, hafter, hc⟩
    · by_cases hp : p = u.1
      · rw [if_pos hp] at hget
        exact .inl ⟨[], u.2, updates, by rw [hp]; rfl, hnone, Option.some.inj hget⟩
      · rw [if_neg hp] at hget
        exact .inr ⟨List.forall_mem_cons.mpr ⟨Ne.symm hp, hnone⟩, hget⟩
  · rintro (⟨before, c, after, heq, hafter, hc⟩ | ⟨hnone, hget⟩)
    · cases before with
      | nil =>
          cases heq
          rw [if_pos rfl]
          exact .inr ⟨hafter, congrArg some hc⟩
      | cons u' before =>
          cases heq
          exact .inl ⟨before, c, after, rfl, hafter, hc⟩
    · rw [List.forall_mem_cons] at hnone
      rw [if_neg (Ne.symm hnone.1)]
      exact .inr ⟨hnone.2, hget⟩

theorem get?_digestsAfter (m : DigestMap) (updates : List (Bytes × Bytes)) (p digest : Bytes) :
    (digestsAfter m updates).get? p = some digest ↔ Counts m updates p digest := by
  induction updates generalizing m with
  | nil =>
      constructor
      · exact fun h => .inr ⟨List.forall_mem_nil _, h⟩
      · rintro (⟨before, c, after, heq, -⟩ | ⟨-, h⟩)
        · simp at heq
        · exact h
  | cons u updates ih => exact (ih _).trans (counts_cons m u updates p digest)

theorem isMatch_eq_true_iff {path : Bytes} {m : DigestMap} {p c : Bytes} :
    isMatch ⟨path, some m⟩ p c = true ↔ m.get? p = some (Sha256.hex c) := beq_iff_eq

theorem update_of_target_error {files : FileTree} {path : Bytes} {fault : Fault}
    (h : files.target path = .error fault) (m : DigestMap) (p c : Bytes) :
    ∃ next, update ⟨path, some m⟩ files p c = .ok next ∧ next.failure = some ⟨.open, path, fault⟩ ∧
      next.files = files := by
  refine ⟨_, update_eq_saved path m files p c, ?_, ?_⟩
  · rw [saved, FileTree.write_of_target_error h]
  · rw [saved, FileTree.write_of_target_error h]

/-- An update changes the store in the same way whether or not it can be written. -/
theorem store_of_update {path : Bytes} {m : DigestMap} {files : FileTree} {p c : Bytes} {next : Updated}
    (h : update ⟨path, some m⟩ files p c = .ok next) :
    next.store = ⟨path, some (m.insert p (Sha256.hex c))⟩ := by
  rw [update_eq_saved] at h
  cases h
  rfl

/-- A store over any updates of valid paths. It matches what was last stored under a path, or else what was
loaded. If its file is no device and the last update was written, the file opens as the store. An update
for which the file cannot be opened says so, leaves the files as they were and changes the store as any other
does; such are a file in a directory that is not there or is none, and one that is a directory. -/
theorem updateAll_persists {files : FileTree} {path : Bytes} {m : DigestMap}
    (hload : load files path = .ok ⟨path, some m⟩) {updates : List (Bytes × Bytes)}
    (hpaths : ∀ u ∈ updates, u.1.isUtf8 = true) :
    ∃ final, updateAll ⟨path, some m⟩ files updates = .ok final ∧
      (∀ p c, final.store.isMatch p c = true ↔ Counts m updates p (Sha256.hex c)) ∧
      (files.device? path = none → final.failure = none → load final.files path = .ok final.store) ∧
      (∀ tree p c fault, tree.target path = .error fault → ∃ next, final.store.update tree p c = .ok next ∧
        next.failure = some ⟨.open, path, fault⟩ ∧ next.files = tree ∧
        ∀ tree' next', final.store.update tree' p c = .ok next' → next'.store = next.store) ∧
      ∀ (tree : FileTree) (fault : Fault), tree.Blocked path fault → tree.target path = .error fault := by
  have hopened : InUse path (files.device? path = none) m ⟨⟨path, some m⟩, files, [], none⟩ :=
    ⟨rfl, isText_of_load hload, id, fun _ _ => hload⟩
  obtain ⟨final, hfinal, hinUse⟩ := hopened.updateAll hpaths
  refine ⟨final, hfinal, ?_, ?_, ?_, fun _ _ hblocked => hblocked.target_eq⟩
  · intro p c
    rw [hinUse.store, isMatch_eq_true_iff]
    exact get?_digestsAfter m updates p (Sha256.hex c)
  · intro hdevice hnone
    rw [hinUse.store]
    exact hinUse.saved hdevice hnone
  · intro tree p c fault htarget
    rw [hinUse.store]
    obtain ⟨next, hnext, hfailure, hfiles⟩ := update_of_target_error htarget (digestsAfter m updates) p c
    refine ⟨next, hnext, hfailure, hfiles, ?_⟩
    intro tree' next' hnext'
    rw [store_of_update hnext, store_of_update hnext']

/-- A file of another hand, with an escape, a null and a name that occurs twice. -/
theorem updateAll_persists_escaped_names :
    let files := (FileTree.standard []).placeHere [text "sha.json"]
      (.file (text "\x7b\"\\u00e9\": null, \"b\": \"old\", \"\\u00e9\": \"<\"\x7d"))
    let m := DigestMap.ofList [(text "é", []), (text "b", text "old"), (text "é", text "<")]
    let updates := [(text "é", text "x"), (text "a\"\n", text "y"), (text "é", text "z")]
    load files (text "sha.json") = .ok ⟨text "sha.json", some m⟩ ∧
      files.device? (text "sha.json") = none ∧
      ∃ final, updateAll ⟨text "sha.json", some m⟩ files updates = .ok final ∧
        final.store.isMatch (text "é") (text "z") = true ∧
        load final.files (text "sha.json") = .ok final.store := by
  intro files m updates
  have hload : load files (text "sha.json") = .ok ⟨text "sha.json", some m⟩ := by with_unfolding_all rfl
  have hdevice : files.device? (text "sha.json") = none := by with_unfolding_all rfl
  have hpaths : ∀ u ∈ updates, u.1.isUtf8 = true := by
    simp only [updates, List.forall_mem_cons]
    exact ⟨by decide, by decide, by decide, nofun⟩
  obtain ⟨final, hfinal, hmatch, hsaved, -⟩ := updateAll_persists hload hpaths
  have hwritten : final.failure = none := by
    have hrun : (updateAll ⟨text "sha.json", some m⟩ files updates).map Updated.failure = .ok none := by
      with_unfolding_all rfl
    rw [hfinal] at hrun
    exact Except.ok.inj hrun
  have hlast : Counts m updates (text "é") (Sha256.hex (text "z")) :=
    .inl ⟨[(text "é", text "x"), (text "a\"\n", text "y")], text "z", [], rfl, nofun, rfl⟩
  exact ⟨hload, hdevice, final, hfinal, (hmatch _ _).mpr hlast, hsaved hdevice hwritten⟩

/-- A device takes the update and keeps nothing of it: the store in use matches, the one that is opened
afterwards does not. -/
theorem update_of_device_not_kept :
    let files := FileTree.standard []
    let path := text "/dev/null"
    load files path = .ok ⟨path, some .empty⟩ ∧
      ∃ final, updateAll ⟨path, some .empty⟩ files [(text "a", text "x")] = .ok final ∧
        final.failure = none ∧ final.store.isMatch (text "a") (text "x") = true ∧
        ∃ reopened, load final.files path = .ok reopened ∧
          reopened.isMatch (text "a") (text "x") = false := by
  intro files path
  have hopen : load files path = .ok ⟨path, some .empty⟩ := by with_unfolding_all rfl
  let m := DigestMap.empty.insert (text "a") (Sha256.hex (text "x"))
  have hrun : updateAll ⟨path, some .empty⟩ files [(text "a", text "x")] =
      .ok ⟨⟨path, some m⟩, files, text "updated sha for a", none⟩ := by with_unfolding_all rfl
  refine ⟨hopen, _, hrun, rfl, ?_, _, hopen, rfl⟩
  rw [isMatch_eq_true_iff, DigestMap.get?_insert, if_pos rfl]

end Store
end Scriptlet
