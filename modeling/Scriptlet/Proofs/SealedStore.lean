import Scriptlet.Proofs.StorePersistence

/-!
Which stores can be updated. A file opens as a sealed store exactly if it says null, that is if it holds that word
with nothing but white space of JSON around it; other white space, and null inside of other values, does not count.
A sealed store stays sealed, whatever is asked of it: it matches nothing, every update is refused, and a
refused update leaves no trace. Every other store takes all updates.
-/

namespace Scriptlet

namespace Json
open Utf8 Glyph

/-- The text is the word null with nothing but white space around it. -/
def SaysNull (s : Bytes) : Prop :=
  ∃ before after, s = before ++ (text "null" ++ after) ∧ (∀ b ∈ before, b ∈ text " \t\n\r") ∧
    ∀ b ∈ after, b ∈ text " \t\n\r"

theorem mem_spaces_iff {b : UInt8} : b ∈ text " \t\n\r" ↔ isSpace b = true := by
  have htext : text " \t\n\r" = [Ascii.space, Ascii.tab, Ascii.newline, Ascii.carriageReturn] := rfl
  simp [htext, isSpace, or_assoc]

theorem SaysNull.lt {s : Bytes} (h : SaysNull s) : ∀ b ∈ s, b.toNat < 128 := by
  obtain ⟨before, after, rfl, hbefore, hafter⟩ := h
  have hword : ((text "null").all fun b => b.toNat < 128) = true := rfl
  rw [List.forall_mem_append, List.forall_mem_append]
  exact ⟨fun b hb => isSpace_lt (mem_spaces_iff.mp (hbefore b hb)),
    fun b hb => of_decide_eq_true (List.all_eq_true.mp hword b hb),
    fun b hb => isSpace_lt (mem_spaces_iff.mp (hafter b hb))⟩

/-! ### Reading null -/

theorem eq_of_lexeme?_null {s rest : Bytes} (h : lexeme? s = some (.null, rest)) : s = text "null" ++ rest := by
  cases s with
  | nil => cases h
  | cons b s =>
      simp only [lexeme?] at h
      split at h
      case h_7 => split at h <;> cases h
      case h_8 => exact (word?_eq_some h).2
      case h_9 => cases (word?_eq_some h).1
      case h_10 => cases (word?_eq_some h).1
      case h_11 => split at h <;> cases h
      all_goals cases h

theorem takeWhile_spaces (s : Bytes) : ∀ b ∈ s.takeWhile isSpace, b ∈ text " \t\n\r" :=
  fun b hb => mem_spaces_iff.mpr (List.all_eq_true.mp List.all_takeWhile b hb)

theorem saysNull_of_lexemes? {s : Bytes} (h : lexemes? s = some [.null]) : SaysNull s := by
  obtain ⟨fuel, after, hword, hafter⟩ := lexeme?_of_lexemesFrom_cons h
  refine ⟨s.takeWhile isSpace, after, ?_, takeWhile_spaces s, ?_⟩
  · rw [← eq_of_lexeme?_null hword, List.takeWhile_append_dropWhile]
  · have hall : after.takeWhile isSpace ++ after.dropWhile isSpace = after := List.takeWhile_append_dropWhile
    rw [dropWhile_of_lexemesFrom_nil hafter, List.append_nil] at hall
    rw [← hall]
    exact takeWhile_spaces after

theorem Lexes.spaces {before s : Bytes} {ls : List Lexeme} (hbefore : ∀ b ∈ before, b ∈ text " \t\n\r")
    (h : Lexes s ls) : Lexes (before ++ s) ls := by
  induction before with
  | nil => exact h
  | cons b before ih =>
      rw [List.forall_mem_cons] at hbefore
      exact .space (mem_spaces_iff.mp hbefore.1) (ih hbefore.2)

theorem SaysNull.lexes {s : Bytes} (h : SaysNull s) : Lexes s [.null] := by
  obtain ⟨before, after, rfl, hbefore, hafter⟩ := h
  have hrest : Lexes after [] := List.append_nil after ▸ .spaces hafter .nil
  exact .spaces hbefore (.cons rfl rfl (Nat.le_add_right after.length 3) hrest)

/-- Null is built from the word alone, outside of all arrays and objects. -/
theorem build_eq_null {done : Option Value} {room : Nat} {stack : List Frame} {ls : List Lexeme}
    (h : build done room stack ls = some .null) :
    stack = [] ∧ (done = none ∧ ls = [.null] ∨ done = some .null ∧ ls = []) := by
  fun_induction build done room stack ls
  case case1 ih =>
    obtain ⟨hstack, ⟨hdone, -⟩ | ⟨-, rfl⟩⟩ := ih h
    · cases hdone
    · exact ⟨hstack, .inl ⟨rfl, rfl⟩⟩
  -- another value is done
  case case2 ih | case3 ih | case4 ih | case5 ih | case7 ih | case10 ih | case12 ih =>
    obtain ⟨-, ⟨hdone, -⟩ | ⟨hdone, -⟩⟩ := ih h <;> cases hdone
  -- an array or an object is open
  case case6 ih | case8 ih | case9 ih | case11 ih =>
    cases (ih h).1
  case case13 => exact ⟨rfl, .inr ⟨h, rfl⟩⟩
  case case14 => cases h

theorem repair_of_ascii {s : Bytes} (h : ∀ b ∈ repair s, b.toNat < 128) : repair s = s := by
  induction s using text_induction with
  | nil => rfl
  | char c rest ih =>
      have hrepair : repair (encodeChar c ++ rest) = encodeChar c ++ repair rest := by
        rw [repair, ofBytes_encodeChar_append, List.flatMap_cons, ← repair]
      rw [hrepair, List.forall_mem_append] at h
      rw [hrepair, ih h.2]
  | stray b rest hstray ih =>
      rw [repair, ofBytes_stray hstray, List.flatMap_cons, List.forall_mem_append] at h
      have hmem : (0xEF : UInt8) ∈ encodeChar replacement := by decide
      exact absurd (h.1 _ hmem) (by decide)

theorem SaysNull.repair_eq {s : Bytes} (h : SaysNull s) : repair s = s := by
  apply repair_of_isUtf8
  rw [← List.append_nil s, Bytes.isUtf8_ascii_append h.lt]
  rfl

/-- A text spells null exactly if it says so. -/
theorem parse?_eq_null_iff {s : Bytes} : parse? s = some .null ↔ SaysNull s := by
  rw [parse?, Option.bind_eq_some_iff]
  constructor
  · rintro ⟨ls, hls, hbuild⟩
    obtain ⟨-, ⟨-, rfl⟩ | ⟨hdone, -⟩⟩ := build_eq_null hbuild
    · have hnull := saysNull_of_lexemes? hls
      rwa [repair_of_ascii hnull.lt] at hnull
    · cases hdone
  · intro h
    rw [h.repair_eq]
    exact ⟨[.null], h.lexes _ (Nat.le_refl _), rfl⟩

end Json

namespace Store
open Json

/-! ### Opening -/

theorem isBlank_of_saysNull {content : Bytes} (h : SaysNull content) : Bytes.isBlank content = false := by
  obtain ⟨before, after, rfl, -, -⟩ := h
  have hword : (0x6E : UInt8) ∈ text "null" := by decide
  exact isBlank_of_mem (List.mem_append_right _ (List.mem_append_left _ hword)) (by decide) (by decide)

theorem decode_eq_none_iff {content : Bytes} : decode content = .ok none ↔ SaysNull content := by
  constructor
  · intro h
    unfold decode at h
    split at h
    · cases h
    · split at h
      · cases h
      · exact parse?_eq_null_iff.mp ‹_›
      · split at h <;> cases h
      · cases h
  · intro h
    simp only [decode, isBlank_of_saysNull h, parse?_eq_null_iff.mpr h, Bool.false_eq_true, if_false]

/-- The file is there and says null. -/
def OfNull (files : FileTree) (path : Bytes) : Prop :=
  ∃ content, files.read path = .ok content ∧ SaysNull content

/-- A store is sealed exactly if it was opened from a file that says null. -/
theorem digests_eq_none_iff {files : FileTree} {path : Bytes} {s : Store} (h : load files path = .ok s) :
    s.digests = none ↔ OfNull files path := by
  unfold load at h
  split at h
  · rename_i content hread
    have hnull : OfNull files path ↔ SaysNull content := by
      simp only [OfNull, hread, Except.ok.injEq, exists_eq_left']
    rw [hnull, ← decode_eq_none_iff]
    cases hdecode : decode content with
    | error e =>
        rw [hdecode] at h
        cases h
    | ok digests =>
        rw [hdecode] at h
        cases h
        rw [Except.ok.injEq]
  · rename_i e hread
    split at h
    · cases h
      simp [OfNull, hread]
    · cases h

/-! ### Calls -/

/-- What can be asked of a store. -/
inductive Call where
  | isMatch (path content : Bytes)
  | update (path content : Bytes)

/-- What a call comes to. -/
inductive Answer where
  | matched (yes : Bool)
  | updated (failure : Option PathError)
  | refused (misuse : Misuse)

/-- An open store, with the files and with the lines that it has logged. -/
structure Opened where
  store : Store
  files : FileTree
  log : List Bytes

namespace Opened

/-- What a call comes to, and how it leaves the store; a refused update leaves everything as it was. -/
def call (now : Opened) : Call → Answer × Opened
  | .isMatch path content => (.matched (now.store.isMatch path content), now)
  | .update path content =>
    match now.store.update now.files path content with
    | .ok next => (.updated next.failure, ⟨next.store, next.files, now.log ++ [next.log]⟩)
    | .error misuse => (.refused misuse, now)

/-- How calls leave the store, one after the other. -/
def after (now : Opened) (calls : List Call) : Opened := calls.foldl (fun now c => (now.call c).2) now

theorem call_of_sealed {now : Opened} (h : now.store.digests = none) (p c : Bytes) :
    now.call (.isMatch p c) = (.matched false, now) ∧
      now.call (.update p c) = (.refused .sealedStore, now) := by
  simp only [call, isMatch, Store.update, h, and_self]

theorem call_of_open {now : Opened} {m : DigestMap} (h : now.store.digests = some m) (p c : Bytes) :
    ∃ failure next, now.call (.update p c) = (.updated failure, next) ∧
      next.store.digests = some (m.insert p (Sha256.hex c)) := by
  obtain ⟨⟨path, digests⟩, files, log⟩ := now
  cases h
  exact ⟨_, _, rfl, rfl⟩

theorem after_of_sealed {now : Opened} (h : now.store.digests = none) (calls : List Call) :
    now.after calls = now := by
  induction calls with
  | nil => rfl
  | cons c calls ih =>
      have hcall : (now.call c).2 = now := by
        cases c with
        | isMatch p c => rfl
        | update p c => rw [(call_of_sealed h p c).2]
      rw [after, List.foldl_cons, hcall]
      exact ih

theorem isSome_call {now : Opened} (h : now.store.digests.isSome) (c : Call) :
    (now.call c).2.store.digests.isSome := by
  cases c with
  | isMatch p c => exact h
  | update p c =>
      obtain ⟨m, hm⟩ := Option.isSome_iff_exists.mp h
      obtain ⟨failure, next, hcall, hdigests⟩ := call_of_open hm p c
      rw [hcall, hdigests]
      rfl

theorem isSome_after {now : Opened} (h : now.store.digests.isSome) (calls : List Call) :
    (now.after calls).store.digests.isSome := by
  induction calls generalizing now with
  | nil => exact h
  | cons c calls ih => exact ih (isSome_call h c)

end Opened

/-- The store with nothing logged yet. -/
def opened (s : Store) (files : FileTree) : Opened := ⟨s, files, []⟩

/-- Which updates are refused. Whatever was asked of a store since it was opened, an update is refused if and
only if the file that it was opened from said null. Then neither the calls so far nor this one change the
store, the files or the log, and nothing matches. Otherwise the store takes the update. -/
theorem update_refused_iff_ofNull {files : FileTree} {path : Bytes} {s : Store} (hload : load files path = .ok s)
    (calls : List Call) (p c : Bytes) :
    let now := (s.opened files).after calls
    ((now.call (.update p c)).1 = .refused .sealedStore ↔ OfNull files path) ∧
      (OfNull files path → now = s.opened files ∧ (now.call (.update p c)).2 = now ∧
        (now.call (.isMatch p c)).1 = .matched false) ∧
      (¬ OfNull files path → ∃ failure, (now.call (.update p c)).1 = .updated failure) := by
  intro now
  rw [← digests_eq_none_iff hload]
  cases hdigests : s.digests with
  | none =>
      have hsame : now = s.opened files := Opened.after_of_sealed hdigests calls
      have hsealed : now.store.digests = none := by rw [hsame]; exact hdigests
      obtain ⟨hmatch, hupdate⟩ := Opened.call_of_sealed hsealed p c
      rw [hmatch, hupdate]
      exact ⟨⟨fun _ => rfl, fun _ => rfl⟩, fun _ => ⟨hsame, rfl, rfl⟩, fun hne => absurd rfl hne⟩
  | some m =>
      have hsome : (s.opened files).store.digests.isSome := Option.isSome_iff_exists.mpr ⟨m, hdigests⟩
      have hopen : now.store.digests.isSome := Opened.isSome_after hsome calls
      obtain ⟨m', hm'⟩ := Option.isSome_iff_exists.mp hopen
      obtain ⟨failure, next, hupdate, -⟩ := Opened.call_of_open hm' p c
      rw [hupdate]
      refine ⟨⟨?_, ?_⟩, ?_, fun _ => ⟨failure, rfl⟩⟩ <;>
        · intro h
          cases h

/-- A file with white space around the word, and one that says null of a path, with calls before the update. -/
theorem update_refused_iff_ofNull_of_both :
    let path := text "sha.json"
    let files := (FileTree.standard []).placeHere [path] (.file (text " \tnull\r\n"))
    let files' := (FileTree.standard []).placeHere [path] (.file (text "\x7b\"a\": null\x7d"))
    let m := DigestMap.ofList [(text "a", [])]
    let calls := [Call.update (text "a") (text "x"), .isMatch (text "a") (text "x")]
    load files path = .ok ⟨path, none⟩ ∧ load files' path = .ok ⟨path, some m⟩ ∧
      ((((Store.mk path none).opened files).after calls).call (.update (text "b") [])).1 = .refused .sealedStore ∧
      ∃ failure, ((((Store.mk path (some m)).opened files').after calls).call (.update (text "b") [])).1 =
        .updated failure := by
  intro path files files' m calls
  have hload : load files path = .ok ⟨path, none⟩ := by with_unfolding_all rfl
  have hload' : load files' path = .ok ⟨path, some m⟩ := by with_unfolding_all rfl
  have hnull : OfNull files path := (digests_eq_none_iff hload).mp rfl
  have hnot : ¬ OfNull files' path := fun h => by cases (digests_eq_none_iff hload').mpr h
  exact ⟨hload, hload', (update_refused_iff_ofNull hload calls _ _).1.mpr hnull,
    (update_refused_iff_ofNull hload' calls _ _).2.2 hnot⟩

end Store

end Scriptlet
