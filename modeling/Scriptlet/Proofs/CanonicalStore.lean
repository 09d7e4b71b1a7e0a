import Scriptlet.Proofs.StorePersistence

/-!
The file of a store has no history. Digests are kept in the order of their paths, so two maps that give the
same digests are the same map and are written as the same text; and every update empties the file and writes
the whole of it, so that nothing is left of what was written before. What updates leave is therefore what a single write of the
digests leaves that count in the end: the order of updates does not matter, nor do those that were
overtaken, nor how the file was written that the store was opened from.
-/

namespace Scriptlet

namespace DigestMap

theorem get?_eq_some_iff {m : DigestMap} {path digest : Bytes} :
    m.get? path = some digest ↔ (path, digest) ∈ m.entries := by
  rw [get?, List.lookup_eq_some_iff]
  constructor
  · rintro ⟨before, after, heq, -⟩
    rw [heq]
    exact List.mem_append_right _ (List.mem_cons_self ..)
  · intro hmem
    obtain ⟨before, after, heq⟩ := List.append_of_mem hmem
    refine ⟨before, after, heq, fun e he => bne_iff_ne.mpr ?_⟩
    have hsorted := m.sorted
    rw [heq, List.pairwise_append] at hsorted
    have hlt := hsorted.2.2 e he (path, digest) (List.mem_cons_self ..)
    rintro rfl
    exact List.lt_irrefl _ hlt

/-- Maps that give the same digests are the same. -/
theorem eq_of_get?_eq {m m' : DigestMap} (h : ∀ path, m.get? path = m'.get? path) : m = m' := by
  have hnodup : ∀ m : DigestMap, m.entries.Nodup := by
    intro m
    refine m.sorted.imp ?_
    rintro a _ hlt rfl
    exact List.lt_irrefl _ hlt
  have hperm : m.entries.Perm m'.entries := by
    rw [List.perm_ext_iff_of_nodup (hnodup m) (hnodup m')]
    rintro ⟨path, digest⟩
    rw [← get?_eq_some_iff, ← get?_eq_some_iff, h]
  have hentries : m.entries = m'.entries :=
    hperm.eq_of_pairwise (fun a b _ _ hab hba => absurd hba (List.lt_asymm hab)) m.sorted m'.sorted
  obtain ⟨entries, _⟩ := m
  obtain ⟨entries', _⟩ := m'
  cases hentries
  rfl

end DigestMap

namespace Store

/-! ### The digests that count -/

/-- The digest of the content that updates stored last under a path, if they stored one. -/
def lastStored? (updates : List (Bytes × Bytes)) (path : Bytes) : Option Bytes :=
  (updates.reverse.lookup path).map Sha256.hex

theorem get?_digestsAfter_eq (m : DigestMap) (updates : List (Bytes × Bytes)) (path : Bytes) :
    (digestsAfter m updates).get? path = (lastStored? updates path).or (m.get? path) := by
  induction updates generalizing m with
  | nil => rfl
  | cons u updates ih =>
      have hfirst : lastStored? (u :: updates) path =
          (lastStored? updates path).or (if path = u.1 then some (Sha256.hex u.2) else none) := by
        rw [lastStored?, List.reverse_cons, List.lookup_append, Option.map_or, lastStored?]
        by_cases h : path = u.1
        · rw [if_pos h, h, List.lookup_cons_self]
          rfl
        · rw [if_neg h, List.lookup_cons, beq_eq_false_iff_ne.mpr h]
          rfl
      rw [hfirst, Option.or_assoc]
      show (digestsAfter (m.insert u.1 (Sha256.hex u.2)) updates).get? path = _
      rw [ih, DigestMap.get?_insert]
      split <;> rfl

/-- Updates that store the same contents last lead to the same digests. -/
theorem digestsAfter_congr (m : DigestMap) {updates updates' : List (Bytes × Bytes)}
    (h : ∀ path, lastStored? updates path = lastStored? updates' path) :
    digestsAfter m updates = digestsAfter m updates' := by
  apply DigestMap.eq_of_get?_eq
  intro path
  rw [get?_digestsAfter_eq, get?_digestsAfter_eq, h]

/-! ### The file that is left -/

/-- Nothing is left of digests that were written over. -/
theorem saved_saved (path : Bytes) (m m' : DigestMap) (files : FileTree) (p p' : Bytes) :
    saved path m' (saved path m files p).files p' = saved path m' files p' := by
  simp only [saved, FileTree.write_write]

/-- Updates leave what writing the digests leaves that count in the end. -/
theorem foldlM_update {path : Bytes} {m : DigestMap} {now : Updated} (h : now.store = ⟨path, some m⟩)
    (updates : List (Bytes × Bytes)) (u : Bytes × Bytes) :
    (updates ++ [u]).foldlM (fun now u => now.store.update now.files u.1 u.2) now =
      .ok (saved path (digestsAfter m (updates ++ [u])) now.files u.1) := by
  induction updates generalizing m now with
  | nil =>
      rw [List.nil_append, List.foldlM_cons, h, update_eq_saved]
      rfl
  | cons v updates ih =>
      rw [List.cons_append, List.foldlM_cons, h, update_eq_saved]
      refine (ih rfl).trans ?_
      rw [saved_saved]
      rfl

theorem updateAll_concat (path : Bytes) (m : DigestMap) (files : FileTree) (updates : List (Bytes × Bytes))
    (u : Bytes × Bytes) :
    updateAll ⟨path, some m⟩ files (updates ++ [u]) =
      .ok (saved path (digestsAfter m (updates ++ [u])) files u.1) := foldlM_update rfl updates u

/-- What updates leave that can be made: a sealed store takes none. -/
theorem eq_of_updateAll {s : Store} {files : FileTree} {updates : List (Bytes × Bytes)} {u : Bytes × Bytes}
    {final : Updated} (h : updateAll s files (updates ++ [u]) = .ok final) :
    ∃ m, s = ⟨s.path, some m⟩ ∧ final = saved s.path (digestsAfter m (updates ++ [u])) files u.1 := by
  obtain ⟨path, digests⟩ := s
  cases digests with
  | none => cases updates <;> cases h
  | some m =>
      rw [updateAll_concat] at h
      exact ⟨m, rfl, (Except.ok.inj h).symm⟩

theorem read_of_updateAll {s : Store} {m : DigestMap} (hs : s = ⟨s.path, some m⟩) {files : FileTree}
    {updates : List (Bytes × Bytes)} {u : Bytes × Bytes} {final : Updated}
    (h : updateAll s files (updates ++ [u]) = .ok final) (hwritten : final.failure = none)
    (hdevice : files.device? s.path = none) :
    final.files.read s.path = .ok (encode (digestsAfter m (updates ++ [u]))) := by
  rw [hs, updateAll_concat] at h
  cases h
  exact read_saved hdevice hwritten

/-- Of the updates that lead to the same contents only the line that is logged tells which they were. -/
theorem updateAll_congr {s : Store} {files : FileTree} {updates updates' : List (Bytes × Bytes)}
    {u u' : Bytes × Bytes} {final : Updated}
    (hsame : ∀ path, lastStored? (updates ++ [u]) path = lastStored? (updates' ++ [u']) path)
    (h : updateAll s files (updates ++ [u]) = .ok final) :
    updateAll s files (updates' ++ [u']) = .ok { final with log := text "updated sha for " ++ u'.1 } := by
  obtain ⟨m, hs, rfl⟩ := eq_of_updateAll h
  rw [hs, updateAll_concat, digestsAfter_congr m hsame]
  rfl

theorem lastStored?_swap {p q : Bytes} (hne : p ≠ q) (c d path : Bytes) :
    lastStored? [(p, c), (q, d)] path = lastStored? [(q, d), (p, c)] path := by
  simp only [lastStored?, List.reverse_cons, List.reverse_nil, List.nil_append, List.cons_append, List.lookup_cons,
    List.lookup_nil]
  by_cases hp : path = p
  · rw [hp, beq_self_eq_true, beq_eq_false_iff_ne.mpr hne]
  · rw [beq_eq_false_iff_ne.mpr hp]

theorem lastStored?_repeat (updates : List (Bytes × Bytes)) (p c path : Bytes) :
    lastStored? (updates ++ [(p, c)]) path = lastStored? (updates ++ [(p, c)] ++ [(p, c)]) path := by
  simp only [lastStored?, List.reverse_append, List.reverse_cons, List.reverse_nil, List.nil_append, List.cons_append,
    List.lookup_cons]
  cases path == p <;> rfl

/-- Updates of stores with the same digests that store the same contents last. If neither store is kept in a device
and the last update of each was written, the two files have the same content. If the updates are made to one
store, all that they leave but the line that is logged is the same. In particular the updates of two paths can be
made in either order, and an update can be repeated. -/
theorem updateAll_canonical {s s' : Store} (hdigests : s.digests = s'.digests) (files files' : FileTree) :
    (∀ updates u updates' u' final final',
      (∀ path, lastStored? (updates ++ [u]) path = lastStored? (updates' ++ [u']) path) →
      updateAll s files (updates ++ [u]) = .ok final → updateAll s' files' (updates' ++ [u']) = .ok final' →
      final.failure = none → final'.failure = none →
      files.device? s.path = none → files'.device? s'.path = none →
      ∃ content, final.files.read s.path = .ok content ∧ final'.files.read s'.path = .ok content) ∧
    (∀ updates u updates' u' final,
      (∀ path, lastStored? (updates ++ [u]) path = lastStored? (updates' ++ [u']) path) →
      updateAll s files (updates ++ [u]) = .ok final →
      updateAll s files (updates' ++ [u']) = .ok { final with log := text "updated sha for " ++ u'.1 }) ∧
    (∀ p c q d final, p ≠ q → updateAll s files [(p, c), (q, d)] = .ok final →
      updateAll s files [(q, d), (p, c)] = .ok { final with log := text "updated sha for " ++ p }) ∧
    ∀ updates p c final, updateAll s files (updates ++ [(p, c)]) = .ok final →
      updateAll s files (updates ++ [(p, c), (p, c)]) = .ok final := by
  refine ⟨?_, fun _ _ _ _ _ hsame h => updateAll_congr hsame h, ?_, ?_⟩
  · intro updates u updates' u' final final' hsame h h' hwritten hwritten' hdevice hdevice'
    obtain ⟨m, hs, -⟩ := eq_of_updateAll h
    obtain ⟨m', hs', -⟩ := eq_of_updateAll h'
    have hm : m = m' := by
      rw [hs, hs'] at hdigests
      exact Option.some.inj hdigests
    subst hm
    refine ⟨_, read_of_updateAll hs h hwritten hdevice, ?_⟩
    rw [read_of_updateAll hs' h' hwritten' hdevice', digestsAfter_congr m hsame]
  · intro p c q d final hne h
    have hsame : ∀ path, lastStored? ([(p, c)] ++ [(q, d)]) path = lastStored? ([(q, d)] ++ [(p, c)]) path :=
      lastStored?_swap hne c d
    exact updateAll_congr hsame h
  · intro updates p c final h
    have hrepeat := updateAll_congr (lastStored?_repeat updates p c) h
    obtain ⟨m, -, rfl⟩ := eq_of_updateAll h
    rw [List.append_assoc] at hrepeat
    exact hrepeat

/-- Stores of the same digests, opened from files of different hands, after updates in different orders. One of the
paths is not valid text. -/
theorem updateAll_canonical_two_hands :
    let files := (FileTree.standard []).placeHere [text "a.json"]
      (.file (text "\x7b\"a\":null,\"b\":\"old\"\x7d"))
    let files' := (FileTree.standard []).placeHere [text "b.json"]
      (.file (text " \x7b \"\\u0061\" : \"\", \"b\" : \"old\" \x7d\n"))
    let m := DigestMap.ofList [(text "a", []), (text "b", text "old")]
    let updates := [(text "b", text "1"), ([0xFF], text "2")]
    load files (text "a.json") = .ok ⟨text "a.json", some m⟩ ∧
      load files' (text "b.json") = .ok ⟨text "b.json", some m⟩ ∧
      ∃ final final', updateAll ⟨text "a.json", some m⟩ files (updates ++ [(text "b", text "3")]) = .ok final ∧
        updateAll ⟨text "b.json", some m⟩ files' ([(text "b", text "3")] ++ [([0xFF], text "2")]) = .ok final' ∧
        ∃ content, final.files.read (text "a.json") = .ok content ∧
          final'.files.read (text "b.json") = .ok content := by
  intro files files' m updates
  let s : Store := ⟨text "a.json", some m⟩
  let s' : Store := ⟨text "b.json", some m⟩
  have hload : load files s.path = .ok s := by with_unfolding_all rfl
  have hload' : load files' s'.path = .ok s' := by with_unfolding_all rfl
  have hdevice : files.device? s.path = none := by with_unfolding_all rfl
  have hdevice' : files'.device? s'.path = none := by with_unfolding_all rfl
  have hwritten : (files.write s.path (encode (digestsAfter m (updates ++ [(text "b", text "3")])))).failure =
      none := by with_unfolding_all rfl
  have hwritten' : (files'.write s'.path
      (encode (digestsAfter m ([(text "b", text "3")] ++ [([0xFF], text "2")])))).failure = none := by
    with_unfolding_all rfl
  have hsame : ∀ path, lastStored? (updates ++ [(text "b", text "3")]) path =
      lastStored? ([(text "b", text "3")] ++ [([0xFF], text "2")]) path := by
    intro path
    show ([(text "b", text "3"), ([0xFF], text "2"), (text "b", text "1")].lookup path).map Sha256.hex =
      ([([0xFF], text "2"), (text "b", text "3")].lookup path).map Sha256.hex
    by_cases hpath : path = text "b"
    · rw [hpath]
      rfl
    · simp only [List.lookup_cons, List.lookup_nil, beq_eq_false_iff_ne.mpr hpath]
  have hdigests : s.digests = s'.digests := rfl
  have hrun := updateAll_concat s.path m files updates (text "b", text "3")
  have hrun' := updateAll_concat s'.path m files' [(text "b", text "3")] ([0xFF], text "2")
  refine ⟨hload, hload', _, _, hrun, hrun', ?_⟩
  exact (updateAll_canonical hdigests files files').1 _ _ _ _ _ _ hsame hrun hrun' hwritten hwritten' hdevice hdevice'

/-- A device takes the same update as a file and keeps nothing of it. -/
theorem update_of_device_differs :
    let files := FileTree.standard []
    let s : Store := ⟨text "/dev/null", some .empty⟩
    let s' : Store := ⟨text "sha.json", some .empty⟩
    load files s.path = .ok s ∧ load files s'.path = .ok s' ∧
      ∃ final final', updateAll s files [(text "a", text "x")] = .ok final ∧
        updateAll s' files [(text "a", text "x")] = .ok final' ∧
        final.failure = none ∧ final'.failure = none ∧
        final.files.read s.path ≠ final'.files.read s'.path := by
  intro files s s'
  have hload : load files s.path = .ok s := by with_unfolding_all rfl
  have hload' : load files s'.path = .ok s' := by with_unfolding_all rfl
  have hdevice' : files.device? s'.path = none := by with_unfolding_all rfl
  have hkept : ∀ content, files.write s.path content = ⟨files, content, none⟩ := by
    intro content
    with_unfolding_all rfl
  have hwritten' : (files.write s'.path (encode (digestsAfter .empty ([] ++ [(text "a", text "x")])))).failure =
      none := by with_unfolding_all rfl
  have hblank : files.read s.path = .ok [] := by with_unfolding_all rfl
  have hrun := updateAll_concat s.path .empty files [] (text "a", text "x")
  have hrun' := updateAll_concat s'.path .empty files [] (text "a", text "x")
  rw [saved, hkept] at hrun
  refine ⟨hload, hload', _, _, hrun, hrun', rfl, hwritten', ?_⟩
  rw [read_of_updateAll rfl hrun' hwritten' hdevice', hblank]
  exact fun h => by cases h

end Store

end Scriptlet
