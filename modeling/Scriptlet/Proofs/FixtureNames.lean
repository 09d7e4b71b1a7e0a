import Mathlib.Data.List.Nodup
import Mathlib.Data.Set.Card
import Scriptlet.Fixture
import Scriptlet.Proofs.Patterns

/-!
Which fixtures are found. The entries of a directory have different names, and those that end in the ending
of sources give different names without it, so that sorting puts the names of the fixtures in strictly
increasing order, each once. All of this is about the subdirectory that the path text in its shortest form
names; if there is no such directory, it has no entries.
-/

namespace Scriptlet

open Ascii (slash)

/-! ### Entries of a directory -/

namespace FileTree

/-- The path text names a directory that has an entry of that name, whatever the entry is. No slash is in the
name of an entry. -/
def HasEntry (tree : FileTree) (path name : Bytes) : Prop :=
  slash ∉ name ∧ ∃ given directory, names path = .ok given ∧ tree.walk (tree.origin path) given = .ok directory ∧
    (tree.get? (directory ++ [name])).isSome

theorem childName?_eq_some_iff {directory path : Path} {name : Bytes} :
    childName? directory path = some name ↔ path = directory ++ [name] := by
  fun_induction childName? directory path with
  | case1 first => simp
  | case2 directory first path ih => simpa using ih
  | case3 outer directory first path hne => simp [Ne.symm hne]
  | case4 directory path hnil hcons =>
      refine iff_of_false (Option.some_ne_none name).symm ?_
      rintro rfl
      cases directory with
      | nil => exact hnil name rfl rfl
      | cons outer directory => exact hcons outer directory outer _ rfl rfl

theorem mem_children {tree : FileTree} {directory : Path} {name : Bytes} :
    name ∈ tree.children directory ↔ (tree.get? (directory ++ [name])).isSome := by
  rw [get?, if_neg (by simp), List.lookup_isSome_iff, children, List.mem_filterMap]
  simp only [childName?_eq_some_iff, beq_iff_eq]
  exact exists_congr fun e => and_congr_right fun _ => eq_comm

theorem nodup_children (tree : FileTree) (directory : Path) : (tree.children directory).Nodup := by
  have hchildren : tree.children directory = (tree.entries.map Prod.fst).filterMap (childName? directory) := by
    rw [List.filterMap_map]
    rfl
  rw [hchildren]
  apply tree.nodup.filterMap
  intro path other name hpath hother
  rw [childName?_eq_some_iff.mp hpath, childName?_eq_some_iff.mp hother]

theorem nodup_list (tree : FileTree) (path : Bytes) : (tree.list path).Nodup := by
  unfold list
  split
  · exact tree.nodup_children _
  · exact List.nodup_nil

theorem hasEntry_iff {tree : FileTree} {path name : Bytes} :
    tree.HasEntry path name ↔ slash ∉ name ∧ name ∈ tree.list path := by
  refine and_congr_right fun _ => ?_
  rw [list]
  cases hnames : names path with
  | error fault => simp [Except.bind]
  | ok given =>
      cases hwalk : tree.walk (tree.origin path) given with
      | error fault => simp [Except.bind, hwalk]
      | ok directory => simp [Except.bind, hwalk, mem_children]

end FileTree

/-! ### Order -/

namespace Bytes

theorem perm_sort (parts : List Bytes) : (sort parts).Perm parts := List.mergeSort_perm parts _

theorem pairwise_le_sort (parts : List Bytes) : (sort parts).Pairwise (· ≤ ·) := by
  have h : (sort parts).Pairwise fun a b => decide (a ≤ b) = true := by
    apply List.pairwise_mergeSort
    · intro a b c hab hbc
      exact decide_eq_true (List.le_trans (of_decide_eq_true hab) (of_decide_eq_true hbc))
    · intro a b
      simpa using List.le_total a b
  exact h.imp of_decide_eq_true

/-- Different texts are put in strictly increasing order. -/
theorem pairwise_sort {parts : List Bytes} (h : parts.Nodup) : (sort parts).Pairwise (· < ·) := by
  have hne : (sort parts).Pairwise (· ≠ ·) := (perm_sort parts).nodup_iff.mpr h
  refine ((pairwise_le_sort parts).and hne).imp ?_
  intro a b hab
  exact (List.le_iff_lt_or_eq.mp hab.1).resolve_right hab.2

theorem sort_eq {parts sorted : List Bytes} (hperm : parts.Perm sorted) (hsorted : sorted.Pairwise (· ≤ ·)) :
    sort parts = sorted :=
  ((perm_sort parts).trans hperm).eq_of_pairwise (fun _ _ _ _ => List.le_antisymm) (pairwise_le_sort parts) hsorted

end Bytes

/-! ### The sources of a directory -/

/-- The path text of the subdirectory that the sources of a directory are in. -/
def sourceDirectory (directory : Bytes) : Bytes := PathText.joinClean [directory, text "rb"]

theorem sourcePattern_eq (directory : Bytes) :
    sourcePattern directory = sourceDirectory directory ++ slash :: Ascii.star :: text ".rb" :=
  PathText.joinClean_concat_concat (by decide) (by decide) [directory]

theorem two_le_length_sourceDirectory (directory : Bytes) : 2 ≤ (sourceDirectory directory).length := by
  obtain ⟨front, hfront⟩ := PathText.exists_joinClean_concat (show PathText.IsName (text "rb") by decide) [directory]
  have hlength : (text "rb").length = 2 := rfl
  rw [sourceDirectory, ← List.singleton_append, hfront, List.length_append, hlength]
  exact Nat.le_add_left 2 front.length

theorem hasMeta_sourceDirectory {directory : Bytes} (h : Glob.hasMeta directory = false) :
    Glob.hasMeta (sourceDirectory directory) = false := by
  have hrb : Glob.hasMeta (text "rb") = false := by decide
  rw [Glob.hasMeta_eq_false_iff] at h hrb ⊢
  intro b hb
  rcases PathText.mem_joinClean hb with rfl | rfl | ⟨part, hpart, hbyte⟩
  · decide
  · decide
  · rcases List.mem_pair.mp hpart with rfl | rfl
    · exact h b hbyte
    · exact hrb b hbyte

def sourceNames (files : FileTree) (directory : Bytes) : List Bytes :=
  (files.list (sourceDirectory directory)).filter fun name => !name.contains slash && (text ".rb").isSuffixOf name

theorem mem_sourceNames {files : FileTree} {directory name : Bytes} :
    name ∈ sourceNames files directory ↔ files.HasEntry (sourceDirectory directory) name ∧ text ".rb" <:+ name := by
  rw [sourceNames, List.mem_filter, FileTree.hasEntry_iff, Bool.and_eq_true, List.isSuffixOf_iff_suffix]
  simp only [Bool.not_eq_true', List.contains_eq_mem, decide_eq_false_iff_not]
  constructor
  · rintro ⟨hlist, hname, htail⟩
    exact ⟨⟨hname, hlist⟩, htail⟩
  · rintro ⟨⟨hname, hlist⟩, htail⟩
    exact ⟨hlist, hname, htail⟩

theorem nodup_sourceNames (files : FileTree) (directory : Bytes) : (sourceNames files directory).Nodup :=
  (files.nodup_list _).filter _

theorem ncard_sources (files : FileTree) (directory : Bytes) :
    {entry | files.HasEntry (sourceDirectory directory) entry ∧ text ".rb" <:+ entry}.ncard =
      (sourceNames files directory).length := by
  have hset : {entry | files.HasEntry (sourceDirectory directory) entry ∧ text ".rb" <:+ entry} =
      ((sourceNames files directory).toFinset : Set Bytes) := by
    ext entry
    rw [Set.mem_ofPred_eq, ← mem_sourceNames, List.coe_toFinset, Set.mem_ofPred_eq]
  rw [hset, Set.ncard_coe_finset, List.toFinset_card_of_nodup (nodup_sourceNames files directory)]

theorem fixtureName_entryPath {directory name : Bytes} (h : slash ∉ name) :
    fixtureName (Glob.entryPath (sourceDirectory directory) name) = Bytes.dropTail (text ".rb") name := by
  have hlength := two_le_length_sourceDirectory directory
  have hne {path : Bytes} (hpath : path.length = 1) : sourceDirectory directory ≠ path := by
    rintro rfl
    omega
  rw [Glob.entryPath, if_neg (hne rfl), if_neg (hne rfl), PathText.join_cons (List.cons_ne_nil name []),
    PathText.join_singleton, fixtureName, Bytes.splitAt_append_cons, Bytes.splitAt_eq_singleton h, List.getLastD_concat]

/-- The fixtures are the sources without the ending, in order. -/
theorem locate_eq {directory : Bytes} (h : Glob.hasMeta directory = false) (files : FileTree) (least : Int) :
    locate files directory least =
      if ((sourceNames files directory).length : Int) < least then
        .error (.tooFew least directory (sourceNames files directory).length)
      else .ok (Bytes.sort ((sourceNames files directory).map (Bytes.dropTail (text ".rb")))) := by
  have hne : sourceDirectory directory ≠ [] := by
    intro hnil
    have hlength := two_le_length_sourceDirectory directory
    rw [hnil] at hlength
    cases hlength
  have hmatches := Glob.matches?_star (hasMeta_sourceDirectory h) hne (show Glob.hasMeta (text ".rb") = false by decide)
    (show slash ∉ text ".rb" by decide) files (show Glob.maxDepth ≠ 0 by decide)
  have hnames : ((sourceNames files directory).map (Glob.entryPath (sourceDirectory directory))).map fixtureName =
      (sourceNames files directory).map (Bytes.dropTail (text ".rb")) := by
    rw [List.map_map]
    apply List.map_congr_left
    intro name hname
    exact fixtureName_entryPath (mem_sourceNames.mp hname).1.1
  rw [← sourcePattern_eq] at hmatches
  simp only [locate, hmatches]
  rw [← sourceNames, List.length_map, hnames]

theorem mem_map_dropTail {names : List Bytes} {tail n : Bytes} (h : ∀ name ∈ names, tail <:+ name) :
    n ∈ names.map (Bytes.dropTail tail) ↔ n ++ tail ∈ names := by
  rw [List.mem_map]
  constructor
  · rintro ⟨name, hname, rfl⟩
    obtain ⟨front, rfl⟩ := h name hname
    rw [Bytes.dropTail_append]
    exact hname
  · intro hn
    exact ⟨n ++ tail, hn, Bytes.dropTail_append n tail⟩

theorem nodup_map_dropTail {names : List Bytes} {tail : Bytes} (h : ∀ name ∈ names, tail <:+ name)
    (hnodup : names.Nodup) : (names.map (Bytes.dropTail tail)).Nodup := by
  apply hnodup.map_on
  intro a ha b hb heq
  obtain ⟨front, rfl⟩ := h a ha
  obtain ⟨other, rfl⟩ := h b hb
  rw [Bytes.dropTail_append, Bytes.dropTail_append] at heq
  rw [heq]

/-- A directory without a meaning in patterns has its fixtures found exactly if it has enough sources, and
they are found once each, in strictly increasing order. -/
theorem locate_lists_fixtures (files : FileTree) (directory : Bytes) (least : Int)
    (hplain : ∀ b ∈ directory, b ∉ text "*?[\\") :
    ((∃ names, locate files directory least = .ok names) ↔
      least ≤ {entry | files.HasEntry (sourceDirectory directory) entry ∧ text ".rb" <:+ entry}.ncard) ∧
    ∀ names, locate files directory least = .ok names →
      names.Pairwise (· < ·) ∧ ∀ n, n ∈ names ↔ files.HasEntry (sourceDirectory directory) (n ++ text ".rb") := by
  have htails : ∀ name ∈ sourceNames files directory, text ".rb" <:+ name := fun _ h => (mem_sourceNames.mp h).2
  rw [ncard_sources, locate_eq (Glob.hasMeta_eq_false_iff.mpr hplain)]
  refine ⟨?_, ?_⟩
  · split
    · rename_i hfew
      exact iff_of_false (by simp) (by omega)
    · rename_i hfew
      exact iff_of_true ⟨_, rfl⟩ (by omega)
  · intro names hnames
    split at hnames
    · cases hnames
    · cases hnames
      -- names stay different without the ending, so the order is strict
      refine ⟨Bytes.pairwise_sort (nodup_map_dropTail htails (nodup_sourceNames files directory)), ?_⟩
      intro n
      rw [(Bytes.perm_sort _).mem_iff, mem_map_dropTail htails, mem_sourceNames]
      exact and_iff_left (List.suffix_append n _)

/-- A tree whose sources are in another order with the ending than without it. -/
def entangledSources : FileTree :=
  [text ".rb", text "a.rb", text "a-b.rb", text "a.rb.rb", text "b"].foldl
    (fun files name => files.place [text "rb", name] .directory) .empty

theorem locate_lists_fixtures_entangled :
    (∀ b ∈ text "x/..//.", b ∉ text "*?[\\") ∧
    locate entangledSources (text "x/..//.") 4 = .ok [[], text "a", text "a-b", text "a.rb"] ∧
    ∀ n, n ∈ [[], text "a", text "a-b", text "a.rb"] ↔ entangledSources.HasEntry (text "rb") (n ++ text ".rb") := by
  have hmeta : Glob.hasMeta (text "x/..//.") = false := by decide
  have hplain := Glob.hasMeta_eq_false_iff.mp hmeta
  have hsources : sourceNames entangledSources (text "x/..//.") =
      [text "a.rb.rb", text "a-b.rb", text "a.rb", text ".rb"] := by
    with_unfolding_all rfl
  have hsort : Bytes.sort [text "a.rb", text "a-b", text "a", []] = [[], text "a", text "a-b", text "a.rb"] := by
    apply Bytes.sort_eq
    · decide
    · decide
  have hlocate : locate entangledSources (text "x/..//.") 4 = .ok [[], text "a", text "a-b", text "a.rb"] := by
    rw [locate_eq hmeta, hsources, if_neg (by decide)]
    exact congrArg Except.ok hsort
  exact ⟨hplain, hlocate, ((locate_lists_fixtures entangledSources (text "x/..//.") 4 hplain).2 _ hlocate).2⟩

end Scriptlet
