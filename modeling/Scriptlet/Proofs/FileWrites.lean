import Scriptlet.FileTree.Access

/-!
Writing a file and reading it again. Where a file can be opened for writing, its path text leads through
directories to a proper name, and putting a file under that name changes none of the directories on the way: so
the same path text leads there afterwards, and what was taken of the content is read. A device keeps nothing.
-/

namespace Scriptlet.FileTree

/-! ### Entries after a change -/

theorem get?_insert_self (tree : FileTree) {path : Path} (hpath : path ≠ []) (entry : Entry) :
    (tree.insert path entry).get? path = some entry := by
  rw [get?, if_neg hpath]
  exact List.lookup_cons_self

theorem lookup_filter_ne {path other : Path} (h : other ≠ path) (entries : List (Path × Entry)) :
    (entries.filter fun e => e.1 != path).lookup other = entries.lookup other := by
  induction entries with
  | nil => rfl
  | cons e entries ih =>
      obtain ⟨p, entry⟩ := e
      by_cases hkept : p = path
      · subst hkept
        simp [List.lookup_cons, ih, beq_eq_false_iff_ne.mpr h]
      · simp [hkept, List.lookup_cons, ih]

theorem get?_insert_of_ne (tree : FileTree) {path other : Path} (h : other ≠ path) (entry : Entry) :
    (tree.insert path entry).get? other = tree.get? other := by
  unfold get?
  split
  · rfl
  · show List.lookup other ((path, entry) :: tree.entries.filter fun e => e.1 != path) = _
    rw [List.lookup_cons, beq_eq_false_iff_ne.mpr h]
    exact lookup_filter_ne h tree.entries

theorem step_eq_ok_iff {tree : FileTree} {directory : Path} {name : Bytes} {entry : Entry} :
    tree.step directory name = .ok entry ↔
      name.length ≤ maxName ∧ tree.get? (directory ++ [name]) = some entry := by
  unfold step
  split
  · simp [Nat.not_le.mpr ‹_›]
  · cases tree.get? (directory ++ [name]) <;> simp [Nat.not_lt.mp ‹_›]

theorem step_eq_notFound_iff {tree : FileTree} {directory : Path} {name : Bytes} :
    tree.step directory name = .error .notFound ↔
      name.length ≤ maxName ∧ tree.get? (directory ++ [name]) = none := by
  unfold step
  split
  · simp [Nat.not_le.mpr ‹_›]
  · cases tree.get? (directory ++ [name]) <;> simp [Nat.not_lt.mp ‹_›]

/-- Names that lead somewhere lead there too when an entry is put where no directory is. -/
theorem walk_insert {tree : FileTree} {path : Path} (hpath : tree.get? path ≠ some .directory) (entry : Entry)
    {directory : Path} {names : List Bytes} {found : Path} (h : tree.walk directory names = .ok found) :
    (tree.insert path entry).walk directory names = .ok found := by
  fun_induction tree.walk directory names with
  | case1 directory => exact h
  | case2 directory name names hstay ih =>
      rw [walk, if_pos hstay]
      exact ih h
  | case3 directory names hstay ih =>
      rw [walk, if_neg hstay, if_pos rfl]
      exact ih h
  | case4 directory name names hstay hup hstep ih =>
      obtain ⟨hlength, hdirectory⟩ := step_eq_ok_iff.mp hstep
      have hne : directory ++ [name] ≠ path := by
        rintro rfl
        exact hpath hdirectory
      have hkept : (tree.insert path entry).step directory name = .ok .directory := by
        rw [step_eq_ok_iff, get?_insert_of_ne tree hne]
        exact ⟨hlength, hdirectory⟩
      rw [walk, if_neg hstay, if_neg hup, hkept]
      exact ih h
  | case5 => cases h
  | case6 => cases h

/-! ### Where a path text leads -/

/-- A path text that leads through directories to a proper name in a directory. -/
structure Leads (tree : FileTree) (path : Bytes) (directory : Path) (last : Bytes) : Prop where
  intro ::
  names : ∃ parents, FileTree.names path = .ok (parents ++ [last]) ∧
    tree.walk (tree.origin path) parents = .ok directory
  proper : last ≠ [] ∧ last ≠ text "." ∧ last ≠ text ".."

theorem Leads.find_eq {tree : FileTree} {path : Bytes} {directory : Path} {last : Bytes}
    (h : tree.Leads path directory last) : tree.find path = tree.step directory last := by
  obtain ⟨⟨parents, hnames, hwalk⟩, hproper⟩ := h
  simp [find, hnames, hwalk, hproper, bind, Except.bind]

theorem walk_append (tree : FileTree) (directory : Path) (names names' : List Bytes) :
    tree.walk directory (names ++ names') = (tree.walk directory names).bind fun d => tree.walk d names' := by
  fun_induction tree.walk directory names with
  | case1 directory => rfl
  | case2 directory name names hstay ih => rw [List.cons_append, walk, if_pos hstay, ih]
  | case3 directory names hstay ih => rw [List.cons_append, walk, if_neg hstay, if_pos rfl, ih]
  | case4 directory name names hstay hup hstep ih =>
      rw [List.cons_append, walk, if_neg hstay, if_neg hup, hstep]
      exact ih
  | case5 directory name names hstay hup entry hne hstep =>
      rw [List.cons_append, walk, if_neg hstay, if_neg hup, hstep]
      cases entry with
      | directory => exact absurd rfl hne
      | _ => rfl
  | case6 directory name names hstay hup fault hstep =>
      rw [List.cons_append, walk, if_neg hstay, if_neg hup, hstep]
      rfl

/-- The names without the empty ones at their end. -/
def proper (given : List Bytes) : List Bytes := (given.reverse.dropWhile List.isEmpty).reverse

theorem proper_concat {last : Bytes} (hlast : last ≠ []) (parents : List Bytes) :
    proper (parents ++ [last]) = parents ++ [last] := by
  rw [proper, List.reverse_append, List.reverse_singleton, List.singleton_append, List.dropWhile_cons_of_neg]
  · simp
  · simpa using hlast

theorem proper_concat_nil (parents : List Bytes) : proper (parents ++ [[]]) = proper parents := by
  rw [proper, List.reverse_append, List.reverse_singleton, List.singleton_append, List.dropWhile_cons_of_pos rfl]
  rfl

theorem proper_isPrefix (given : List Bytes) : proper given <+: given := by
  rw [proper, ← List.reverse_suffix, List.reverse_reverse]
  exact List.dropWhile_suffix _

theorem target_of_walk_error {tree : FileTree} {path : Bytes} {parents : List Bytes} {last : Bytes}
    {fault : Fault} (hnames : names path = .ok (parents ++ [last])) (hlast : last ≠ [])
    (hwalk : tree.walk (tree.origin path) parents = .error fault) : tree.target path = .error fault := by
  have hproper : ((parents ++ [last]).reverse.dropWhile List.isEmpty).reverse = parents ++ [last] :=
    proper_concat hlast parents
  simp only [target, hnames, bind, Except.bind, hproper, List.dropLast_concat, hwalk]

/-- The four outcomes for a proper name in a directory. -/
theorem target_cases {tree : FileTree} {path : Bytes} {parents : List Bytes} {last : Bytes} {directory : Path}
    (hnames : names path = .ok (parents ++ [last])) (hlast : last ≠ [])
    (hwalk : tree.walk (tree.origin path) parents = .ok directory) :
    ((last = text "." ∨ last = text "..") ∧ tree.target path = .error .isDirectory) ∨
    (¬(last = text "." ∨ last = text "..") ∧
      (tree.step directory last = .ok .directory ∧ tree.target path = .error .isDirectory ∨
       (∃ fault, tree.step directory last = .error fault ∧ tree.target path = .error fault) ∨
       last.length ≤ maxName ∧ tree.get? (directory ++ [last]) ≠ some .directory ∧
         tree.target path = .ok (directory ++ [last]))) := by
  have hproper : ((parents ++ [last]).reverse.dropWhile List.isEmpty).reverse = parents ++ [last] :=
    proper_concat hlast parents
  simp only [target, hnames, bind, Except.bind, hproper, List.dropLast_concat, List.getLastD_concat, hlast,
    false_or, Nat.lt_irrefl, or_false, hwalk]
  split
  · exact .inl ⟨‹_›, rfl⟩
  · refine .inr ⟨‹_›, ?_⟩
    split
    · exact .inl ⟨‹_›, rfl⟩
    · rename_i entry hne hstep
      obtain ⟨hlength, hget⟩ := step_eq_ok_iff.mp hstep
      rw [hget]
      exact .inr (.inr ⟨hlength, fun heq => hne (Option.some.inj heq), rfl⟩)
    · rename_i hstep
      obtain ⟨hlength, hget⟩ := step_eq_notFound_iff.mp hstep
      rw [hget]
      exact .inr (.inr ⟨hlength, (Option.some_ne_none _).symm, rfl⟩)
    · exact .inr (.inl ⟨_, ‹_›, rfl⟩)

/-- A path text with a slash at its end is no place for a file. -/
theorem target_concat_nil {tree : FileTree} {path : Bytes} {parents : List Bytes}
    (hnames : names path = .ok (parents ++ [[]])) :
    tree.target path = (tree.walk (tree.origin path) (proper parents).dropLast).bind fun _ =>
      .error .isDirectory := by
  have hproper : ((parents ++ [[]]).reverse.dropWhile List.isEmpty).reverse = proper parents :=
    proper_concat_nil parents
  have hlength : (proper parents).length < (parents ++ [[]]).length := by
    rw [List.length_append]
    exact Nat.lt_succ_of_le (proper_isPrefix parents).length_le
  simp only [target, hnames, bind, Except.bind, hproper, hlength, or_true, if_true]

/-- The names of a path text are at least one. -/
theorem exists_of_names {path : Bytes} {given : List Bytes} (h : names path = .ok given) :
    ∃ parents last, given = parents ++ [last] := by
  have hsplit := Bytes.splitAt_ne_nil Ascii.slash path
  unfold names at h
  split at h
  · cases h
  · split at h
    · cases h
    · split at h
      · cases h
      · cases h
        exact ⟨_, _, (List.dropLast_concat_getLast hsplit).symm⟩

theorem exists_names_of_target {tree : FileTree} {path : Bytes} {p : Path} (h : tree.target path = .ok p) :
    ∃ parents last, names path = .ok (parents ++ [last]) ∧ last ≠ [] := by
  cases hnames : names path with
  | error fault =>
      rw [target, hnames] at h
      cases h
  | ok given =>
      obtain ⟨parents, last, rfl⟩ := exists_of_names hnames
      refine ⟨parents, last, rfl, ?_⟩
      rintro rfl
      rw [target_concat_nil hnames] at h
      cases hwalk : tree.walk (tree.origin path) (proper parents).dropLast with
      | error fault => rw [hwalk] at h; cases h
      | ok directory => rw [hwalk] at h; cases h

theorem leads_of_target {tree : FileTree} {path : Bytes} {p : Path} (h : tree.target path = .ok p) :
    ∃ directory last, tree.Leads path directory last ∧ p = directory ++ [last] ∧ last.length ≤ maxName ∧
      tree.get? p ≠ some .directory := by
  obtain ⟨parents, last, hnames, hlast⟩ := exists_names_of_target h
  cases hwalk : tree.walk (tree.origin path) parents with
  | error fault =>
      rw [target_of_walk_error hnames hlast hwalk] at h
      cases h
  | ok directory =>
      have hcases := target_cases hnames hlast hwalk
      rw [h] at hcases
      rcases hcases with ⟨-, herror⟩ | ⟨hdots, ⟨-, herror⟩ | ⟨fault, -, herror⟩ | ⟨hlength, hget, hok⟩⟩
      · cases herror
      · cases herror
      · cases herror
      · cases hok
        rw [not_or] at hdots
        exact ⟨directory, last, ⟨⟨parents, hnames, hwalk⟩, hlast, hdots⟩, rfl, hlength, hget⟩

/-! ### Reading what was written -/

theorem Leads.insert {tree : FileTree} {path : Bytes} {directory : Path} {last : Bytes}
    (h : tree.Leads path directory last) {p : Path} (hp : tree.get? p ≠ some .directory) (entry : Entry) :
    (tree.insert p entry).Leads path directory last := by
  obtain ⟨⟨parents, hnames, hwalk⟩, hproper⟩ := h
  exact ⟨⟨parents, hnames, walk_insert hp entry hwalk⟩, hproper⟩

theorem device?_eq_some_iff {tree : FileTree} {path : Bytes} {p : Path} (h : tree.target path = .ok p)
    {d : Device} : tree.device? path = some d ↔ tree.get? p = some (.device d) := by
  obtain ⟨directory, last, hleads, rfl, hlength, -⟩ := leads_of_target h
  rw [device?, hleads.find_eq, step, if_neg (Nat.not_lt.mpr hlength)]
  cases tree.get? (directory ++ [last]) with
  | none => simp
  | some entry => cases entry <;> simp

theorem write_of_target_error {tree : FileTree} {path : Bytes} {fault : Fault} (h : tree.target path = .error fault)
    (content : Bytes) : tree.write path content = ⟨tree, [], some ⟨.open, path, fault⟩⟩ := by
  rw [write, h]

/-- Writing to a device changes no entry. -/
theorem write_of_device {tree : FileTree} {path : Bytes} {p : Path} (htarget : tree.target path = .ok p)
    {d : Device} (hdevice : tree.device? path = some d) (content : Bytes) :
    tree.write path content = ⟨tree, Break.front (tree.break? p content) content,
      (tree.break? p content).map (Break.error path)⟩ := by
  simp only [write, htarget, (device?_eq_some_iff htarget).mp hdevice]

/-- Writing under a path text that names no device puts a file under its path, with as much of the content as was
taken. -/
theorem write_of_file {tree : FileTree} {path : Bytes} {p : Path} (htarget : tree.target path = .ok p)
    (hdevice : tree.device? path = none) (content : Bytes) :
    tree.write path content = ⟨tree.insert p (.file (Break.front (tree.break? p content) content)),
      Break.front (tree.break? p content) content, (tree.break? p content).map (Break.error path)⟩ := by
  simp only [write, htarget]
  split
  · rename_i d hentry
    rw [(device?_eq_some_iff htarget).mpr hentry] at hdevice
    cases hdevice
  · rfl

theorem failure_write {tree : FileTree} {path : Bytes} {p : Path} (htarget : tree.target path = .ok p)
    (content : Bytes) : (tree.write path content).failure = (tree.break? p content).map (Break.error path) := by
  cases hdevice : tree.device? path with
  | some d => rw [write_of_device htarget hdevice]
  | none => rw [write_of_file htarget hdevice]

/-- A file that was put where a path text leads is found there. -/
theorem find_insert {tree : FileTree} {path : Bytes} {p : Path} (h : tree.target path = .ok p) (content : Bytes) :
    (tree.insert p (.file content)).find path = .ok (.file content) := by
  obtain ⟨directory, last, hleads, rfl, hlength, hget⟩ := leads_of_target h
  rw [(hleads.insert hget _).find_eq, step_eq_ok_iff]
  exact ⟨hlength, get?_insert_self tree (by simp) _⟩

/-- A file that was written as a whole under a path text that names no device is found there. -/
theorem find_of_write {tree : FileTree} {path content : Bytes} (hdevice : tree.device? path = none)
    (h : (tree.write path content).failure = none) :
    (tree.write path content).files.find path = .ok (.file content) := by
  cases htarget : tree.target path with
  | error fault =>
      rw [write_of_target_error htarget] at h
      cases h
  | ok p =>
      rw [failure_write htarget, Option.map_eq_none_iff] at h
      rw [write_of_file htarget hdevice, h]
      exact find_insert htarget content

theorem read_of_find {tree : FileTree} {path content : Bytes} (h : tree.find path = .ok (.file content)) :
    tree.read path = .ok content := by
  rw [read, h]

theorem device?_of_find {tree : FileTree} {path content : Bytes} (h : tree.find path = .ok (.file content)) :
    tree.device? path = none := by
  rw [device?, h]

/-! ### Writing again -/

theorem insert_insert (tree : FileTree) (path : Path) (entry entry' : Entry) :
    (tree.insert path entry).insert path entry' = tree.insert path entry' := by
  have hentries : ((path, entry) :: tree.entries.filter fun e => e.1 != path).filter (fun e => e.1 != path) =
      tree.entries.filter fun e => e.1 != path := by
    rw [List.filter_cons_of_neg (by simp), List.filter_filter]
    simp only [Bool.and_self]
  simp only [insert, erase, hentries]

/-- A file that was put where a path text leads is where it leads afterwards. -/
theorem target_insert {tree : FileTree} {path : Bytes} {p : Path} (h : tree.target path = .ok p) (content : Bytes) :
    (tree.insert p (.file content)).target path = .ok p := by
  obtain ⟨directory, last, hleads, rfl, hlength, hget⟩ := leads_of_target h
  obtain ⟨⟨parents, hnames, hwalk⟩, hlast, hdot, hdots⟩ := hleads.insert hget (.file content)
  have hstep : (tree.insert (directory ++ [last]) (.file content)).step directory last = .ok (.file content) :=
    step_eq_ok_iff.mpr ⟨hlength, get?_insert_self tree (by simp) _⟩
  rcases target_cases hnames hlast hwalk with ⟨hname, -⟩ | ⟨-, ⟨hdirectory, -⟩ | ⟨fault, hfault, -⟩ | ⟨-, -, htarget⟩⟩
  · exact absurd hname (not_or.mpr ⟨hdot, hdots⟩)
  · rw [hstep] at hdirectory
    cases hdirectory
  · rw [hstep] at hfault
    cases hfault
  · exact htarget

theorem break?_insert {tree : FileTree} {path : Bytes} {p : Path} (htarget : tree.target path = .ok p)
    (hdevice : tree.device? path = none) (content content' : Bytes) :
    (tree.insert p (.file content)).break? p content' = tree.break? p content' := by
  obtain ⟨directory, last, -, hp, -⟩ := leads_of_target htarget
  have hbefore : tree.get? p ≠ some (.device .full) := by
    intro hentry
    rw [(device?_eq_some_iff htarget).mpr hentry] at hdevice
    cases hdevice
  have hafter : (tree.insert p (.file content)).get? p ≠ some (.device .full) := by
    rw [get?_insert_self tree (by simp [hp])]
    simp
  rw [break?, break?, if_neg hbefore, if_neg hafter]
  rfl

/-- A path text names the same device before and after a write to it, or none. -/
theorem device?_write (tree : FileTree) (path content : Bytes) :
    (tree.write path content).files.device? path = tree.device? path := by
  cases htarget : tree.target path with
  | error fault => rw [write_of_target_error htarget]
  | ok p =>
      cases hdevice : tree.device? path with
      | some d =>
          rw [write_of_device htarget hdevice]
          exact hdevice
      | none =>
          rw [write_of_file htarget hdevice]
          exact device?_of_find (find_insert htarget _)

/-- Nothing is left of a content that was written over, also if one of the two was not taken as a whole. -/
theorem write_write (tree : FileTree) (path content content' : Bytes) :
    (tree.write path content).files.write path content' = tree.write path content' := by
  cases htarget : tree.target path with
  | error fault => rw [write_of_target_error htarget content]
  | ok p =>
      cases hdevice : tree.device? path with
      | some d => rw [write_of_device htarget hdevice content]
      | none =>
          have hdevice' := tree.device?_write path content
          rw [hdevice, write_of_file htarget hdevice] at hdevice'
          rw [write_of_file htarget hdevice, write_of_file htarget hdevice]
          show (tree.insert p _).write path content' = _
          rw [write_of_file (target_insert htarget _) hdevice', break?_insert htarget hdevice, insert_insert]

/-! ### Path texts that cannot be opened -/

/-- Why a file cannot be opened for writing: a directory on the way is not there or is none, or the path
text names a directory. -/
inductive Blocked (tree : FileTree) (path : Bytes) : Fault → Prop where
  | parent {parents : List Bytes} {last : Bytes} {fault : Fault} (hnames : names path = .ok (parents ++ [last]))
      (hlast : last ≠ []) (hwalk : tree.walk (tree.origin path) parents = .error fault) : Blocked tree path fault
  | directory (hfind : tree.find path = .ok .directory) : Blocked tree path .isDirectory

theorem target_of_find_directory {tree : FileTree} {path : Bytes} (h : tree.find path = .ok .directory) :
    tree.target path = .error .isDirectory := by
  cases hnames : names path with
  | error fault =>
      rw [find, hnames] at h
      cases h
  | ok given =>
      obtain ⟨parents, last, rfl⟩ := exists_of_names hnames
      simp only [find, hnames, bind, Except.bind, List.dropLast_concat, List.getLastD_concat] at h
      cases hwalk : tree.walk (tree.origin path) parents with
      | error fault => rw [hwalk] at h; cases h
      | ok directory =>
          rw [hwalk] at h
          by_cases hlast : last = []
          · subst hlast
            -- the names before the slashes at the end lead somewhere, as all names do
            obtain ⟨more, hmore⟩ := ((List.dropLast_prefix _).trans (proper_isPrefix parents))
            rw [← hmore, walk_append] at hwalk
            rw [target_concat_nil hnames]
            cases hfront : tree.walk (tree.origin path) (proper parents).dropLast with
            | error fault => rw [hfront] at hwalk; cases hwalk
            | ok front => rfl
          · rcases target_cases hnames hlast hwalk with ⟨-, htarget⟩ | ⟨hdots, hstep⟩
            · exact htarget
            · rw [not_or] at hdots
              simp only [hlast, hdots, or_self, if_false] at h
              rcases hstep with ⟨-, htarget⟩ | ⟨fault, hfault, -⟩ | ⟨-, hget, -⟩
              · exact htarget
              · rw [h] at hfault
                cases hfault
              · exact absurd (step_eq_ok_iff.mp h).2 hget

theorem Blocked.target_eq {tree : FileTree} {path : Bytes} {fault : Fault} (h : tree.Blocked path fault) :
    tree.target path = .error fault := by
  cases h with
  | parent hnames hlast hwalk => exact target_of_walk_error hnames hlast hwalk
  | directory hfind => exact target_of_find_directory hfind

end Scriptlet.FileTree
