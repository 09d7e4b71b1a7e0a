import Mathlib.Data.List.Basic
import Scriptlet.FileTree.Access

/-!
Joining and cleaning path texts. Splitting a text at its slashes and joining the parts gives the text back.
Cleaning brings in no byte but slashes and dots, and a proper name at the end stays there: the shortest path
text of an entry is that of its directory, a slash and the name.
-/

namespace Scriptlet

open Ascii (slash dot)

namespace PathText

/-- A name that leads down into a directory. -/
abbrev IsName (name : Bytes) : Prop := slash ∉ name ∧ name ≠ [] ∧ name ≠ text "." ∧ name ≠ text ".."

theorem join_singleton (name : Bytes) : join [name] = name := List.intercalate_singleton

theorem join_cons {names : List Bytes} (h : names ≠ []) (name : Bytes) :
    join (name :: names) = name ++ slash :: join names := by
  rw [join, List.intercalate_cons_of_ne_nil h, List.append_assoc]
  rfl

theorem join_concat {names : List Bytes} (h : names ≠ []) (last : Bytes) :
    join (names ++ [last]) = join names ++ slash :: last := by
  induction names with
  | nil => exact absurd rfl h
  | cons name names ih =>
      by_cases hnames : names = []
      · subst hnames
        rw [List.singleton_append, join_cons (List.cons_ne_nil last []), join_singleton, join_singleton]
      · rw [List.cons_append, join_cons (List.append_ne_nil_of_left_ne_nil hnames _), ih hnames, join_cons hnames,
          List.append_assoc, List.cons_append]

theorem exists_join_concat (names : List Bytes) (last : Bytes) :
    ∃ front, join (names ++ [last]) = front ++ last := by
  by_cases h : names = []
  · subst h
    exact ⟨[], join_singleton last⟩
  · exact ⟨join names ++ [slash], by rw [join_concat h, List.append_assoc, List.singleton_append]⟩

theorem join_concat_append (names : List Bytes) (last rest : Bytes) :
    join (names ++ [last ++ slash :: rest]) = join (names ++ [last] ++ [rest]) := by
  rw [join_concat (show names ++ [last] ≠ [] by simp)]
  by_cases h : names = []
  · subst h
    rw [List.nil_append, List.nil_append, join_singleton, join_singleton]
  · rw [join_concat h, join_concat h, List.append_assoc, List.cons_append]

theorem mem_join {b : UInt8} {names : List Bytes} (h : b ∈ join names) :
    b = slash ∨ ∃ name ∈ names, b ∈ name := by
  induction names with
  | nil => cases h
  | cons name names ih =>
      by_cases hnames : names = []
      · subst hnames
        rw [join_singleton] at h
        exact Or.inr ⟨name, List.mem_cons_self, h⟩
      · rw [join_cons hnames, List.mem_append, List.mem_cons] at h
        rcases h with h | h | h
        · exact Or.inr ⟨name, List.mem_cons_self, h⟩
        · exact Or.inl h
        · refine (ih h).imp_right ?_
          rintro ⟨other, hother, hb⟩
          exact ⟨other, List.mem_cons_of_mem name hother, hb⟩

theorem splitAt_join {names : List Bytes} (h : names ≠ []) :
    Bytes.splitAt slash (join names) = names.flatMap (Bytes.splitAt slash) := by
  induction names with
  | nil => exact absurd rfl h
  | cons name names ih =>
      by_cases hnames : names = []
      · subst hnames
        rw [join_singleton, List.flatMap_singleton]
      · rw [join_cons hnames, Bytes.splitAt_append_cons, ih hnames, List.flatMap_cons]

theorem join_splitAt (s : Bytes) : join (Bytes.splitAt slash s) = s := by
  induction s with
  | nil => rfl
  | cons b s ih =>
      rw [Bytes.splitAt]
      split
      · rename_i hb
        rw [join_cons (Bytes.splitAt_ne_nil slash s), ih, List.nil_append, eq_of_beq hb]
      · obtain ⟨part, parts, heq⟩ := List.exists_cons_of_ne_nil (Bytes.splitAt_ne_nil slash s)
        rw [heq] at ih ⊢
        by_cases hparts : parts = []
        · subst hparts
          rw [join_singleton] at ih ⊢
          rw [ih]
        · rw [join_cons hparts] at ih ⊢
          rw [List.cons_append, ih]

/-! ### Shortest forms -/

theorem cleanNames_concat {name : Bytes} (h : IsName name) (rooted : Bool) (passed names : List Bytes) :
    cleanNames rooted passed (names ++ [name]) = cleanNames rooted passed names ++ [name] := by
  obtain ⟨-, hempty, hdot, hdots⟩ := h
  fun_induction cleanNames rooted passed names with
  | case1 passed =>
      simp only [List.nil_append, cleanNames, if_neg (not_or.mpr ⟨hempty, hdot⟩), if_neg hdots, List.reverse_cons]
  | case2 passed first names hskip ih => simp only [List.cons_append, cleanNames, if_pos hskip, ih]
  | case3 names hskip ih => simp only [List.cons_append, cleanNames, if_neg hskip, if_true, ih]
  | case4 names before hskip ih => simp only [List.cons_append, cleanNames, if_neg hskip, if_true, ih]
  | case5 names last before hlast hskip ih =>
      simp only [List.cons_append, cleanNames, if_neg hskip, if_neg hlast, if_true, ih]
  | case6 passed first names hskip hfirst ih =>
      simp only [List.cons_append, cleanNames, if_neg hskip, if_neg hfirst, ih]

theorem mem_cleanNames {rooted : Bool} {passed names : List Bytes} {name : Bytes}
    (h : name ∈ cleanNames rooted passed names) : name ∈ passed ∨ name ∈ names := by
  fun_induction cleanNames rooted passed names with
  | case1 passed => exact Or.inl (List.mem_reverse.mp h)
  | case2 passed first names _ ih => exact (ih h).imp_right (List.mem_cons_of_mem first)
  | case3 names _ ih => cases rooted <;> grind
  | case4 names before _ ih => grind
  | case5 names last before _ _ ih => grind
  | case6 passed first names _ _ ih => grind

/-- A proper name stays at the end, behind a path text that is more than a dot. -/
theorem clean_append {path name : Bytes} (hpath : path ≠ []) (hname : IsName name)
    (hnames : ∀ rooted, cleanNames rooted [] (Bytes.splitAt slash path) ≠ []) :
    clean (path ++ slash :: name) = clean path ++ slash :: name := by
  simp only [clean, List.head?_append_of_ne_nil path hpath, Bytes.splitAt_append_cons,
    Bytes.splitAt_eq_singleton hname.1, cleanNames_concat hname]
  split
  · rw [join_concat (hnames _), List.cons_append]
  · rw [if_neg (hnames _), if_neg (List.append_ne_nil_of_left_ne_nil (hnames _) _), join_concat (hnames _)]

theorem mem_clean {b : UInt8} {path : Bytes} (h : b ∈ clean path) : b = slash ∨ b = dot ∨ b ∈ path := by
  have hjoin {rooted : Bool} (hb : b ∈ join (cleanNames rooted [] (Bytes.splitAt slash path))) :
      b = slash ∨ b = dot ∨ b ∈ path := by
    rcases mem_join hb with hb | ⟨name, hname, hb⟩
    · exact Or.inl hb
    · rcases mem_cleanNames hname with hname | hname
      · cases hname
      · exact Or.inr (Or.inr (Bytes.mem_of_mem_splitAt hname hb))
  unfold clean at h
  dsimp only at h
  split at h
  · rcases List.mem_cons.mp h with h | h
    · exact Or.inl h
    · exact hjoin h
  · split at h
    · exact Or.inr (Or.inl (List.mem_singleton.mp h))
    · exact hjoin h

theorem filter_concat (parts : List Bytes) {last : Bytes} (h : last ≠ []) :
    (parts ++ [last]).filter (!·.isEmpty) = parts.filter (!·.isEmpty) ++ [last] := by
  rw [List.filter_append, List.filter_cons_of_pos (by simpa using h), List.filter_nil]

theorem exists_cleanNames_join {last : Bytes} (h : IsName last) (rooted : Bool) (front : List Bytes) :
    ∃ names, cleanNames rooted [] (Bytes.splitAt slash (join (front ++ [last]))) = names ++ [last] := by
  refine ⟨cleanNames rooted [] (front.flatMap (Bytes.splitAt slash)), ?_⟩
  rw [splitAt_join (by simp), List.flatMap_append,
    List.flatMap_singleton, Bytes.splitAt_eq_singleton h.1, cleanNames_concat h]

theorem exists_joinClean_concat {last : Bytes} (h : IsName last) (parts : List Bytes) :
    ∃ front, joinClean (parts ++ [last]) = front ++ last := by
  rw [joinClean, filter_concat parts h.2.1, clean]
  generalize decide ((join _).head? = some slash) = rooted
  obtain ⟨names, hnames⟩ := exists_cleanNames_join h rooted (parts.filter (!·.isEmpty))
  obtain ⟨front, hfront⟩ := exists_join_concat names last
  rw [hnames, hfront]
  split
  · exact ⟨slash :: front, rfl⟩
  · rw [if_neg (by simp)]
    exact ⟨front, rfl⟩

theorem joinClean_concat_concat {last name : Bytes} (hlast : IsName last) (hname : IsName name) (parts : List Bytes) :
    joinClean (parts ++ [last] ++ [name]) = joinClean (parts ++ [last]) ++ slash :: name := by
  rw [joinClean, joinClean, filter_concat _ hname.2.1, filter_concat parts hlast.2.1,
    join_concat (by simp)]
  apply clean_append _ hname
  · intro rooted
    obtain ⟨names, hnames⟩ := exists_cleanNames_join hlast rooted (parts.filter (!·.isEmpty))
    rw [hnames]
    simp
  · obtain ⟨front, hfront⟩ := exists_join_concat (parts.filter (!·.isEmpty)) last
    rw [hfront]
    exact List.append_ne_nil_of_right_ne_nil front hlast.2.1

theorem mem_joinClean {b : UInt8} {parts : List Bytes} (h : b ∈ joinClean parts) :
    b = slash ∨ b = dot ∨ ∃ part ∈ parts, b ∈ part := by
  rcases mem_clean h with h | h | h
  · exact Or.inl h
  · exact Or.inr (Or.inl h)
  · rcases mem_join h with h | ⟨part, hpart, hb⟩
    · exact Or.inl h
    · exact Or.inr (Or.inr ⟨part, (List.mem_filter.mp hpart).1, hb⟩)

end PathText

end Scriptlet
