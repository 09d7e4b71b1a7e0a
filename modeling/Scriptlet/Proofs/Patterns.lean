import Mathlib.Data.List.Basic
import Scriptlet.FileTree.Glob
import Scriptlet.Proofs.PathTexts

/-!
What patterns stand for. Bytes without a meaning of their own are a run of literals, and a star before such
a run stands for every text without a slash that ends with it. A directory whose path text has no meaning in
patterns is not looked for but taken as it is, so a star and an ending behind it give those of its entries
that end so.
-/

namespace Scriptlet

open Ascii (slash)

namespace Glob

theorem hasMeta_eq_false_iff {s : Bytes} : hasMeta s = false ↔ ∀ b ∈ s, b ∉ text "*?[\\" := by
  have hmeta : text "*?[\\" = [Ascii.star, Ascii.question, Ascii.openBracket, Ascii.backslash] := by decide
  simp [hasMeta, hmeta, and_assoc]

theorem hasMeta_append (s rest : Bytes) : hasMeta (s ++ rest) = (hasMeta s || hasMeta rest) := List.any_append

theorem atom?_of_plain {b : UInt8} (h : hasMeta [b] = false) (rest : Bytes) :
    atom? (b :: rest) = some (.literal b, rest) := by
  simp [hasMeta] at h
  simp [atom?, h]

/-- Bytes without a meaning stand for themselves, up to a star or the end. -/
theorem atoms?_append {s : Bytes} (hs : hasMeta s = false) {rest : Bytes}
    (hrest : (rest.isEmpty || rest.head? = some Ascii.star) = true) :
    atoms? (s ++ rest) = some (s.map .literal, rest) := by
  induction s with
  | nil =>
      rw [List.nil_append, atoms?, if_pos hrest]
      rfl
  | cons b s ih =>
      rw [← List.singleton_append, hasMeta_append, Bool.or_eq_false_iff] at hs
      have hb : b ≠ Ascii.star := by
        rintro rfl
        cases hs.1
      have hatom := atom?_of_plain hs.1 (s ++ rest)
      rw [List.cons_append, atoms?, if_neg (by simpa using hb)]
      split
      · rename_i hnone
        rw [hatom] at hnone
        cases hnone
      · rename_i a left hsome
        rw [hatom] at hsome
        cases hsome
        rw [ih hs.2]
        rfl

theorem foldl_consume?_none (atoms : List Atom) :
    atoms.foldl (fun rest a => rest.bind (Atom.consume? · a)) none = none := by
  induction atoms with
  | nil => rfl
  | cons a atoms ih => exact ih

theorem consume?_literals {lits s left : Bytes} :
    consume? (lits.map .literal) s = some left ↔ s = lits ++ left := by
  induction lits generalizing s with
  | nil => exact Option.some_inj
  | cons b lits ih =>
      rw [List.map_cons, consume?, List.foldl_cons, Option.bind_some, Atom.consume?]
      cases s with
      | nil =>
          rw [if_neg (by simp), foldl_consume?_none]
          simp
      | cons c s =>
          by_cases hc : c = b
          · rw [if_pos (by simp [hc]), hc, List.cons_append, List.cons.injEq]
            exact ih.trans (by simp)
          · rw [if_neg (by simpa using hc), foldl_consume?_none]
            simp [hc]

theorem here?_literals {lits s left : Bytes} :
    here? (lits.map .literal) true s = some left ↔ left = [] ∧ s = lits := by
  rw [here?, Option.filter_eq_some_iff, consume?_literals]
  constructor
  · rintro ⟨hs, hleft⟩
    have hnil : left = [] := by simpa using hleft
    exact ⟨hnil, by rw [hs, hnil, List.append_nil]⟩
  · rintro ⟨rfl, rfl⟩
    exact ⟨(List.append_nil s).symm, rfl⟩

/-- If the ending is not here, what stands in front of it begins with this byte. -/
theorem exists_front_cons {b : UInt8} {s lits : Bytes} (hne : b :: s ≠ lits) :
    (∃ front, slash ∉ front ∧ b :: s = front ++ lits) ↔
      b ≠ slash ∧ ∃ front, slash ∉ front ∧ s = front ++ lits := by
  constructor
  · rintro ⟨front, hslash, heq⟩
    cases front with
    | nil => exact absurd heq hne
    | cons c front =>
        rw [List.mem_cons, not_or] at hslash
        rw [List.cons_append, List.cons.injEq] at heq
        exact ⟨heq.1 ▸ Ne.symm hslash.1, front, hslash.2, heq.2⟩
  · rintro ⟨hb, front, hslash, heq⟩
    refine ⟨b :: front, ?_, by rw [heq, List.cons_append]⟩
    rw [List.mem_cons, not_or]
    exact ⟨Ne.symm hb, hslash⟩

/-- The last run of bytes is looked for until a slash is in the way, and found only at the end. -/
theorem seek?_literals {lits s left : Bytes} :
    seek? (lits.map .literal) true s = some left ↔ left = [] ∧ ∃ front, slash ∉ front ∧ s = front ++ lits := by
  induction s with
  | nil =>
      rw [seek?, here?_literals]
      refine and_congr_right fun _ => ⟨?_, ?_⟩
      · intro h
        exact ⟨[], List.not_mem_nil, h⟩
      · rintro ⟨front, -, h⟩
        exact (List.append_eq_nil_iff.mp h.symm).2.symm
  | cons b s ih =>
      rw [seek?]
      cases hhere : here? (lits.map .literal) true (b :: s) with
      | some found =>
          obtain ⟨rfl, hlits⟩ := here?_literals.mp hhere
          constructor
          · rintro h
            cases h
            exact ⟨rfl, [], List.not_mem_nil, hlits⟩
          · rintro ⟨rfl, -⟩
            rfl
      | none =>
          have hne : b :: s ≠ lits := by
            intro h
            have hfound : here? (lits.map .literal) true (b :: s) = some [] := here?_literals.mpr ⟨rfl, h⟩
            rw [hhere] at hfound
            cases hfound
          rw [exists_front_cons hne]
          dsimp only
          split
          · rename_i hb
            simp [hb]
          · rename_i hb
            rw [ih]
            simp [hb]

theorem dropWhile_star {s : Bytes} (h : s.head? ≠ some Ascii.star) : s.dropWhile (· == Ascii.star) = s := by
  cases s with
  | nil => rfl
  | cons b s => exact List.dropWhile_cons_of_neg (by simpa using h)

theorem head?_ne_star {s : Bytes} (hs : hasMeta s = false) : s.head? ≠ some Ascii.star := by
  cases s with
  | nil => simp
  | cons b s =>
      rintro h
      cases h
      cases hs

theorem segment?_star {tail : Bytes} (h : hasMeta tail = false) :
    segment? (Ascii.star :: tail) = some (⟨true, tail.map .literal⟩, []) := by
  have hatoms : atoms? tail = some (tail.map .literal, []) := by
    rw [← atoms?_append h rfl, List.append_nil]
  rw [segment?, List.dropWhile_cons_of_pos (by rfl), dropWhile_star (head?_ne_star h), hatoms]
  rfl

theorem segment?_append {s : Bytes} (hs : hasMeta s = false) (hne : s ≠ []) (rest : Bytes) :
    segment? (s ++ Ascii.star :: rest) = some (⟨false, s.map .literal⟩, Ascii.star :: rest) := by
  have hhead : (s ++ Ascii.star :: rest).head? ≠ some Ascii.star := by
    rw [List.head?_append_of_ne_nil s hne]
    exact head?_ne_star hs
  rw [segment?, dropWhile_star hhead, atoms?_append hs rfl, beq_eq_false_iff_ne.mpr hhead]

theorem accepts?_cons {b : UInt8} {more rest : Bytes} {segment : Segment}
    (h : segment? (b :: more) = some (segment, rest)) (name : Bytes) :
    accepts? (b :: more) name = (segment.consume? rest.isEmpty name).elim (some false) (accepts? rest) := by
  rw [accepts?]
  split
  · rename_i hnone
    rw [h] at hnone
    cases hnone
  · rename_i hsome
    rw [h] at hsome
    cases hsome
    cases segment.consume? rest.isEmpty name <;> rfl

/-- A star and an ending stand for the names that end so. -/
theorem accepts?_star {tail : Bytes} (hplain : hasMeta tail = false) (hslash : slash ∉ tail) (name : Bytes) :
    accepts? (Ascii.star :: tail) name = some (!name.contains slash && tail.isSuffixOf name) := by
  rw [accepts?_cons (segment?_star hplain)]
  show (seek? (tail.map .literal) true name).elim (some false) (accepts? []) = _
  have hiff : (!name.contains slash && tail.isSuffixOf name) = true ↔
      ∃ front, slash ∉ front ∧ name = front ++ tail := by
    rw [Bool.and_eq_true, Bool.not_eq_true', List.isSuffixOf_iff_suffix]
    constructor
    · rintro ⟨hname, front, rfl⟩
      exact ⟨front, by simp_all, rfl⟩
    · rintro ⟨front, hfront, rfl⟩
      exact ⟨by simp [hfront, hslash], front, rfl⟩
  cases hseek : seek? (tail.map .literal) true name with
  | some left =>
      obtain ⟨rfl, hfront⟩ := seek?_literals.mp hseek
      rw [hiff.mpr hfront, Option.elim_some, accepts?]
      rfl
  | none =>
      have hno : ¬(!name.contains slash && tail.isSuffixOf name) = true := by
        intro h
        have hfound : seek? (tail.map .literal) true name = some [] := seek?_literals.mpr ⟨rfl, hiff.mp h⟩
        rw [hseek] at hfound
        cases hfound
      rw [Option.elim_none, Bool.eq_false_iff.mpr hno]

theorem select?_eq_filter {pattern : Bytes} {p : Bytes → Bool} (h : ∀ name, accepts? pattern name = some (p name))
    (names : List Bytes) : select? pattern names = some (names.filter p) := by
  induction names with
  | nil => rfl
  | cons name names ih =>
      rw [select?, h, ih, List.filter_cons]
      cases p name <;> rfl

theorem foldl_eq_join (outer : List Bytes) (name : Bytes) :
    outer.foldl (fun rest n => n ++ slash :: rest) name = PathText.join (outer.reverse ++ [name]) := by
  induction outer generalizing name with
  | nil => exact (PathText.join_singleton name).symm
  | cons n outer ih => rw [List.foldl_cons, ih, PathText.join_concat_append, List.reverse_cons]

theorem patternText_splitAt {s : Bytes} (h : s ≠ []) : patternText (Bytes.splitAt slash s).reverse = s := by
  have hjoin := PathText.join_splitAt s
  rw [← List.reverse_reverse (Bytes.splitAt slash s)] at hjoin
  unfold patternText
  split
  · rename_i hnil
    rw [hnil] at hjoin
    exact absurd hjoin.symm h
  · rename_i hroot
    rw [hroot] at hjoin
    exact absurd hjoin.symm h
  · rename_i name outer _ heq
    rw [heq, List.reverse_cons] at hjoin
    rw [foldl_eq_join, hjoin]

theorem matches?_plain {s : Bytes} (hs : hasMeta s = false) (hne : s ≠ []) (files : FileTree) (depth : Nat) :
    matches? files depth (Bytes.splitAt slash s).reverse = some [s] := by
  have htext := patternText_splitAt hne
  obtain ⟨name, outer, heq⟩ :=
    List.exists_cons_of_ne_nil (List.reverse_ne_nil_iff.mpr (Bytes.splitAt_ne_nil slash s))
  rw [heq] at htext ⊢
  rw [matches?, htext, hs]
  rfl

/-- The pattern is well-formed, whatever it is compared with. -/
theorem accepts?_directory {directory : Bytes} (hplain : hasMeta directory = false) (hne : directory ≠ [])
    (tail : Bytes) : accepts? (directory ++ slash :: Ascii.star :: tail) [] = some false := by
  have hfront : hasMeta (directory ++ [slash]) = false := by rw [hasMeta_append, hplain]; rfl
  obtain ⟨b, more, rfl⟩ := List.exists_cons_of_ne_nil hne
  have hsegment := segment?_append hfront (by simp) tail
  rw [List.append_assoc, List.singleton_append] at hsegment
  rw [List.cons_append] at hsegment ⊢
  rw [accepts?_cons hsegment]
  show (here? _ false []).elim _ _ = _
  cases hhere : consume? ((b :: more ++ [slash]).map .literal) [] with
  | some left =>
      have := consume?_literals.mp hhere
      cases this
  | none =>
      rw [here?, hhere]
      rfl

theorem matches?_star {directory tail : Bytes} (hplain : hasMeta directory = false) (hne : directory ≠ [])
    (htail : hasMeta tail = false) (hslash : slash ∉ tail) (files : FileTree) {depth : Nat} (hdepth : depth ≠ 0) :
    matches? files depth (Bytes.splitAt slash (directory ++ slash :: Ascii.star :: tail)).reverse =
      some (((files.list directory).filter fun name => !name.contains slash && tail.isSuffixOf name).map
        (entryPath directory)) := by
  have hname : slash ∉ Ascii.star :: tail := by
    rw [List.mem_cons, not_or]
    exact ⟨by decide, hslash⟩
  have htext := patternText_splitAt (show directory ++ slash :: Ascii.star :: tail ≠ [] by simp)
  rw [Bytes.splitAt_append_cons, Bytes.splitAt_eq_singleton hname, List.reverse_append,
    List.reverse_singleton, List.singleton_append] at htext ⊢
  have hmeta : hasMeta (directory ++ slash :: Ascii.star :: tail) = true := by
    rw [hasMeta_append]
    simp [hasMeta]
  rw [matches?, htext, hmeta, accepts?_directory hplain hne, matches?_plain hplain hne]
  simp [hdepth, entriesIn?, select?_eq_filter (accepts?_star htail hslash)]

end Glob

end Scriptlet
