import Scriptlet.FileTree.Access
import Scriptlet.Text.Glyph

/-!
Patterns for path texts. A star stands for any bytes, a question mark for any glyph and brackets for one
glyph out of ranges, none of them for a slash between names; a backslash takes the meaning from what
follows it. A pattern is a sequence of segments, each a run of single parts that a star may come before, and
a segment is looked for as early as possible. A segment is read only when it is reached: that a later one
is malformed goes unnoticed if an earlier one is not found.
-/

namespace Scriptlet.Glob

/-- A part of a pattern that stands for one byte or one glyph. -/
inductive Atom where
  | literal (b : UInt8)
  | any
  | oneOf (negated : Bool) (ranges : List (Nat × Nat))
  deriving DecidableEq, Repr

/-- The code point of the character at the front, and what follows it, which must be something. -/
def character? (s : Bytes) : Option (Nat × Bytes) :=
  match Utf8.front? s with
  | none => none
  | some c => if s.drop c.utf8Size = [] then none else some (c.toNat, s.drop c.utf8Size)

/-- A bound of a range in brackets; something must follow it. -/
def bound? : Bytes → Option (Nat × Bytes)
  | [] => none
  | b :: rest =>
    if b = Ascii.minus ∨ b = Ascii.closeBracket then none
    else if b = Ascii.backslash then character? rest
    else character? (b :: rest)

theorem character?_length_lt {s rest : Bytes} {n : Nat} (h : character? s = some (n, rest)) :
    rest.length < s.length := by
  unfold character? at h
  split at h
  · cases h
  · rename_i c _
    split at h
    · cases h
    · rename_i hne
      cases h
      have := c.utf8Size_pos
      have := List.length_pos_iff.mpr hne
      simp only [List.length_drop] at *
      omega

theorem bound?_length_lt {s rest : Bytes} {n : Nat} (h : bound? s = some (n, rest)) :
    rest.length < s.length := by
  unfold bound? at h
  split at h
  · cases h
  · split at h
    · cases h
    · split at h
      · exact Nat.lt_succ_of_lt (character?_length_lt h)
      · exact character?_length_lt h

/-- A range in brackets: one bound, or two with a dash between. -/
def range? (s : Bytes) : Option ((Nat × Nat) × Bytes) :=
  match bound? s with
  | none => none
  | some (low, rest) =>
    if rest.head? = some Ascii.minus then
      match bound? rest.tail with
      | some (high, rest) => some ((low, high), rest)
      | none => none
    else some ((low, low), rest)

theorem range?_length_lt {s rest : Bytes} {r : Nat × Nat} (h : range? s = some (r, rest)) :
    rest.length < s.length := by
  unfold range? at h
  split at h
  · cases h
  · rename_i low rest' heq
    have := bound?_length_lt heq
    split at h
    · split at h
      · rename_i heq'
        cases h
        have := bound?_length_lt heq'
        simp only [List.length_tail] at this
        omega
      · cases h
    · cases h
      exact this

/-- The ranges up to the closing bracket, and what follows it. -/
def ranges? (s : Bytes) : Option (List (Nat × Nat) × Bytes) :=
  match _ : range? s with
  | none => none
  | some (r, rest) =>
    if rest.head? = some Ascii.closeBracket then some ([r], rest.tail)
    else match ranges? rest with
      | some (rs, rest) => some (r :: rs, rest)
      | none => none
termination_by s.length
decreasing_by exact range?_length_lt ‹_›

theorem ranges?_length_lt {s rest : Bytes} {rs : List (Nat × Nat)} (h : ranges? s = some (rs, rest)) :
    rest.length < s.length := by
  fun_induction ranges? s generalizing rs rest with
  | case1 => cases h
  | case2 s r left heq _ =>
    cases h
    have := range?_length_lt heq
    simp only [List.length_tail]
    omega
  | case3 s r left heq _ rs' left' heq' ih =>
    cases h
    have := range?_length_lt heq
    have := ih heq'
    omega
  | case4 => cases h

/-- The part at the front of a text that does not begin with a star, unless it is malformed. -/
def atom? : Bytes → Option (Atom × Bytes)
  | [] => none
  | b :: rest =>
    if b = Ascii.question then some (.any, rest)
    else if b = Ascii.backslash then
      match rest with
      | [] => none
      | c :: rest => some (.literal c, rest)
    else if b = Ascii.openBracket then
      if rest.head? = some Ascii.caret then
        match ranges? rest.tail with
        | some (rs, rest) => some (.oneOf true rs, rest)
        | none => none
      else match ranges? rest with
        | some (rs, rest) => some (.oneOf false rs, rest)
        | none => none
    else some (.literal b, rest)

theorem atom?_length_lt {s rest : Bytes} {a : Atom} (h : atom? s = some (a, rest)) :
    rest.length < s.length := by
  unfold atom? at h
  split at h
  · cases h
  · rename_i b rest'
    split at h
    · cases h
      simp
    · split at h
      · split at h
        · cases h
        · cases h
          simp only [List.length_cons]
          omega
      · split at h
        · split at h
          · split at h
            · rename_i heq
              cases h
              have := ranges?_length_lt heq
              simp only [List.length_tail, List.length_cons] at *
              omega
            · cases h
          · split at h
            · rename_i heq
              cases h
              exact Nat.lt_succ_of_lt (ranges?_length_lt heq)
            · cases h
        · cases h
          simp

/-- The parts up to a star or the end, unless one is malformed, and what follows them. -/
def atoms? (s : Bytes) : Option (List Atom × Bytes) :=
  if s.isEmpty || s.head? = some Ascii.star then some ([], s)
  else match _ : atom? s with
    | none => none
    | some (a, left) =>
      match atoms? left with
      | some (more, rest) => some (a :: more, rest)
      | none => none
termination_by s.length
decreasing_by exact atom?_length_lt ‹_›

theorem atoms?_length_le {s rest : Bytes} {as : List Atom} (h : atoms? s = some (as, rest)) :
    rest.length ≤ s.length := by
  fun_induction atoms? s generalizing as rest with
  | case1 =>
    cases h
    simp
  | case2 => cases h
  | case3 s _ a left heq more rest' heq' ih =>
    cases h
    have := atom?_length_lt heq
    have := ih heq'
    omega
  | case4 => cases h

/-- A run of single parts, and whether a star comes before it. -/
structure Segment where
  star : Bool
  atoms : List Atom
  deriving DecidableEq, Repr

/-- The segment at the front of a pattern, unless it is malformed, and what follows it. Stars in a row count
as one. -/
def segment? (s : Bytes) : Option (Segment × Bytes) :=
  match atoms? (s.dropWhile (· == Ascii.star)) with
  | some (atoms, rest) => some (⟨s.head? == some Ascii.star, atoms⟩, rest)
  | none => none

theorem segment?_length_lt {b : UInt8} {s rest : Bytes} {segment : Segment}
    (h : segment? (b :: s) = some (segment, rest)) : rest.length < (b :: s).length := by
  unfold segment? at h
  split at h
  · rename_i atoms rest' heq
    cases h
    by_cases hb : b = Ascii.star
    · rw [List.dropWhile_cons_of_pos (by simp [hb])] at heq
      have := atoms?_length_le heq
      have := (List.dropWhile_sublist (l := s) (· == Ascii.star)).length_le
      simp only [List.length_cons]
      omega
    · rw [List.dropWhile_cons_of_neg (by simp [hb]), atoms?] at heq
      rw [if_neg (by simp [hb])] at heq
      split at heq
      · cases heq
      · rename_i a left ha
        have := atom?_length_lt ha
        split at heq
        · rename_i hmore
          cases heq
          have := atoms?_length_le hmore
          omega
        · cases heq
  · cases h

/-- The code point at the front of a text that is not empty; stray bytes count as the replacement
character. -/
def frontCode (s : Bytes) : Nat :=
  match Utf8.front? s with
  | some c => c.toNat
  | none => 0xFFFD

def dropGlyph (s : Bytes) : Bytes :=
  match Utf8.front? s with
  | some c => s.drop c.utf8Size
  | none => s.tail

/-- What follows the byte or the glyph at the front, if the atom stands for it. -/
def Atom.consume? (s : Bytes) : Atom → Option Bytes
  | literal b => if s.head? = some b then some s.tail else none
  | any => if s.isEmpty || s.head? = some Ascii.slash then none else some (dropGlyph s)
  | oneOf negated ranges =>
    if s.isEmpty || (ranges.any fun r => r.1 ≤ frontCode s && frontCode s ≤ r.2) == negated then none
    else some (dropGlyph s)

/-- What follows a run at the front, if the atoms stand for it. -/
def consume? (atoms : List Atom) (s : Bytes) : Option Bytes :=
  atoms.foldl (fun rest a => rest.bind (Atom.consume? · a)) (some s)

/-- What follows a run at the front. The last run must use up the text. -/
def here? (atoms : List Atom) (last : Bool) (s : Bytes) : Option Bytes :=
  (consume? atoms s).filter fun rest => !last || rest.isEmpty

/-- What follows the first place of a run, which is not behind a slash. -/
def seek? (atoms : List Atom) (last : Bool) : Bytes → Option Bytes
  | [] => here? atoms last []
  | b :: rest =>
    match here? atoms last (b :: rest) with
    | some left => some left
    | none => if b = Ascii.slash then none else seek? atoms last rest

/-- What follows a segment in a text, if the text begins with what it stands for. -/
def Segment.consume? (segment : Segment) (last : Bool) (s : Bytes) : Option Bytes :=
  if segment.star then seek? segment.atoms last s else here? segment.atoms last s

/-- Whether a pattern stands for all of a name. There is no answer if a malformed segment is reached. -/
def accepts? (pattern name : Bytes) : Option Bool :=
  match pattern with
  | [] => some name.isEmpty
  | b :: more =>
    match _ : segment? (b :: more) with
    | none => none
    | some (segment, rest) =>
      match segment.consume? rest.isEmpty name with
      | some left => accepts? rest left
      | none => some false
termination_by pattern.length
decreasing_by exact segment?_length_lt ‹_›

/-- Whether the text holds anything that has a meaning in patterns. -/
def hasMeta (s : Bytes) : Bool :=
  s.any fun b => b == Ascii.star || b == Ascii.question || b == Ascii.openBracket || b == Ascii.backslash

def entryPath (directory name : Bytes) : Bytes :=
  if directory = text "." then name
  else if directory = [Ascii.slash] then Ascii.slash :: name
  else PathText.join [directory, name]

/-- The names that a pattern stands for, unless one of them reaches a malformed segment. -/
def select? (pattern : Bytes) : List Bytes → Option (List Bytes)
  | [] => some []
  | name :: names =>
    match accepts? pattern name, select? pattern names with
    | some true, some selected => some (name :: selected)
    | some false, some selected => some selected
    | _, _ => none

/-- The path texts of the entries of directories whose names match a pattern, unless one of them reaches a
malformed segment. -/
def entriesIn? (files : FileTree) (pattern : Bytes) : List Bytes → Option (List Bytes)
  | [] => some []
  | directory :: directories =>
    match select? pattern (files.list directory), entriesIn? files pattern directories with
    | some names, some more => some (names.map (entryPath directory) ++ more)
    | _, _ => none

/-- The text of a pattern that is given by its names, the last first. The root is an empty name. -/
def patternText : List Bytes → Bytes
  | [] => text "."
  | [[]] => [Ascii.slash]
  | name :: outer => outer.foldl (fun rest n => n ++ Ascii.slash :: rest) name

/-- How many patterns may be inside each other. -/
def maxDepth : Nat := 10000

/-- The path texts that match a pattern, given by its names, the last first. There is no answer if the
pattern of a directory on the way or a name in one reaches a malformed segment, or if too many patterns are
inside each other. A pattern that stands for itself only is not looked up. -/
def matches? (files : FileTree) (depth : Nat) : List Bytes → Option (List Bytes)
  | [] => some [text "."]
  | name :: outer =>
    let pattern := patternText (name :: outer)
    if !hasMeta pattern then some [pattern]
    else if depth = 0 ∨ accepts? pattern [] = none then none
    else match matches? files (depth - 1) outer with
      | some directories => entriesIn? files name directories
      | none => none

end Scriptlet.Glob
