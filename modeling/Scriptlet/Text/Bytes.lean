/-!
Text as the program handles it: byte strings that need not be valid UTF-8. Sources, names, file
contents and messages are all of this type. The module holds the conversion of literals, the ASCII
classes that the token rules use, and the few searches and splits that the rest needs.
-/

namespace Scriptlet

/-- A byte string, not necessarily valid UTF-8. -/
abbrev Bytes := List UInt8

/-- The UTF-8 encoding of a string. -/
def text (s : String) : Bytes := s.toList.flatMap String.utf8EncodeChar

namespace Ascii

abbrev tab : UInt8 := 0x09
abbrev newline : UInt8 := 0x0A
abbrev carriageReturn : UInt8 := 0x0D
abbrev space : UInt8 := 0x20
abbrev doubleQuote : UInt8 := 0x22
abbrev singleQuote : UInt8 := 0x27
abbrev openParen : UInt8 := 0x28
abbrev closeParen : UInt8 := 0x29
abbrev star : UInt8 := 0x2A
abbrev plus : UInt8 := 0x2B
abbrev comma : UInt8 := 0x2C
abbrev minus : UInt8 := 0x2D
abbrev dot : UInt8 := 0x2E
abbrev slash : UInt8 := 0x2F
abbrev zero : UInt8 := 0x30
abbrev colon : UInt8 := 0x3A
abbrev equals : UInt8 := 0x3D
abbrev question : UInt8 := 0x3F
abbrev openBracket : UInt8 := 0x5B
abbrev backslash : UInt8 := 0x5C
abbrev closeBracket : UInt8 := 0x5D
abbrev caret : UInt8 := 0x5E
abbrev underscore : UInt8 := 0x5F
abbrev openBrace : UInt8 := 0x7B
abbrev closeBrace : UInt8 := 0x7D

/-- `0` to `9`. -/
def isDigit (b : UInt8) : Bool := 0x30 ≤ b && b ≤ 0x39

/-- `A` to `Z` and `a` to `z`. -/
def isLetter (b : UInt8) : Bool := (0x41 ≤ b && b ≤ 0x5A) || (0x61 ≤ b && b ≤ 0x7A)

/-- A byte that may begin a name: a letter or an underscore. -/
def isWordStart (b : UInt8) : Bool := isLetter b || b == underscore

/-- A byte that may continue a name: a letter, a digit or an underscore. -/
def isWord (b : UInt8) : Bool := isWordStart b || isDigit b

end Ascii

namespace Bytes

/-- Whether `needle` occurs in the text as consecutive bytes. -/
def occurs (needle : Bytes) : Bytes → Bool
  | [] => needle.isEmpty
  | b :: rest => needle.isPrefixOf (b :: rest) || occurs needle rest

def firstLine (s : Bytes) : Bytes := s.takeWhile (· != Ascii.newline)

/-- The parts between the occurrences of a byte; always at least one. -/
def splitAt (separator : UInt8) : Bytes → List Bytes
  | [] => [[]]
  | b :: rest =>
    if b == separator then [] :: splitAt separator rest
    else match splitAt separator rest with
      | [] => [[b]]
      | part :: parts => (b :: part) :: parts

theorem splitAt_ne_nil (separator : UInt8) (s : Bytes) : splitAt separator s ≠ [] := by
  cases s with
  | nil => exact List.cons_ne_nil _ _
  | cons b rest =>
    rw [splitAt]
    split
    · exact List.cons_ne_nil _ _
    · split <;> exact List.cons_ne_nil _ _

theorem splitAt_append_cons (separator : UInt8) (s rest : Bytes) :
    splitAt separator (s ++ separator :: rest) = splitAt separator s ++ splitAt separator rest := by
  induction s with
  | nil => exact if_pos (beq_self_eq_true separator)
  | cons b s ih =>
    rw [List.cons_append, splitAt, splitAt, ih]
    split
    · rfl
    · obtain ⟨part, parts, heq⟩ := List.exists_cons_of_ne_nil (splitAt_ne_nil separator s)
      rw [heq]
      rfl

theorem splitAt_eq_singleton {separator : UInt8} {s : Bytes} (h : separator ∉ s) :
    splitAt separator s = [s] := by
  induction s with
  | nil => rfl
  | cons b s ih =>
    rw [List.mem_cons, not_or] at h
    rw [splitAt, if_neg (by simpa using Ne.symm h.1), ih h.2]

theorem mem_of_mem_splitAt {separator b : UInt8} {s part : Bytes} (hpart : part ∈ splitAt separator s)
    (hb : b ∈ part) : b ∈ s := by
  induction s generalizing part with
  | nil =>
    rw [splitAt, List.mem_singleton] at hpart
    exact hpart ▸ hb
  | cons c rest ih =>
    rw [splitAt] at hpart
    split at hpart
    · rcases List.mem_cons.mp hpart with rfl | hpart
      · cases hb
      · exact List.mem_cons_of_mem c (ih hpart hb)
    · obtain ⟨first, parts, heq⟩ := List.exists_cons_of_ne_nil (splitAt_ne_nil separator rest)
      rw [heq] at hpart ih
      rcases List.mem_cons.mp hpart with rfl | hpart
      · rcases List.mem_cons.mp hb with rfl | hb
        · exact List.mem_cons_self
        · exact List.mem_cons_of_mem c (ih List.mem_cons_self hb)
      · exact List.mem_cons_of_mem c (ih (List.mem_cons_of_mem first hpart) hb)

/-- The lines of a text; a newline at its end begins no line. -/
def lines (s : Bytes) : List Bytes :=
  match (splitAt Ascii.newline s).reverse with
  | [] :: rest => rest.reverse
  | rest => rest.reverse

/-- The text with a newline at its end, added only if there is none. -/
def endLine (s : Bytes) : Bytes := if s.getLast? = some Ascii.newline then s else s ++ [Ascii.newline]

def sort (parts : List Bytes) : List Bytes := parts.mergeSort fun a b => decide (a ≤ b)

/-- The text without `tail` at its end, if it ends so. -/
def dropTail (tail s : Bytes) : Bytes :=
  if tail.isSuffixOf s then s.take (s.length - tail.length) else s

theorem dropTail_append (s tail : Bytes) : dropTail tail (s ++ tail) = s := by
  rw [dropTail, if_pos (List.isSuffixOf_iff_suffix.mpr (List.suffix_append s tail)), List.length_append,
    Nat.add_sub_cancel, List.take_left']
  rfl

end Bytes

end Scriptlet
