import Scriptlet.Text.Bytes

/-!
Byte strings read as text. Every byte string is a sequence of glyphs: characters in their UTF-8
encoding, and stray bytes that belong to no such encoding. A byte is stray only when no character's
encoding begins there, so the division into glyphs is unique and putting the bytes of the glyphs
together gives the text back.

Blank glyphs are trimmed. Newlines separate statements, so the token rules skip horizontal blanks only;
messages and file contents are trimmed of all blanks.
-/

namespace Scriptlet

abbrev encodeChar (c : Char) : Bytes := String.utf8EncodeChar c

namespace Utf8

/-- The six payload bits of the byte at an index. -/
def continuation (s : Bytes) (i : Nat) : Nat := (s.getD i 0).toNat % 64

/-- The code point that the payload bits at the front of a text spell, were it well encoded. -/
def payload : Bytes → Nat
  | [] => 0
  | b :: s =>
    if b < 0xC0 then b.toNat
    else if b < 0xE0 then (b.toNat % 32) * 64 + continuation s 0
    else if b < 0xF0 then (b.toNat % 16) * 4096 + continuation s 0 * 64 + continuation s 1
    else (b.toNat % 8) * 262144 + continuation s 0 * 4096 + continuation s 1 * 64 + continuation s 2

/-- The character whose encoding begins the text. A byte below 0x80 is one by itself. -/
def front? : Bytes → Option Char
  | [] => none
  | b :: s =>
    if b < 0x80 then some (Char.ofNat b.toNat)
    else if (encodeChar (Char.ofNat (payload (b :: s)))).isPrefixOf (b :: s) then
      some (Char.ofNat (payload (b :: s)))
    else none

theorem encodeChar_ofNat_toNat {b : UInt8} (h : b < 0x80) : encodeChar (Char.ofNat b.toNat) = [b] := by
  have hall : ∀ n < 128, encodeChar (Char.ofNat n) = [n.toUInt8] := by decide
  rw [hall b.toNat (UInt8.lt_iff_toNat_lt.mp h)]
  simp

/-- What `front?` finds is encoded at the front. -/
theorem encodeChar_prefix_of_front? {s : Bytes} {c : Char} (h : front? s = some c) :
    encodeChar c <+: s := by
  unfold front? at h
  split at h
  · cases h
  · split at h
    · rename_i hb
      cases h
      rw [encodeChar_ofNat_toNat hb]
      exact ⟨_, rfl⟩
    · split at h
      · cases h
        exact List.isPrefixOf_iff_prefix.mp ‹_›
      · cases h

end Utf8

/-- A unit of text: a character, or a byte that is part of no character's encoding. -/
inductive Glyph where
  | char (c : Char)
  | stray (b : UInt8)
  deriving DecidableEq, Repr

namespace Glyph

def bytes : Glyph → Bytes
  | char c => encodeChar c
  | stray b => [b]

/-- Whether the glyph is a character with the property; stray bytes have none. -/
def satisfies (p : Char → Bool) : Glyph → Bool
  | char c => p c
  | stray _ => false

/-- The glyphs of a text after `skip` more bytes of the glyph before. -/
def scan : (skip : Nat) → Bytes → List Glyph
  | _, [] => []
  | skip + 1, _ :: rest => scan skip rest
  | 0, b :: rest =>
    match Utf8.front? (b :: rest) with
    | some c => char c :: scan (c.utf8Size - 1) rest
    | none => stray b :: scan 0 rest

def ofBytes (s : Bytes) : List Glyph := scan 0 s

def toBytes (gs : List Glyph) : Bytes := gs.flatMap bytes

end Glyph

/-- Whether the text is valid UTF-8: it has no stray byte. -/
def Bytes.isUtf8 (s : Bytes) : Bool := (Glyph.ofBytes s).all (Glyph.satisfies fun _ => true)

/-! ### Blanks and trimming -/

/-- The code points of the blank characters, as ranges. -/
def blankRanges : List (Nat × Nat) :=
  [(0x0009, 0x000D), (0x0020, 0x0020), (0x0085, 0x0085), (0x00A0, 0x00A0), (0x1680, 0x1680),
   (0x2000, 0x200A), (0x2028, 0x2029), (0x202F, 0x202F), (0x205F, 0x205F), (0x3000, 0x3000)]

def isBlank (c : Char) : Bool := blankRanges.any fun r => r.1 ≤ c.toNat && c.toNat ≤ r.2

def isHorizontalBlank (c : Char) : Bool := c != '\n' && isBlank c

namespace Bytes

/-- The text from its first glyph on that is not a character with the property, after `skip` bytes of
one that is. -/
def trimStartFrom (p : Char → Bool) : (skip : Nat) → Bytes → Bytes
  | _, [] => []
  | skip + 1, _ :: rest => trimStartFrom p skip rest
  | 0, b :: rest =>
    match Utf8.front? (b :: rest) with
    | some c => if p c then trimStartFrom p (c.utf8Size - 1) rest else b :: rest
    | none => b :: rest

def trimStart (p : Char → Bool) (s : Bytes) : Bytes := trimStartFrom p 0 s

def trimEnd (p : Char → Bool) (s : Bytes) : Bytes :=
  Glyph.toBytes (((Glyph.ofBytes s).reverse.dropWhile (Glyph.satisfies p)).reverse)

def trim (s : Bytes) : Bytes := trimEnd isBlank (trimStart isBlank s)

def isBlank (s : Bytes) : Bool := (trim s).isEmpty

end Bytes

end Scriptlet
