import Scriptlet.Text.Quoted

/-!
JSON text. It is cut into lexemes, and values are built from these with a stack of the arrays and objects that
are still open, so that the depth of nesting, which is limited, is the height of the stack.

Bytes that are not valid UTF-8 are taken for the replacement character, which is allowed in strings only. A
string may spell a character beyond the basic plane as a pair of escapes; half a pair alone stands for the
replacement character.

In written strings quotes, backslashes and control characters are escaped, and so are the characters that have
a meaning in markup and the two line separators, so that the text can be put into a page or a script.
-/

namespace Scriptlet.Json

open Ascii

/-! ### Strings that are read -/

/-- The character that stands for what cannot be decoded. -/
def replacement : Char := Char.ofNat 0xFFFD

/-- The text with the replacement character for each stray byte. -/
def repair (s : Bytes) : Bytes :=
  (Glyph.ofBytes s).flatMap fun
    | .char c => encodeChar c
    | .stray _ => encodeChar replacement

/-- A piece of a string: a byte that stands for itself, or a code unit that was spelled as an escape. -/
inductive Piece where
  | byte (b : UInt8)
  | unit (code : Nat)
  deriving DecidableEq, Repr

def hexValue? (b : UInt8) : Option Nat :=
  if 0x30 ≤ b && b ≤ 0x39 then some (b.toNat - 0x30)
  else if 0x41 ≤ b && b ≤ 0x46 then some (b.toNat - 0x37)
  else if 0x61 ≤ b && b ≤ 0x66 then some (b.toNat - 0x57)
  else none

/-- The code unit that four hexadecimal digits spell. -/
def codeUnit? (a b c d : UInt8) : Option Nat :=
  match hexValue? a, hexValue? b, hexValue? c, hexValue? d with
  | some a, some b, some c, some d => some (((a * 16 + b) * 16 + c) * 16 + d)
  | _, _, _, _ => none

def letterEscape? (b : UInt8) : Option UInt8 :=
  match b with
  | 0x22 => some 0x22
  | 0x2F => some 0x2F
  | 0x5C => some 0x5C
  | 0x62 => some 0x08
  | 0x66 => some 0x0C
  | 0x6E => some 0x0A
  | 0x72 => some 0x0D
  | 0x74 => some 0x09
  | _ => none

/-- The pieces of a string up to its closing quote, and what follows the quote. -/
def pieces? : Bytes → Option (List Piece × Bytes)
  | [] => none
  | 0x22 :: rest => some ([], rest)
  | 0x5C :: 0x75 :: a :: b :: c :: d :: rest =>
    match codeUnit? a b c d, pieces? rest with
    | some code, some (ps, rest) => some (.unit code :: ps, rest)
    | _, _ => none
  | 0x5C :: b :: rest =>
    match letterEscape? b, pieces? rest with
    | some b, some (ps, rest) => some (.byte b :: ps, rest)
    | _, _ => none
  | b :: rest =>
    if b < 0x20 || b == 0x5C then none
    else match pieces? rest with
      | some (ps, rest) => some (.byte b :: ps, rest)
      | none => none

/-- Whether the code unit is the first half of a pair. -/
def isHighHalf (code : Nat) : Bool := 0xD800 ≤ code && code < 0xDC00

/-- Whether the code unit is the second half of a pair. -/
def isLowHalf (code : Nat) : Bool := 0xDC00 ≤ code && code < 0xE000

def pairChar (high low : Nat) : Char := Char.ofNat (0x10000 + (high - 0xD800) * 0x400 + (low - 0xDC00))

def unitChar (code : Nat) : Char :=
  if isHighHalf code || isLowHalf code then replacement else Char.ofNat code

def spell : List Piece → Bytes
  | [] => []
  | .byte b :: ps => b :: spell ps
  | .unit high :: .unit low :: ps =>
    if isHighHalf high && isLowHalf low then encodeChar (pairChar high low) ++ spell ps
    else encodeChar (unitChar high) ++ spell (.unit low :: ps)
  | .unit code :: ps => encodeChar (unitChar code) ++ spell ps

/-! ### Lexemes -/

/-- A punctuation mark, a literal or a string. -/
inductive Lexeme where
  | openBrace
  | closeBrace
  | openBracket
  | closeBracket
  | comma
  | colon
  | null
  | bool (value : Bool)
  /-- A number, of which only its being one is told. -/
  | number
  | string (value : Bytes)
  deriving DecidableEq, Repr

/-- Drops digits; there must be at least one. -/
def skipDigits? (s : Bytes) : Option Bytes :=
  match s with
  | [] => none
  | b :: rest => if isDigit b then some (rest.dropWhile isDigit) else none

/-- What follows the digits before the point; a zero stands alone. -/
def skipWhole? : Bytes → Option Bytes
  | 0x30 :: rest => some rest
  | s => skipDigits? s

def skipFraction? : Bytes → Option Bytes
  | 0x2E :: rest => skipDigits? rest
  | s => some s

def skipSign : Bytes → Bytes
  | 0x2B :: rest => rest
  | 0x2D :: rest => rest
  | s => s

def skipExponent? : Bytes → Option Bytes
  | 0x65 :: rest => skipDigits? (skipSign rest)
  | 0x45 :: rest => skipDigits? (skipSign rest)
  | s => some s

def skipNumber? (s : Bytes) : Option Bytes :=
  let unsigned := if s.head? = some minus then s.tail else s
  ((skipWhole? unsigned).bind skipFraction?).bind skipExponent?

/-- The word at the front, if the text begins with it. -/
def word? (w : Bytes) (lexeme : Lexeme) (s : Bytes) : Option (Lexeme × Bytes) :=
  if w.isPrefixOf s then some (lexeme, s.drop w.length) else none

/-- The lexeme at the front, and what follows it. -/
def lexeme? : Bytes → Option (Lexeme × Bytes)
  | [] => none
  | b :: rest =>
    match b with
    | 0x7B => some (.openBrace, rest)
    | 0x7D => some (.closeBrace, rest)
    | 0x5B => some (.openBracket, rest)
    | 0x5D => some (.closeBracket, rest)
    | 0x2C => some (.comma, rest)
    | 0x3A => some (.colon, rest)
    | 0x22 =>
      match pieces? rest with
      | some (ps, rest) => some (.string (spell ps), rest)
      | none => none
    | 0x6E => word? (text "null") .null (b :: rest)
    | 0x74 => word? (text "true") (.bool true) (b :: rest)
    | 0x66 => word? (text "false") (.bool false) (b :: rest)
    | _ =>
      match skipNumber? (b :: rest) with
      | some left => some (.number, left)
      | none => none

def isSpace (b : UInt8) : Bool := b == space || b == tab || b == newline || b == carriageReturn

/-- The lexemes of a text; `fuel` bounds their number. -/
def lexemesFrom : (fuel : Nat) → Bytes → Option (List Lexeme)
  | 0, s => if s.dropWhile isSpace = [] then some [] else none
  | fuel + 1, s =>
    match s.dropWhile isSpace with
    | [] => some []
    | b :: rest =>
      match lexeme? (b :: rest) with
      | none => none
      | some (lexeme, rest) =>
        match lexemesFrom fuel rest with
        | some lexemes => some (lexeme :: lexemes)
        | none => none

/-- The lexemes of a text. Each takes at least one byte, so there are no more than bytes. -/
def lexemes? (s : Bytes) : Option (List Lexeme) := lexemesFrom s.length s

/-! ### Values -/

/-- A JSON value. Numbers are not told apart. The members of an object are in the order of the text; a name
may occur again. -/
inductive Value where
  | null
  | bool (value : Bool)
  | number
  | string (value : Bytes)
  | array (items : List Value)
  | object (members : List (Bytes × Value))
  deriving Inhabited, Repr

/-- An array or an object that is still open: what it holds so far, the latest first. An object waits for the
value of a member. -/
inductive Frame where
  | array (items : List Value)
  | object (members : List (Bytes × Value)) (name : Bytes)

def maxDepth : Nat := 10000

/-- Builds a value from lexemes: `done` is a value that was just finished, `stack` are the open arrays and
objects around it, and `room` is how many more may be opened inside of them. -/
def build : (done : Option Value) → (room : Nat) → (stack : List Frame) → List Lexeme → Option Value
  | none, room, stack, .null :: rest => build (some .null) room stack rest
  | none, room, stack, .bool b :: rest => build (some (.bool b)) room stack rest
  | none, room, stack, .number :: rest => build (some .number) room stack rest
  | none, room, stack, .string value :: rest => build (some (.string value)) room stack rest
  | none, room + 1, stack, .openBracket :: .closeBracket :: rest =>
    build (some (.array [])) (room + 1) stack rest
  | none, room + 1, stack, .openBracket :: rest => build none room (.array [] :: stack) rest
  | none, room + 1, stack, .openBrace :: .closeBrace :: rest =>
    build (some (.object [])) (room + 1) stack rest
  | none, room + 1, stack, .openBrace :: .string name :: .colon :: rest =>
    build none room (.object [] name :: stack) rest
  | some v, room, .array items :: stack, .comma :: rest =>
    build none room (.array (v :: items) :: stack) rest
  | some v, room, .array items :: stack, .closeBracket :: rest =>
    build (some (.array (v :: items).reverse)) (room + 1) stack rest
  | some v, room, .object members name :: stack, .comma :: .string name' :: .colon :: rest =>
    build none room (.object ((name, v) :: members) name' :: stack) rest
  | some v, room, .object members name :: stack, .closeBrace :: rest =>
    build (some (.object ((name, v) :: members).reverse)) (room + 1) stack rest
  | some v, _, [], [] => some v
  | _, _, _, _ => none

def parse? (s : Bytes) : Option Value := (lexemes? (repair s)).bind (build none maxDepth [])

/-! ### Strings that are written -/

/-- Whether the character is written as itself. -/
def isPlain (c : Char) : Bool :=
  0x20 ≤ c.toNat && c != '"' && c != '\\' && c != '<' && c != '>' && c != '&' && c.toNat != 0x2028 &&
    c.toNat != 0x2029

/-- The spelling of a character that is not written as itself. -/
def escapeCode (c : Char) : Bytes :=
  match c.toNat with
  | 0x22 => text "\\\""
  | 0x5C => text "\\\\"
  | 0x08 => text "\\b"
  | 0x0C => text "\\f"
  | 0x0A => text "\\n"
  | 0x0D => text "\\r"
  | 0x09 => text "\\t"
  | n => text "\\u" ++ hexDigits 4 n

def escapeChar (c : Char) : Bytes := if isPlain c then encodeChar c else escapeCode c

def escapeGlyph : Glyph → Bytes
  | .char c => escapeChar c
  | .stray _ => encodeChar replacement

def writeString (s : Bytes) : Bytes :=
  Ascii.doubleQuote :: (Glyph.ofBytes s).foldr (fun g rest => escapeGlyph g ++ rest) [Ascii.doubleQuote]

end Scriptlet.Json
