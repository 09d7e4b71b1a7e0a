import Scriptlet.Text.Glyph
import Scriptlet.Token.Basic

/-!
From source text to tokens. Horizontal blanks separate tokens and are dropped; a newline is a token. At
every other position exactly one rule can apply, chosen by the first byte: a word is the longest run of
word bytes and is a keyword or a name, a string runs to the next quote of its kind on the same line, an
integer is a run of digits that no other word byte follows, and the rest are single symbols. Where no rule
applies, scanning fails with all of the text from there on.
-/

namespace Scriptlet

/-- Scanning failed: no token begins at the front of the remaining text. -/
structure TokenizeError where
  remainder : Bytes
  deriving DecidableEq, Repr

namespace Token

open Ascii

/-- The kind of a word: a keyword, or else a name. -/
def wordKind (word : Bytes) : TokenKind :=
  if word = text "def" then .defKeyword
  else if word = text "end" then .endKeyword
  else if word = text "nil" then .nilKeyword
  else .identifier

/-- The kind of a symbol of one byte. -/
def symbolKind? (b : UInt8) : Option TokenKind :=
  if b = Ascii.plus then some .plus
  else if b = Ascii.minus then some .minus
  else if b = Ascii.star then some .star
  else if b = Ascii.slash then some .slash
  else if b = Ascii.equals then some .assign
  else if b = Ascii.openParen then some .openParen
  else if b = Ascii.closeParen then some .closeParen
  else if b = Ascii.comma then some .comma
  else if b = Ascii.newline then some .newline
  else none

def isQuote (b : UInt8) : Bool := b == doubleQuote || b == singleQuote

def stringBody (quote : UInt8) (rest : Bytes) : Bytes :=
  rest.takeWhile fun b => b != quote && b != newline

/-- The token at the front of a text that does not begin with a blank. -/
def lexeme? : Bytes → Option Token
  | [] => none
  | b :: rest =>
    if isWordStart b then some ⟨wordKind (b :: rest.takeWhile isWord), b :: rest.takeWhile isWord⟩
    else if isQuote b then
      if (rest.drop (stringBody b rest).length).head? = some b then
        some ⟨.string, b :: (stringBody b rest ++ [b])⟩
      else none
    else if isDigit b then
      if (rest.takeWhile isWord).all isDigit then some ⟨.integer, b :: rest.takeWhile isWord⟩ else none
    else (symbolKind? b).map (⟨·, [b]⟩)

/-- Whether a horizontal blank is at the front of the text. -/
def blank? (s : Bytes) : Option Char := (Utf8.front? s).filter isHorizontalBlank

/-- The tokens of a text after `skip` more bytes of the blank or token before. -/
def scan : (skip : Nat) → Bytes → Except TokenizeError (List Token)
  | _, [] => .ok []
  | skip + 1, _ :: rest => scan skip rest
  | 0, b :: rest =>
    match blank? (b :: rest) with
    | some c => scan (c.utf8Size - 1) rest
    | none =>
      match lexeme? (b :: rest) with
      | none => .error ⟨b :: rest⟩
      | some token =>
        match scan (token.value.length - 1) rest with
        | .ok tokens => .ok (token :: tokens)
        | .error e => .error e

/-- A source without the horizontal blanks at its end. -/
def trimSource (source : Bytes) : Bytes := Bytes.trimEnd isHorizontalBlank source

end Token

def tokenize (source : Bytes) : Except TokenizeError (List Token) := Token.scan 0 (Token.trimSource source)

/-- The text that a scanner has left after a run: none after a success, else the text that begins with no
token. -/
def Token.leftover : Except TokenizeError (List Token) → Bytes
  | .ok _ => []
  | .error e => e.remainder

/-- Runs of one scanner, each starting where the one before stopped. -/
def Token.scanRuns : (runs : Nat) → Bytes → List (Except TokenizeError (List Token))
  | 0, _ => []
  | runs + 1, s => scan 0 s :: scanRuns runs (leftover (scan 0 s))

/-- Runs of a scanner on one source. -/
def tokenizeRuns (runs : Nat) (source : Bytes) : List (Except TokenizeError (List Token)) :=
  Token.scanRuns runs (Token.trimSource source)

end Scriptlet
