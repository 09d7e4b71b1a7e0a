import Scriptlet.Text.Decimal

/-!
Tokens. A token is a kind and the bytes it was read from. Kinds are numbered from zero; the numbers past the
known kinds stand for kinds without a name, so every number is the number of exactly one kind.
-/

namespace Scriptlet

inductive TokenKind where
  | endOfInput
  | defKeyword
  | endKeyword
  | nilKeyword
  | identifier
  | string
  | integer
  | plus
  | minus
  | star
  | slash
  | assign
  | openParen
  | closeParen
  | comma
  | newline
  | unknown (offset : Nat)
  deriving DecidableEq, Repr

namespace TokenKind

def number : TokenKind → Nat
  | endOfInput => 0
  | defKeyword => 1
  | endKeyword => 2
  | nilKeyword => 3
  | identifier => 4
  | string => 5
  | integer => 6
  | plus => 7
  | minus => 8
  | star => 9
  | slash => 10
  | assign => 11
  | openParen => 12
  | closeParen => 13
  | comma => 14
  | newline => 15
  | unknown offset => 16 + offset

def ofNumber : Nat → TokenKind
  | 0 => endOfInput
  | 1 => defKeyword
  | 2 => endKeyword
  | 3 => nilKeyword
  | 4 => identifier
  | 5 => string
  | 6 => integer
  | 7 => plus
  | 8 => minus
  | 9 => star
  | 10 => slash
  | 11 => assign
  | 12 => openParen
  | 13 => closeParen
  | 14 => comma
  | 15 => newline
  | n => unknown (n - 16)

/-- The name of a kind in messages; kinds without a name are written with their number. -/
def name : TokenKind → Bytes
  | endOfInput => text "EOF"
  | defKeyword => text "Def"
  | endKeyword => text "End"
  | nilKeyword => text "Nil"
  | identifier => text "Identifier"
  | string => text "String"
  | integer => text "Integer"
  | plus => text "Plus"
  | minus => text "Minus"
  | star => text "Star"
  | slash => text "Slash"
  | assign => text "Assign"
  | openParen => text "OpenParentheses"
  | closeParen => text "CloseParentheses"
  | comma => text "Comma"
  | newline => text "Newline"
  | unknown offset => text "TokenType(" ++ Decimal.ofNat (16 + offset) ++ text ")"

/-- The sixteen kinds that have a name. -/
def named : List TokenKind :=
  [endOfInput, defKeyword, endKeyword, nilKeyword, identifier, string, integer, plus, minus, star, slash,
    assign, openParen, closeParen, comma, newline]

def ofName? (s : Bytes) : Option TokenKind := named.find? fun kind => kind.name == s

theorem ofNumber_number (kind : TokenKind) : ofNumber kind.number = kind := by
  cases kind with
  | unknown offset =>
    have h : 16 + offset = offset + 16 := Nat.add_comm ..
    simp [number, h, ofNumber]
  | _ => rfl

end TokenKind

/-- A token: its kind and the bytes it was read from. -/
structure Token where
  kind : TokenKind
  value : Bytes
  deriving DecidableEq, Repr

namespace Token

/-- What stands for the next token when no token is left. -/
def endOfInput : Token := ⟨.endOfInput, []⟩

end Token

end Scriptlet
