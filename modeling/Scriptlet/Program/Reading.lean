import Scriptlet.Token.Basic

/-!
The outcome of reading. A procedure that reads from a list of tokens gives back a value or an error, and in
either case the tokens that it left, so that reading can go on behind an error.
-/

namespace Scriptlet

/-- The ways in which reading fails. Kinds that no reader reports are numbered. -/
inductive ParseErrorKind where
  | unexpectedLookahead
  | unexpectedToken
  | invalidInteger
  | other (number : Int)
  deriving DecidableEq, Repr

/-- Reading failed at the token found. What was expected is told by unexpected tokens only. -/
structure ParseError where
  kind : ParseErrorKind
  expected : TokenKind
  found : Token
  deriving DecidableEq, Repr

namespace ParseError

/-- No term begins with the token. -/
def lookahead (found : Token) : ParseError := ⟨.unexpectedLookahead, .endOfInput, found⟩

/-- Another kind of token was required. -/
def unexpected (expected : TokenKind) (found : Token) : ParseError := ⟨.unexpectedToken, expected, found⟩

/-- The literal is no integer of 64 bits. -/
def badInteger (found : Token) : ParseError := ⟨.invalidInteger, .endOfInput, found⟩

/-- Whether reading stopped for want of tokens, so that more of them could mend it. -/
def isIncomplete (e : ParseError) : Bool :=
  e.found.kind == .endOfInput && e.kind != .invalidInteger

end ParseError

/-- What a reading procedure returns: a value or an error, and the tokens left. -/
inductive Reading (α : Type) where
  | ok (value : α) (rest : List Token)
  | error (e : ParseError) (rest : List Token)
  deriving Repr

namespace Reading

variable {α β : Type}

def rest : Reading α → List Token
  | ok _ rest => rest
  | error _ rest => rest

def result : Reading α → Except ParseError α
  | ok value _ => .ok value
  | error e _ => .error e

def map (f : α → β) : Reading α → Reading β
  | ok value rest => ok (f value) rest
  | error e rest => error e rest

/-- Goes on with the value and the tokens left. -/
def andThen (r : Reading α) (f : α → List Token → Reading β) : Reading β :=
  match r with
  | ok value rest => f value rest
  | error e rest => error e rest

@[simp] theorem map_ok (f : α → β) (value : α) (rest : List Token) :
    (ok value rest).map f = ok (f value) rest := rfl

@[simp] theorem map_error (f : α → β) (e : ParseError) (rest : List Token) :
    (error e rest).map f = error e rest := rfl

@[simp] theorem andThen_ok (value : α) (rest : List Token) (f : α → List Token → Reading β) :
    (ok value rest).andThen f = f value rest := rfl

@[simp] theorem andThen_error (e : ParseError) (rest : List Token) (f : α → List Token → Reading β) :
    (error e rest).andThen f = error e rest := rfl

theorem map_map {γ : Type} (f : α → β) (g : β → γ) (r : Reading α) : (r.map f).map g = r.map (g ∘ f) := by
  cases r <;> rfl

theorem rest_map (f : α → β) (r : Reading α) : (r.map f).rest = r.rest := by
  cases r <;> rfl

theorem result_map (f : α → β) (r : Reading α) : (r.map f).result = r.result.map f := by
  cases r <;> rfl

theorem map_eq_ok {f : α → β} {r : Reading α} {b : β} {left : List Token} :
    r.map f = ok b left ↔ ∃ a, r = ok a left ∧ f a = b := by
  cases r with
  | ok a rest =>
    constructor
    · intro h
      cases h
      exact ⟨a, rfl, rfl⟩
    · rintro ⟨_, h, rfl⟩
      cases h
      rfl
  | error e rest => simp [map]

theorem map_eq_error {f : α → β} {r : Reading α} {e : ParseError} {left : List Token} :
    r.map f = error e left ↔ r = error e left := by
  cases r <;> simp [map]

theorem andThen_eq_ok {r : Reading α} {f : α → List Token → Reading β} {b : β} {left : List Token} :
    r.andThen f = ok b left ↔ ∃ a rest, r = ok a rest ∧ f a rest = ok b left := by
  cases r with
  | ok a rest =>
    constructor
    · intro h
      exact ⟨a, rest, rfl, h⟩
    · rintro ⟨_, _, h, hf⟩
      cases h
      exact hf
  | error e rest => simp [andThen]

theorem andThen_eq_error {r : Reading α} {f : α → List Token → Reading β} {e : ParseError}
    {left : List Token} : r.andThen f = error e left ↔
      r = error e left ∨ ∃ a rest, r = ok a rest ∧ f a rest = error e left := by
  cases r with
  | ok a rest =>
    constructor
    · intro h
      exact Or.inr ⟨a, rest, rfl, h⟩
    · rintro (h | ⟨_, _, h, hf⟩)
      · cases h
      · cases h
        exact hf
  | error e' rest => simp [andThen]

end Reading

end Scriptlet
