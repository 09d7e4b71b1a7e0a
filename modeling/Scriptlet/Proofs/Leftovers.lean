import Scriptlet.Proofs.EarliestError

/-!
What a failed run leaves. The tokens left are pinned to the token that the error was found at, however deep
in calls and functions it was found: they begin with it where it only was looked at, and are those behind it
where it was taken. So a reader that is run again goes on at a known place, and a run that took nothing is
repeated for ever.
-/

namespace Scriptlet

/-- What a failed run has left of its tokens. The token found is the first one that no program has there;
it is left if no term begins with it or if it is an `end` without a `def`, and is used up otherwise. -/
structure ParseError.Leaves (e : ParseError) (tokens left : List Token) : Prop where
  suffix : left <:+ tokens
  atEnd : e.found.kind = .endOfInput → left = []
  atToken : e.found.kind ≠ .endOfInput → ∃ front rest, tokens = front ++ e.found :: rest ∧
    Viable front ∧ ¬ Viable (front ++ [e.found]) ∧
    (e.kind = .unexpectedLookahead ∨ e.kind = .unexpectedToken ∧ e.expected = .defKeyword →
      left = e.found :: rest) ∧
    (e.kind = .unexpectedToken ∧ e.expected ≠ .defKeyword ∨ e.kind = .invalidInteger → left = rest)

namespace Read

theorem kept_eq_found {e : ParseError}
    (h : e.kind = .unexpectedLookahead ∨ e.kind = .unexpectedToken ∧ e.expected = .defKeyword) :
    e.kept = [e.found] := if_pos h

theorem kept_eq_nil {e : ParseError}
    (h : e.kind = .unexpectedToken ∧ e.expected ≠ .defKeyword ∨ e.kind = .invalidInteger) : e.kept = [] := by
  apply if_neg
  rcases h with ⟨hkind, hexpected⟩ | hkind
  · simp [hkind, hexpected]
  · simp [hkind]

theorem not_viable_of_error {front : List Token} {e : ParseError}
    (hfront : ∀ more, program (front ++ e.found :: more) = .error e (e.kept ++ more)) :
    ¬ Viable (front ++ [e.found]) := by
  rintro ⟨more, p, hp⟩
  rw [List.append_assoc, List.singleton_append] at hp
  obtain ⟨left, hread⟩ := parse_eq_ok_iff.mp hp
  rw [hfront] at hread
  cases hread

theorem program_rest_suffix (tokens : List Token) : (program tokens).rest <:+ tokens :=
  (program_localAt tokens).rest_suffix

/-- One run: an error leaves what its kind says. -/
theorem program_leaves {tokens left : List Token} {e : ParseError} (hreal : NoEndOfInput tokens)
    (h : program tokens = .error e left) : e.Leaves tokens left := by
  have hsuffix := program_rest_suffix tokens
  rw [h] at hsuffix
  rcases (program_localAt tokens).error h with ⟨hend, rfl⟩ | ⟨front, rest, rfl, hfront⟩
  · have hfound : e.found.kind = .endOfInput := congrArg Token.kind hend.1
    exact ⟨hsuffix, fun _ => rfl, fun hne => absurd hfound hne⟩
  · have hleft : left = e.kept ++ rest := (Reading.error.inj (h.symm.trans (hfront rest))).2
    have hbefore : NoEndOfInput front := fun token hmem => hreal token (List.mem_append_left _ hmem)
    refine ⟨hsuffix, fun hfound => absurd hfound (hreal e.found (by simp)), fun _ => ⟨front, rest, rfl,
      viable_of_error hbefore hfront, not_viable_of_error hfront, fun hkind => ?_, fun hkind => ?_⟩⟩
    · rw [hleft, kept_eq_found hkind, List.singleton_append]
    · rw [hleft, kept_eq_nil hkind, List.nil_append]

/-! ### Runs of one reader -/

/-- The tokens that a reader has left after so many runs. -/
def leftAfter : (runs : Nat) → List Token → List Token
  | 0, tokens => tokens
  | runs + 1, tokens => leftAfter runs (program tokens).rest

theorem leftAfter_succ (runs : Nat) (tokens : List Token) :
    leftAfter (runs + 1) tokens = (program (leftAfter runs tokens)).rest := by
  induction runs generalizing tokens with
  | zero => rfl
  | succ runs ih => exact ih (program tokens).rest

theorem NoEndOfInput.leftAfter {tokens : List Token} (h : NoEndOfInput tokens) (runs : Nat) :
    NoEndOfInput (leftAfter runs tokens) := by
  induction runs with
  | zero => exact h
  | succ runs ih =>
      rw [leftAfter_succ]
      exact fun token hmem => ih token ((program_rest_suffix _).subset hmem)

/-- A run that takes nothing leaves the reader as it was for good. -/
theorem leftAfter_add_of_eq {tokens : List Token} {runs : Nat}
    (h : leftAfter (runs + 1) tokens = leftAfter runs tokens) (more : Nat) :
    leftAfter (runs + more) tokens = leftAfter runs tokens := by
  induction more with
  | zero => rfl
  | succ more ih =>
      calc leftAfter (runs + (more + 1)) tokens
        _ = (program (leftAfter (runs + more) tokens)).rest := leftAfter_succ (runs + more) tokens
        _ = (program (leftAfter runs tokens)).rest := by rw [ih]
        _ = leftAfter (runs + 1) tokens := (leftAfter_succ runs tokens).symm
        _ = leftAfter runs tokens := h

theorem length_parseRuns (runs : Nat) (tokens : List Token) : (parseRuns runs tokens).length = runs := by
  induction runs generalizing tokens with
  | zero => rfl
  | succ runs ih => exact congrArg (· + 1) (ih _)

theorem getElem?_parseRuns {runs k : Nat} (h : k < runs) (tokens : List Token) :
    (parseRuns runs tokens)[k]? = some (parse (leftAfter k tokens)) := by
  induction runs generalizing k tokens with
  | zero => exact absurd h (Nat.not_lt_zero k)
  | succ runs ih =>
      rw [parseRuns]
      cases k with
      | zero => rfl
      | succ k =>
          rw [List.getElem?_cons_succ]
          exact ih (Nat.lt_of_succ_lt_succ h) _

end Read

open Read

/-- A failed run leaves what its error says. Each run of one reader is a run on what the one before left, and
a failed run that takes nothing fails so in all later runs. -/
theorem parseRuns_leftovers {tokens : List Token} (hreal : ∀ token ∈ tokens, token.kind ≠ .endOfInput) :
    (∀ e left, Read.program tokens = .error e left → e.Leaves tokens left) ∧
    ∀ runs, (parseRuns runs tokens).length = runs ∧ ∀ k < runs,
      (parseRuns runs tokens)[k]? = some (parse (leftAfter k tokens)) ∧
      ∀ e, parse (leftAfter k tokens) = .error e →
        e.Leaves (leftAfter k tokens) (leftAfter (k + 1) tokens) ∧
        (leftAfter (k + 1) tokens = leftAfter k tokens →
          ∀ j, k ≤ j → j < runs → (parseRuns runs tokens)[j]? = some (.error e)) := by
  refine ⟨fun e left hread => program_leaves hreal hread, fun runs => ⟨length_parseRuns runs tokens, ?_⟩⟩
  refine fun k hk => ⟨getElem?_parseRuns hk tokens, fun e he => ⟨?_, fun hstuck j hle hj => ?_⟩⟩
  · obtain ⟨left, hread⟩ := parse_eq_error_iff.mp he
    have hleft : leftAfter (k + 1) tokens = left := by rw [leftAfter_succ, hread, Reading.rest]
    rw [hleft]
    exact program_leaves (.leftAfter hreal k) hread
  · obtain ⟨more, rfl⟩ := Nat.exists_eq_add_of_le hle
    rw [getElem?_parseRuns hj, leftAfter_add_of_eq hstuck, he]

/-- A closing parenthesis without an opening one stops a reader: the number before it is used up by the first
run, and the one behind it is never reached. -/
theorem parseRuns_leftovers_parenthesis :
    (∀ token ∈ [⟨.integer, text "1"⟩, ⟨.closeParen, text ")"⟩, ⟨.integer, text "2"⟩],
      Token.kind token ≠ .endOfInput) ∧
    ∀ j, 1 ≤ j → j < 9 →
      (parseRuns 9 [⟨.integer, text "1"⟩, ⟨.closeParen, text ")"⟩, ⟨.integer, text "2"⟩])[j]? =
        some (.error (.lookahead ⟨.closeParen, text ")"⟩)) := by
  have hreal : ∀ token ∈ [⟨.integer, text "1"⟩, ⟨.closeParen, text ")"⟩, ⟨.integer, text "2"⟩],
      Token.kind token ≠ .endOfInput := by decide
  have hread : parse (leftAfter 1 [⟨.integer, text "1"⟩, ⟨.closeParen, text ")"⟩, ⟨.integer, text "2"⟩]) =
      .error (.lookahead ⟨.closeParen, text ")"⟩) := by
    with_unfolding_all rfl
  have hstuck : leftAfter 2 [⟨.integer, text "1"⟩, ⟨.closeParen, text ")"⟩, ⟨.integer, text "2"⟩] =
      leftAfter 1 [⟨.integer, text "1"⟩, ⟨.closeParen, text ")"⟩, ⟨.integer, text "2"⟩] := by
    with_unfolding_all rfl
  obtain ⟨-, hruns⟩ := parseRuns_leftovers hreal
  exact ⟨hreal, (((hruns 9).2 1 (by decide)).2 _ hread).2 hstuck⟩

end Scriptlet
