import Scriptlet.Program.Basic
import Scriptlet.Program.Reading

/-!
From tokens to programs. Each procedure takes the tokens that are left and reads a part of a program off
their front. A call may hold calls to any depth; the calls that are still open are kept on a stack, and
every step of that loop uses up a token. The loops around it end because each of their rounds leaves fewer
tokens than it found.
-/

namespace Scriptlet

/-- A call whose closing parenthesis is still to come: the arguments that are finished and the terms of the
one being read, the latest first in both. -/
structure OpenCall where
  name : Bytes
  args : List Expr
  current : List Term

namespace OpenCall

/-- A call of which the name and the opening parenthesis have been read. -/
def start (name : Bytes) : OpenCall := ⟨name, [], []⟩

def push (c : OpenCall) (term : Term) : OpenCall := { c with current := term :: c.current }

/-- Finishes the argument being read, which may be empty. -/
def nextArgument (c : OpenCall) : OpenCall :=
  { c with args := c.current.reverse :: c.args, current := [] }

/-- The finished call. An empty last argument is dropped. -/
def close (c : OpenCall) : Term :=
  .call c.name (if c.current.isEmpty then c.args.reverse else c.nextArgument.args.reverse)

end OpenCall

namespace Read

def nextIs (kind : TokenKind) : List Token → Bool
  | [] => false
  | token :: _ => token.kind == kind

theorem nextIs_iff {kind : TokenKind} {tokens : List Token} :
    nextIs kind tokens = true ↔ ∃ value rest, tokens = ⟨kind, value⟩ :: rest := by
  constructor
  · intro h
    cases tokens with
    | nil => cases h
    | cons token rest =>
        obtain ⟨_, value⟩ := token
        cases (beq_iff_eq.mp h)
        exact ⟨value, rest, rfl⟩
  · rintro ⟨value, rest, rfl⟩
    exact beq_self_eq_true kind

theorem nextIs_of_nextIs {kind other : TokenKind} {tokens : List Token} (h : nextIs kind tokens = true)
    (hne : kind ≠ other) : nextIs other tokens = false := by
  obtain ⟨value, rest, rfl⟩ := nextIs_iff.mp h
  exact beq_eq_false_iff_ne.mpr hne

theorem nextIs_append {tokens : List Token} (hne : tokens ≠ []) (kind : TokenKind) (more : List Token) :
    nextIs kind (tokens ++ more) = nextIs kind tokens := by
  cases tokens with
  | nil => exact absurd rfl hne
  | cons token rest => rfl

/-- Takes a token of a kind. The token is used up even if it is of another kind. -/
def expect (kind : TokenKind) : List Token → Reading Token
  | [] => .error (.unexpected kind .endOfInput) []
  | token :: rest =>
    if token.kind = kind then .ok token rest else .error (.unexpected kind token) rest

def skipNewlines (tokens : List Token) : List Token := tokens.dropWhile (·.kind == .newline)

theorem skipNewlines_cons (value : Bytes) (rest : List Token) :
    skipNewlines (⟨.newline, value⟩ :: rest) = skipNewlines rest := rfl

theorem skipNewlines_eq_self {tokens : List Token} (h : nextIs .newline tokens = false) :
    skipNewlines tokens = tokens := by
  cases tokens with
  | nil => rfl
  | cons token rest => exact List.dropWhile_cons_of_neg (by simpa [nextIs] using h)

/-- The text of a string literal: its value without any quotes. -/
def stringText (value : Bytes) : Bytes :=
  value.filter fun b => b != Ascii.singleQuote && b != Ascii.doubleQuote

/-- Reads a term of one token. A token that begins no term stays; an integer that is out of range is
used up. -/
def atom (token : Token) (rest : List Token) : Reading Term :=
  match token.kind with
  | .nilKeyword => .ok .nil rest
  | .string => .ok (.str (stringText token.value)) rest
  | .integer =>
    match Decimal.toInt64? token.value with
    | some value => .ok (.int value) rest
    | none => .error (.badInteger token) rest
  | .identifier => .ok (.var token.value) rest
  | .plus => .ok .plus rest
  | .minus => .ok .minus rest
  | .star => .ok .star rest
  | .slash => .ok .slash rest
  | .assign => .ok .assign rest
  | _ => .error (.lookahead token) (token :: rest)

/-- Reads on inside a call, up to its closing parenthesis; `outer` are the open calls that it stands in. -/
def insideCall (inner : OpenCall) (outer : List OpenCall) : List Token → Reading Term
  | [] => .error (.lookahead .endOfInput) []
  | ⟨.comma, _⟩ :: rest => insideCall inner.nextArgument outer rest
  | ⟨.closeParen, _⟩ :: rest =>
    match outer with
    | [] => .ok inner.close rest
    | next :: outer => insideCall (next.push inner.close) outer rest
  | ⟨.identifier, name⟩ :: ⟨.openParen, _⟩ :: rest => insideCall (.start name) (inner :: outer) rest
  | token :: rest =>
    match atom token rest with
    | .ok term _ => insideCall (inner.push term) outer rest
    | .error e left => .error e left

def call : List Token → Reading Term
  | [] => .error (.unexpected .openParen .endOfInput) []
  | name :: rest => (expect .openParen rest).andThen fun _ rest => insideCall (.start name.value) [] rest

def term : List Token → Reading Term
  | [] => .error (.lookahead .endOfInput) []
  | token :: rest =>
    if token.kind = .identifier ∧ nextIs .openParen rest then call (token :: rest) else atom token rest

theorem term_eq_atom {token : Token} {rest : List Token}
    (hcall : ∀ name opening more, token = ⟨.identifier, name⟩ →
      rest = ⟨.openParen, opening⟩ :: more → False) :
    term (token :: rest) = atom token rest := by
  rw [term, if_neg]
  rintro ⟨hkind, hnext⟩
  obtain ⟨kind, name⟩ := token
  cases rest with
  | nil => cases hnext
  | cons second more =>
      obtain ⟨kind', opening⟩ := second
      cases hkind
      cases (beq_iff_eq.mp hnext : kind' = .openParen)
      exact hcall name opening more rfl rfl

theorem term_call (name opening : Bytes) (rest : List Token) :
    term (⟨.identifier, name⟩ :: ⟨.openParen, opening⟩ :: rest) = insideCall (.start name) [] rest := by
  rw [term, if_pos ⟨rfl, rfl⟩, call, expect, if_pos rfl, Reading.andThen_ok]

theorem atom_rest {token : Token} {rest left : List Token} {t : Term}
    (h : atom token rest = .ok t left) : left = rest := by
  unfold atom at h
  split at h <;> try (cases h; rfl)
  · split at h <;> cases h
    rfl
  · cases h

theorem expect_eq_ok_iff {kind : TokenKind} {tokens left : List Token} {token : Token} :
    expect kind tokens = .ok token left ↔ ∃ value, token = ⟨kind, value⟩ ∧ tokens = token :: left := by
  constructor
  · intro h
    cases tokens with
    | nil => cases h
    | cons first rest =>
        rw [expect] at h
        split at h
        · rename_i hkind
          cases h
          exact ⟨token.value, by rw [← hkind], rfl⟩
        · cases h
  · rintro ⟨value, rfl, rfl⟩
    rw [expect, if_pos rfl]

theorem expect_length_lt {kind : TokenKind} {tokens left : List Token} {token : Token}
    (h : expect kind tokens = .ok token left) : left.length < tokens.length := by
  unfold expect at h
  split at h
  · cases h
  · split at h <;> cases h
    simp

theorem insideCall_length_lt (inner : OpenCall) (outer : List OpenCall) {tokens left : List Token}
    {t : Term} (h : insideCall inner outer tokens = .ok t left) : left.length < tokens.length := by
  fun_induction insideCall inner outer tokens with
  | case1 => cases h
  | case2 inner outer value rest ih => exact Nat.lt_succ_of_lt (ih h)
  | case3 inner value rest => cases h; simp
  | case4 inner value rest next outer ih => exact Nat.lt_succ_of_lt (ih h)
  | case5 inner outer name value rest ih => exact Nat.lt_succ_of_lt (Nat.lt_succ_of_lt (ih h))
  | case6 inner outer token rest _ _ _ term left heq ih => exact Nat.lt_succ_of_lt (ih h)
  | case7 => cases h

theorem call_length_lt {tokens left : List Token} {t : Term} (h : call tokens = .ok t left) :
    left.length < tokens.length := by
  cases tokens with
  | nil => cases h
  | cons name rest =>
    obtain ⟨_, behind, hopen, h⟩ := Reading.andThen_eq_ok.mp h
    have := expect_length_lt hopen
    have := insideCall_length_lt _ _ h
    simp only [List.length_cons]
    omega

theorem term_length_lt {tokens left : List Token} {t : Term} (h : term tokens = .ok t left) :
    left.length < tokens.length := by
  unfold term at h
  split at h
  · cases h
  · split at h
    · exact call_length_lt h
    · rw [atom_rest h]
      simp

theorem skipNewlines_length_le (tokens : List Token) : (skipNewlines tokens).length ≤ tokens.length :=
  (List.dropWhile_sublist _).length_le

/-- Reads the terms of a default value, up to the comma or the closing parenthesis behind it. -/
def defaultTerms (tokens : List Token) : Reading (List Term) :=
  if nextIs .comma tokens || nextIs .closeParen tokens then .ok [] tokens
  else match _ : term tokens with
    | .error e rest => .error e rest
    | .ok t rest => (defaultTerms rest).map (t :: ·)
termination_by tokens.length
decreasing_by exact term_length_lt ‹_›

theorem defaultTerms_eq (tokens : List Token) : defaultTerms tokens =
    if nextIs .comma tokens || nextIs .closeParen tokens then .ok [] tokens
    else (term tokens).andThen fun t rest => (defaultTerms rest).map (t :: ·) := by
  rw [defaultTerms]
  split
  · rfl
  · cases term tokens <;> rfl

/-- Reads what follows the name of a parameter: an equals sign and a default value, or nothing. -/
def defaultValue : List Token → Reading (List Term)
  | [] => .ok [] []
  | token :: rest =>
    if token.kind = .assign then (defaultTerms rest).map (.assign :: ·) else .ok [] (token :: rest)

theorem defaultValue_eq_nil {tokens : List Token} (h : nextIs .assign tokens = false) :
    defaultValue tokens = .ok [] tokens := by
  cases tokens with
  | nil => rfl
  | cons token rest => rw [defaultValue, if_neg (by simpa [nextIs] using h)]

def skipComma : List Token → List Token
  | [] => []
  | token :: rest => if token.kind = .comma then rest else token :: rest

theorem skipComma_eq_self {tokens : List Token} (h : nextIs .comma tokens = false) :
    skipComma tokens = tokens := by
  cases tokens with
  | nil => rfl
  | cons token rest => rw [skipComma, if_neg (by simpa [nextIs] using h)]

theorem defaultTerms_length_le {tokens left : List Token} {ts : List Term}
    (h : defaultTerms tokens = .ok ts left) : left.length ≤ tokens.length := by
  fun_induction defaultTerms tokens generalizing ts with
  | case1 => cases h; simp
  | case2 => cases h
  | case3 tokens _ t rest heq ih =>
    obtain ⟨_, h, _⟩ := Reading.map_eq_ok.mp h
    have := ih h
    have := term_length_lt heq
    omega

theorem defaultValue_length_le {tokens left : List Token} {ts : List Term}
    (h : defaultValue tokens = .ok ts left) : left.length ≤ tokens.length := by
  unfold defaultValue at h
  split at h
  · cases h; simp
  · split at h
    · obtain ⟨_, h, _⟩ := Reading.map_eq_ok.mp h
      exact Nat.le_succ_of_le (defaultTerms_length_le h)
    · cases h; simp

theorem skipComma_length_le (tokens : List Token) : (skipComma tokens).length ≤ tokens.length := by
  unfold skipComma
  split
  · simp
  · split <;> simp

/-- Reads parameters, each with a comma behind it or not, up to a token that is no name. -/
def paramList (tokens : List Token) : Reading (List Expr) :=
  match tokens with
  | [] => .ok [] []
  | token :: rest =>
    if token.kind = .identifier then
      match _ : defaultValue rest with
      | .error e left => .error e left
      | .ok value left => (paramList (skipComma left)).map ((.var token.value :: value) :: ·)
    else .ok [] (token :: rest)
termination_by tokens.length
decreasing_by
  have := defaultValue_length_le ‹_›
  have := skipComma_length_le left
  simp only [List.length_cons]
  omega

theorem paramList_cons (token : Token) (rest : List Token) : paramList (token :: rest) =
    if token.kind = .identifier then
      (defaultValue rest).andThen fun value left =>
        (paramList (skipComma left)).map ((.var token.value :: value) :: ·)
    else .ok [] (token :: rest) := by
  rw [paramList]
  split
  · cases defaultValue rest <;> rfl
  · rfl

theorem paramList_eq_nil {tokens : List Token} (h : nextIs .identifier tokens = false) :
    paramList tokens = .ok [] tokens := by
  cases tokens with
  | nil => rw [paramList]
  | cons token rest => rw [paramList_cons, if_neg (by simpa [nextIs] using h)]

/-- Reads the parameters of a function with their parentheses, or nothing. -/
def params : List Token → Reading (List Expr)
  | [] => .ok [] []
  | token :: rest =>
    if token.kind = .openParen then
      (paramList rest).andThen fun ps rest => (expect .closeParen rest).map fun _ => ps
    else .ok [] (token :: rest)

/-- Whether a list of statements ends here: before `def`, before `end` and at the end of the tokens. -/
def endsStatements (tokens : List Token) : Bool :=
  nextIs .defKeyword tokens || nextIs .endKeyword tokens || tokens.isEmpty

theorem endsStatements_iff {tokens : List Token} : endsStatements tokens = true ↔
    nextIs .defKeyword tokens = true ∨ nextIs .endKeyword tokens = true ∨ tokens = [] := by
  simp [endsStatements, or_assoc]

theorem nextIs_of_endsStatements {kind : TokenKind} {tokens : List Token}
    (h : endsStatements tokens = true) (hdef : .defKeyword ≠ kind) (hend : .endKeyword ≠ kind) :
    nextIs kind tokens = false := by
  rcases endsStatements_iff.mp h with h | h | rfl
  · exact nextIs_of_nextIs h hdef
  · exact nextIs_of_nextIs h hend
  · rfl

/-- Reads one statement: terms up to a newline or the end of the list of statements, at least one. -/
def statement (tokens : List Token) : Reading Expr :=
  match _ : term tokens with
  | .error e rest => .error e rest
  | .ok t rest =>
    if nextIs .newline rest || endsStatements rest then .ok [t] rest
    else (statement rest).map (t :: ·)
termination_by tokens.length
decreasing_by exact term_length_lt ‹_›

theorem statement_eq (tokens : List Token) : statement tokens =
    (term tokens).andThen fun t rest =>
      if nextIs .newline rest || endsStatements rest then .ok [t] rest
      else (statement rest).map (t :: ·) := by
  rw [statement]
  cases term tokens <;> rfl

theorem statement_length_lt {tokens left : List Token} {e : Expr} (h : statement tokens = .ok e left) :
    left.length < tokens.length := by
  fun_induction statement tokens generalizing e with
  | case1 => cases h
  | case2 tokens t rest heq _ => cases h; exact term_length_lt heq
  | case3 tokens t rest heq _ ih =>
    obtain ⟨_, h, _⟩ := Reading.map_eq_ok.mp h
    have := ih h
    have := term_length_lt heq
    omega

/-- Reads statements with the newlines behind each, up to the end of the list. -/
def statements (tokens : List Token) : Reading (List Expr) :=
  if endsStatements tokens then .ok [] tokens
  else match _ : statement tokens with
    | .error e rest => .error e rest
    | .ok expr rest => (statements (skipNewlines rest)).map (expr :: ·)
termination_by tokens.length
decreasing_by
  have := statement_length_lt ‹_›
  have := skipNewlines_length_le rest
  omega

theorem statements_eq (tokens : List Token) : statements tokens =
    if endsStatements tokens then .ok [] tokens
    else (statement tokens).andThen fun expr rest => (statements (skipNewlines rest)).map (expr :: ·) := by
  rw [statements]
  split
  · rfl
  · cases statement tokens <;> rfl

theorem statements_eq_nil {tokens : List Token} (h : endsStatements tokens = true) :
    statements tokens = .ok [] tokens := by
  rw [statements, if_pos h]

/-- Reads a function definition and the newlines behind it. -/
def function (tokens : List Token) : Reading Node :=
  (expect .defKeyword tokens).andThen fun _ rest =>
  (expect .identifier rest).andThen fun name rest =>
  (params rest).andThen fun ps rest =>
  (statements (skipNewlines rest)).andThen fun body rest =>
  (expect .endKeyword rest).andThen fun _ rest =>
  .ok (.function name.value ps (some body)) (skipNewlines rest)

/-- Reads a node. An `end` without a `def` stays. -/
def node (tokens : List Token) : Reading Node :=
  match tokens with
  | [] => (statements []).map .statements
  | token :: rest =>
    if token.kind = .defKeyword then function (token :: rest)
    else if token.kind = .endKeyword then .error (.unexpected .defKeyword token) (token :: rest)
    else (statements (token :: rest)).map .statements

theorem node_eq_statements {tokens : List Token} (h : endsStatements tokens = false) :
    node tokens = (statements tokens).map .statements := by
  cases tokens with
  | nil => rfl
  | cons token rest =>
      simp only [endsStatements, nextIs, List.isEmpty_cons, Bool.or_false, Bool.or_eq_false_iff,
        beq_eq_false_iff_ne] at h
      rw [node, if_neg h.1, if_neg h.2]

theorem paramList_length_le {tokens left : List Token} {ps : List Expr}
    (h : paramList tokens = .ok ps left) : left.length ≤ tokens.length := by
  fun_induction paramList tokens generalizing ps with
  | case1 => cases h; simp
  | case2 => cases h
  | case3 token rest _ value rest' heq ih =>
    obtain ⟨_, h, _⟩ := Reading.map_eq_ok.mp h
    have := ih h
    have := defaultValue_length_le heq
    have := skipComma_length_le rest'
    simp only [List.length_cons]
    omega
  | case4 => cases h; simp

theorem params_length_le {tokens left : List Token} {ps : List Expr}
    (h : params tokens = .ok ps left) : left.length ≤ tokens.length := by
  unfold params at h
  split at h
  · cases h; simp
  · split at h
    · obtain ⟨_, _, hl, h⟩ := Reading.andThen_eq_ok.mp h
      obtain ⟨_, h, _⟩ := Reading.map_eq_ok.mp h
      have := paramList_length_le hl
      have := expect_length_lt h
      simp only [List.length_cons]
      omega
    · cases h; simp

theorem statements_length_le {tokens left : List Token} {es : List Expr}
    (h : statements tokens = .ok es left) : left.length ≤ tokens.length := by
  fun_induction statements tokens generalizing es with
  | case1 => cases h; simp
  | case2 => cases h
  | case3 tokens _ e rest heq ih =>
    obtain ⟨_, h, _⟩ := Reading.map_eq_ok.mp h
    have := ih h
    have := statement_length_lt heq
    have := skipNewlines_length_le rest
    omega

theorem function_length_lt {tokens left : List Token} {n : Node} (h : function tokens = .ok n left) :
    left.length < tokens.length := by
  unfold function at h
  obtain ⟨_, _, hdef, h⟩ := Reading.andThen_eq_ok.mp h
  obtain ⟨_, _, hname, h⟩ := Reading.andThen_eq_ok.mp h
  obtain ⟨_, r, hparams, h⟩ := Reading.andThen_eq_ok.mp h
  obtain ⟨_, _, hbody, h⟩ := Reading.andThen_eq_ok.mp h
  obtain ⟨_, r', hend, h⟩ := Reading.andThen_eq_ok.mp h
  cases h
  have := expect_length_lt hdef
  have := expect_length_lt hname
  have := params_length_le hparams
  have := skipNewlines_length_le r
  have := statements_length_le hbody
  have := expect_length_lt hend
  have := skipNewlines_length_le r'
  omega

theorem node_length_lt {token : Token} {tokens left : List Token} {n : Node}
    (h : node (token :: tokens) = .ok n left) : left.length < (token :: tokens).length := by
  simp only [node] at h
  split at h
  · exact function_length_lt h
  · split at h
    · cases h
    · rename_i hdef hend
      obtain ⟨es, h, _⟩ := Reading.map_eq_ok.mp h
      rw [statements] at h
      rw [if_neg (by simp [endsStatements, nextIs, hdef, hend])] at h
      split at h
      · cases h
      · rename_i e rest heq
        obtain ⟨_, h, _⟩ := Reading.map_eq_ok.mp h
        have := statements_length_le h
        have := statement_length_lt heq
        have := skipNewlines_length_le rest
        omega

/-- Reads nodes until no token is left. -/
def program (tokens : List Token) : Reading Program :=
  match tokens with
  | [] => .ok [] []
  | token :: rest =>
    match _ : node (token :: rest) with
    | .error e rest => .error e rest
    | .ok n rest => (program rest).map (n :: ·)
termination_by tokens.length
decreasing_by exact node_length_lt ‹_›

theorem program_cons (token : Token) (rest : List Token) : program (token :: rest) =
    (node (token :: rest)).andThen fun n rest => (program rest).map (n :: ·) := by
  rw [program]
  cases node (token :: rest) <;> rfl

theorem program_eq {tokens : List Token} (hne : tokens ≠ []) : program tokens =
    (node tokens).andThen fun n rest => (program rest).map (n :: ·) := by
  cases tokens with
  | nil => exact absurd rfl hne
  | cons token rest => exact program_cons token rest

end Read

def parse (tokens : List Token) : Except ParseError Program := (Read.program tokens).result

theorem parse_nil : parse [] = .ok [] := by
  rw [parse, Read.program]
  rfl

theorem parse_eq_error_iff {tokens : List Token} {e : ParseError} :
    parse tokens = .error e ↔ ∃ left, Read.program tokens = .error e left := by
  rw [parse]
  cases Read.program tokens <;> simp [Reading.result]

theorem parse_eq_ok_iff {tokens : List Token} {p : Program} :
    parse tokens = .ok p ↔ ∃ left, Read.program tokens = .ok p left := by
  rw [parse]
  cases Read.program tokens <;> simp [Reading.result]

/-- Runs of one reader, each starting with the tokens that the one before left. -/
def parseRuns : (runs : Nat) → List Token → List (Except ParseError Program)
  | 0, _ => []
  | runs + 1, tokens => parse tokens :: parseRuns runs (Read.program tokens).rest

end Scriptlet
