import Scriptlet.Proofs.Locality
import Scriptlet.Proofs.Soundness

/-!
Reading never stalls. Every procedure leaves the end of the tokens that it was given, also when it fails, and
one that has read a term, a call, a function or a node has used up a token. What a procedure repeats is a loop:
a test, a round, and what is done behind the last round. A round that does not fail leaves fewer tokens than it
found, so each loop ends, after no more such rounds than there are tokens, and with what the procedure gives.
Two kinds of rounds need a closer look. The tests inside of parentheses also hold at the end of the tokens, where
only the failure of a term ends the loop; and an argument may be empty, in which case its comma was used up.
-/

namespace Scriptlet

variable {α β σ : Type}

namespace Reading

/-- What a reading has done to the tokens: it has left the end of them, and fewer unless it has failed. -/
structure Advances (r : Reading α) (tokens : List Token) : Prop where
  suffix : r.rest <:+ tokens
  shorter : ∀ {a left}, r = .ok a left → left.length < tokens.length

theorem rest_andThen_suffix {r : Reading α} {tokens : List Token} {f : α → List Token → Reading β}
    (h : r.rest <:+ tokens) (hf : ∀ a rest, (f a rest).rest <:+ rest) : (r.andThen f).rest <:+ tokens := by
  cases r with
  | ok a rest => exact (hf a rest).trans h
  | error e left => exact h

namespace Advances

variable {r : Reading α} {tokens : List Token}

theorem ok_cons (a : α) (token : Token) (rest : List Token) : (Reading.ok a rest).Advances (token :: rest) := by
  refine ⟨List.suffix_cons token rest, fun heq => ?_⟩
  cases heq
  exact Nat.lt_succ_self _

theorem map (h : r.Advances tokens) (f : α → β) : (r.map f).Advances tokens := by
  refine ⟨by rw [rest_map]; exact h.suffix, fun heq => ?_⟩
  obtain ⟨a, hr, _⟩ := map_eq_ok.mp heq
  exact h.shorter hr

/-- What goes on behind a reading that advances need not advance itself. -/
theorem andThen (h : r.Advances tokens) {f : α → List Token → Reading β}
    (hf : ∀ a rest, (f a rest).rest <:+ rest) : (r.andThen f).Advances tokens := by
  refine ⟨rest_andThen_suffix h.suffix hf, fun {b left} heq => ?_⟩
  obtain ⟨a, rest, hr, hread⟩ := andThen_eq_ok.mp heq
  have hle := (hf a rest).length_le
  rw [hread] at hle
  exact Nat.lt_of_le_of_lt hle (h.shorter hr)

end Advances

end Reading

namespace Read

/-! ### The procedures -/

theorem skipNewlines_suffix (tokens : List Token) : skipNewlines tokens <:+ tokens :=
  List.dropWhile_suffix _

theorem skipComma_suffix (tokens : List Token) : skipComma tokens <:+ tokens := by
  cases tokens with
  | nil => exact List.suffix_rfl
  | cons token rest =>
      rw [skipComma]
      split
      · exact List.suffix_cons token rest
      · exact List.suffix_rfl

theorem expect_advances (kind : TokenKind) (tokens : List Token) :
    (expect kind tokens).Advances tokens := by
  refine ⟨?_, expect_length_lt⟩
  cases tokens with
  | nil => exact List.suffix_rfl
  | cons token rest =>
      -- the token is used up even if it is of another kind
      rw [expect]
      split <;> exact List.suffix_cons token rest

theorem term_advances (tokens : List Token) : (term tokens).Advances tokens :=
  ⟨(term_localAt tokens).rest_suffix, term_length_lt⟩

theorem call_advances (tokens : List Token) : (call tokens).Advances tokens := by
  refine ⟨?_, call_length_lt⟩
  cases tokens with
  | nil => exact List.suffix_rfl
  | cons name rest =>
      have hinside := (expect_advances .openParen rest).andThen fun _ rest =>
        (insideCall_localAt (.start name.value) [] rest).rest_suffix
      exact hinside.suffix.trans (List.suffix_cons name rest)

theorem function_advances (tokens : List Token) : (function tokens).Advances tokens := by
  refine (expect_advances .defKeyword tokens).andThen fun _ rest => ?_
  refine Reading.rest_andThen_suffix (expect_advances .identifier rest).suffix fun name rest => ?_
  refine Reading.rest_andThen_suffix (params_localAt rest).rest_suffix fun ps rest => ?_
  have hbody := (statements_localAt (skipNewlines rest)).rest_suffix
  refine Reading.rest_andThen_suffix (hbody.trans (skipNewlines_suffix rest)) fun body rest => ?_
  refine Reading.rest_andThen_suffix (expect_advances .endKeyword rest).suffix fun _ rest => ?_
  exact skipNewlines_suffix rest

theorem node_advances {tokens : List Token} (hne : tokens ≠ []) : (node tokens).Advances tokens := by
  cases tokens with
  | nil => exact absurd rfl hne
  | cons token rest => exact ⟨(node_localAt token rest).rest_suffix, node_length_lt⟩

theorem node_rest_suffix (tokens : List Token) : (node tokens).rest <:+ tokens := by
  by_cases hne : tokens = []
  · subst hne
    rw [node, Reading.rest_map]
    exact (statements_localAt []).rest_suffix
  · exact (node_advances hne).suffix

/-! ### Loops -/

/-- A loop over the tokens left: as long as it goes on, a round reads from them and changes the state; behind
the last round the result is made of the state. -/
structure Loop (σ α : Type) where
  goesOn : List Token → Bool
  round : σ → List Token → Reading σ
  after : σ → List Token → Reading α

namespace Loop

variable (loop : Loop σ α)

/-- Every round of the loop fails or leaves fewer tokens than it found. -/
def Progresses : Prop :=
  ∀ state tokens, loop.goesOn tokens = true → (loop.round state tokens).Advances tokens

/-- From a state and tokens the loop comes to an outcome, after so many rounds that do not fail. -/
inductive Runs : (rounds : Nat) → σ → List Token → Reading α → Prop where
  | stop {state : σ} {tokens : List Token} (hstop : loop.goesOn tokens = false) :
      Runs 0 state tokens (loop.after state tokens)
  | fail {state : σ} {tokens left : List Token} {e : ParseError} (hon : loop.goesOn tokens = true)
      (hround : loop.round state tokens = .error e left) : Runs 0 state tokens (.error e left)
  | next {state state' : σ} {tokens rest : List Token} {outcome : Reading α} {rounds : Nat}
      (hon : loop.goesOn tokens = true) (hround : loop.round state tokens = .ok state' rest)
      (hrest : Runs rounds state' rest outcome) : Runs (rounds + 1) state tokens outcome

/-- The loop ends with an outcome and with no other, and at most as many rounds as there are tokens do not
fail. -/
structure EndsWith (state : σ) (tokens : List Token) (outcome : Reading α) : Prop where
  runs : ∃ rounds ≤ tokens.length, loop.Runs rounds state tokens outcome
  unique : ∀ {rounds other}, loop.Runs rounds state tokens other → other = outcome

variable {loop}

theorem Runs.rounds_le (hloop : loop.Progresses) {rounds : Nat} {state : σ} {tokens : List Token}
    {outcome : Reading α} (h : loop.Runs rounds state tokens outcome) : rounds ≤ tokens.length := by
  induction h with
  | stop => exact Nat.zero_le _
  | fail => exact Nat.zero_le _
  | next hon hround _ ih => exact Nat.lt_of_le_of_lt ih ((hloop _ _ hon).shorter hround)

/-- A loop whose rounds progress comes to an outcome: the number of tokens left is the measure. -/
theorem Progresses.exists_runs (hloop : loop.Progresses) (state : σ) (tokens : List Token) :
    ∃ rounds outcome, loop.Runs rounds state tokens outcome := by
  induction hlength : tokens.length using Nat.strongRecOn generalizing state tokens with
  | ind n ih =>
      cases hon : loop.goesOn tokens with
      | false => exact ⟨0, _, .stop hon⟩
      | true =>
          cases hround : loop.round state tokens with
          | error e left => exact ⟨0, _, .fail hon hround⟩
          | ok state' rest =>
              have hlt : rest.length < n := hlength ▸ (hloop state tokens hon).shorter hround
              obtain ⟨rounds, outcome, hrest⟩ := ih rest.length hlt state' rest rfl
              exact ⟨rounds + 1, outcome, .next hon hround hrest⟩

/-- A procedure that can be unrolled by a round gives what the loop ends with. -/
theorem Runs.outcome_eq {read : σ → List Token → Reading α}
    (hstop : ∀ state tokens, loop.goesOn tokens = false → read state tokens = loop.after state tokens)
    (hround : ∀ state tokens, loop.goesOn tokens = true →
      read state tokens = (loop.round state tokens).andThen read)
    {rounds : Nat} {state : σ} {tokens : List Token} {outcome : Reading α}
    (h : loop.Runs rounds state tokens outcome) : outcome = read state tokens := by
  induction h with
  | stop hoff => exact (hstop _ _ hoff).symm
  | fail hon hfail => rw [hround _ _ hon, hfail, Reading.andThen_error]
  | next hon hok _ ih => rw [hround _ _ hon, hok, Reading.andThen_ok, ih]

theorem Progresses.endsWith (hloop : loop.Progresses) (read : σ → List Token → Reading α)
    (hstop : ∀ state tokens, loop.goesOn tokens = false → read state tokens = loop.after state tokens)
    (hround : ∀ state tokens, loop.goesOn tokens = true →
      read state tokens = (loop.round state tokens).andThen read)
    (state : σ) (tokens : List Token) : loop.EndsWith state tokens (read state tokens) := by
  obtain ⟨rounds, outcome, hruns⟩ := hloop.exists_runs state tokens
  have houtcome := hruns.outcome_eq hstop hround
  rw [houtcome] at hruns
  exact ⟨⟨rounds, hruns.rounds_le hloop, hruns⟩, fun h => h.outcome_eq hstop hround⟩

end Loop

/-! ### The loops of reading -/

/-- Drops newlines one by one. -/
def newlineLoop : Loop Unit Unit where
  goesOn := nextIs .newline
  round _ tokens := .ok () tokens.tail
  after _ tokens := .ok () tokens

/-- Reads the terms of a default value or of an argument. At the end of the tokens it goes on. -/
def termLoop : Loop (List Term) (List Term) where
  goesOn tokens := !nextIs .comma tokens && !nextIs .closeParen tokens
  round terms tokens := (term tokens).map (terms ++ [·])
  after terms tokens := .ok terms tokens

/-- Reads the arguments of a call, each with the comma behind it if there is one, and the parenthesis that
closes them. At the end of the tokens it goes on. -/
def argumentLoop (name : Bytes) : Loop (List Expr) Term where
  goesOn tokens := !nextIs .closeParen tokens
  round args tokens :=
    (defaultTerms tokens).andThen fun arg rest => .ok (args ++ [arg]) (skipComma rest)
  after args tokens := .ok (.call name args) tokens.tail

/-- Reads parameters, each with the comma behind it if there is one, and the parenthesis that closes them. -/
def parameterLoop : Loop (List Expr) (List Expr) where
  goesOn := nextIs .identifier
  round params tokens :=
    (expect .identifier tokens).andThen fun name rest =>
    (defaultValue rest).andThen fun value rest =>
    .ok (params ++ [.var name.value :: value]) (skipComma rest)
  after params tokens := (expect .closeParen tokens).map fun _ => params

/-- Statements of which the last may be unfinished: those that are finished, and the terms of the one being
read. -/
structure OpenStatements where
  exprs : List Expr
  terms : List Term

/-- The finished statements. -/
def OpenStatements.close (s : OpenStatements) : List Expr :=
  if s.terms.isEmpty then s.exprs else s.exprs ++ [s.terms]

/-- Reads statements term by term. Newlines behind a term finish a statement. -/
def statementLoop : Loop OpenStatements (List Expr) where
  goesOn tokens := !endsStatements tokens
  round s tokens :=
    (term tokens).andThen fun t rest =>
      if nextIs .newline rest then .ok ⟨s.exprs ++ [s.terms ++ [t]], []⟩ (skipNewlines rest)
      else .ok ⟨s.exprs, s.terms ++ [t]⟩ rest
  after s tokens := .ok s.close tokens

/-- Reads nodes until no token is left. -/
def nodeLoop : Loop Program Program where
  goesOn tokens := !tokens.isEmpty
  round nodes tokens := (node tokens).map (nodes ++ [·])
  after nodes tokens := .ok nodes tokens

/-! ### Every round progresses -/

theorem newlineLoop_progresses : newlineLoop.Progresses := by
  intro _ tokens hon
  obtain ⟨value, rest, rfl⟩ := nextIs_iff.mp hon
  exact .ok_cons () _ rest

theorem termLoop_progresses : termLoop.Progresses :=
  fun terms tokens _ => (term_advances tokens).map (terms ++ [·])

theorem argumentLoop_progresses (name : Bytes) : (argumentLoop name).Progresses := by
  intro args tokens hon
  have hclose : nextIs .closeParen tokens = false := by simpa [argumentLoop] using hon
  cases hcomma : nextIs .comma tokens with
  | true =>
      -- the argument is empty, and its comma is used up
      obtain ⟨value, rest, rfl⟩ := nextIs_iff.mp hcomma
      have hround : (argumentLoop name).round args (⟨.comma, value⟩ :: rest) = .ok (args ++ [[]]) rest := by
        simp only [argumentLoop]
        rw [defaultTerms_eq, if_pos (by rw [hcomma]; rfl), Reading.andThen_ok, skipComma, if_pos rfl]
      rw [hround]
      exact .ok_cons _ _ rest
  | false =>
      have hterms : (defaultTerms tokens).Advances tokens := by
        rw [defaultTerms_eq, hcomma, hclose]
        refine (term_advances tokens).andThen fun t rest => ?_
        rw [Reading.rest_map]
        exact (defaultTerms_localAt rest).rest_suffix
      exact hterms.andThen fun _ rest => skipComma_suffix rest

theorem parameterLoop_progresses : parameterLoop.Progresses := by
  intro params tokens _
  refine (expect_advances .identifier tokens).andThen fun name rest => ?_
  exact Reading.rest_andThen_suffix (defaultValue_localAt rest).rest_suffix fun _ rest => skipComma_suffix rest

theorem statementLoop_progresses : statementLoop.Progresses := by
  intro s tokens _
  refine (term_advances tokens).andThen fun t rest => ?_
  split
  · exact skipNewlines_suffix rest
  · exact List.suffix_rfl

theorem nodeLoop_progresses : nodeLoop.Progresses := by
  intro nodes tokens hon
  have hne : tokens ≠ [] := by simpa [nodeLoop] using hon
  exact (node_advances hne).map (nodes ++ [·])

/-! ### What the loops end with -/

theorem newlineLoop_endsWith (tokens : List Token) :
    newlineLoop.EndsWith () tokens (.ok () (skipNewlines tokens)) := by
  refine newlineLoop_progresses.endsWith (fun _ tokens => .ok () (skipNewlines tokens)) ?_ ?_ () tokens
  · intro _ tokens hoff
    rw [skipNewlines_eq_self hoff]
    rfl
  · intro _ tokens hon
    obtain ⟨value, rest, rfl⟩ := nextIs_iff.mp hon
    rfl

/-- One more value in front of those that follow is one more value behind those that are there. -/
theorem map_append_andThen (r : Reading α) (front : List α) (more : List Token → Reading (List α)) :
    (r.andThen fun a rest => (more rest).map (a :: ·)).map (front ++ ·) =
      (r.map (front ++ [·])).andThen fun front rest => (more rest).map (front ++ ·) := by
  cases r with
  | error e left => rfl
  | ok a rest =>
      simp only [Reading.andThen_ok, Reading.map_ok, Reading.map_map]
      congr 1
      funext values
      simp

theorem termLoop_endsWith (terms : List Term) (tokens : List Token) :
    termLoop.EndsWith terms tokens ((defaultTerms tokens).map (terms ++ ·)) := by
  refine termLoop_progresses.endsWith (fun terms tokens => (defaultTerms tokens).map (terms ++ ·))
    ?_ ?_ terms tokens
  · intro terms tokens hoff
    have hstop : (nextIs .comma tokens || nextIs .closeParen tokens) = true := by
      simpa [termLoop, Classical.or_iff_not_imp_left] using hoff
    rw [defaultTerms_eq, if_pos hstop, Reading.map_ok, List.append_nil]
    rfl
  · intro terms tokens hon
    have hstop : ¬ (nextIs .comma tokens || nextIs .closeParen tokens) = true := by
      simpa [termLoop] using hon
    rw [defaultTerms_eq, if_neg hstop]
    exact map_append_andThen (term tokens) terms defaultTerms

/-- Inside a call, the terms up to the next comma or closing parenthesis are read as those of a default value. -/
theorem insideCall_eq_defaultTerms (inner : OpenCall) (outer : List OpenCall) (tokens : List Token) :
    insideCall inner outer tokens = (defaultTerms tokens).andThen fun terms rest =>
      insideCall { inner with current := terms.reverse ++ inner.current } outer rest := by
  induction hlength : tokens.length using Nat.strongRecOn generalizing inner tokens with
  | ind n ih =>
      rw [defaultTerms_eq]
      split
      · rfl
      · rename_i hstop
        simp only [Bool.or_eq_true, not_or, Bool.not_eq_true] at hstop
        rw [insideCall_eq_term inner outer hstop.1 hstop.2]
        cases hterm : term tokens with
        | error e left => rfl
        | ok t rest =>
            have hlt : rest.length < n := hlength ▸ term_length_lt hterm
            rw [Reading.andThen_ok, Reading.andThen_ok, ih _ hlt (inner.push t) rest rfl]
            cases defaultTerms rest with
            | error e left => rfl
            | ok terms left => simp [OpenCall.push]

/-- The rest of a call in which these arguments are finished. -/
def argumentsFrom (name : Bytes) (args : List Expr) : List Token → Reading Term :=
  insideCall ⟨name, args.reverse, []⟩ []

theorem argumentsFrom_close (name : Bytes) (args : List Expr) (closing : Bytes) (rest : List Token) :
    argumentsFrom name args (⟨.closeParen, closing⟩ :: rest) = .ok (.call name args) rest := by
  simp [argumentsFrom, insideCall, OpenCall.close]

/-- The next argument is read, which may be empty, and the comma behind it. -/
theorem argumentsFrom_eq (name : Bytes) (args : List Expr) {tokens : List Token}
    (hclose : nextIs .closeParen tokens = false) : argumentsFrom name args tokens =
      (defaultTerms tokens).andThen fun arg rest => argumentsFrom name (args ++ [arg]) (skipComma rest) := by
  rw [argumentsFrom, insideCall_eq_defaultTerms]
  cases hterms : defaultTerms tokens with
  | error e left => rfl
  | ok arg rest =>
      obtain ⟨value, hsplit, hvalue, hstop⟩ := defaultTerms_sound hterms
      rw [Reading.andThen_ok, Reading.andThen_ok]
      cases hcomma : nextIs .comma rest with
      | true =>
          obtain ⟨comma, rest, rfl⟩ := nextIs_iff.mp hcomma
          rw [skipComma, if_pos rfl]
          simp [argumentsFrom, insideCall, OpenCall.nextArgument]
      | false =>
          have hclosing : nextIs .closeParen rest = true := by simpa [hcomma] using hstop
          have hsome : arg ≠ [] := by
            -- an empty argument would stand before the closing parenthesis
            rintro rfl
            cases hvalue
            rw [hsplit, List.nil_append, hclosing] at hclose
            cases hclose
          rw [skipComma_eq_self hcomma]
          obtain ⟨closing, rest, rfl⟩ := nextIs_iff.mp hclosing
          rw [argumentsFrom_close]
          simp [insideCall, OpenCall.close, OpenCall.nextArgument, hsome]

theorem argumentLoop_endsWith (name : Token) (opening : Bytes) (tokens : List Token) :
    (argumentLoop name.value).EndsWith [] tokens (call (name :: ⟨.openParen, opening⟩ :: tokens)) := by
  refine (argumentLoop_progresses name.value).endsWith (argumentsFrom name.value) ?_ ?_ [] tokens
  · intro args tokens hoff
    have hclose : nextIs .closeParen tokens = true := by simpa [argumentLoop] using hoff
    obtain ⟨closing, rest, rfl⟩ := nextIs_iff.mp hclose
    exact argumentsFrom_close name.value args closing rest
  · intro args tokens hon
    have hclose : nextIs .closeParen tokens = false := by simpa [argumentLoop] using hon
    rw [argumentsFrom_eq name.value args hclose]
    simp only [argumentLoop]
    cases defaultTerms tokens <;> rfl

/-- The rest of parameters of which these are read, and the parenthesis that closes them. -/
def paramsFrom (ps : List Expr) (tokens : List Token) : Reading (List Expr) :=
  (paramList tokens).andThen fun more rest => (expect .closeParen rest).map fun _ => ps ++ more

theorem paramsFrom_cons (ps : List Expr) (name : Bytes) (rest : List Token) :
    paramsFrom ps (⟨.identifier, name⟩ :: rest) =
      (defaultValue rest).andThen fun value rest => paramsFrom (ps ++ [.var name :: value]) (skipComma rest) := by
  rw [paramsFrom, paramList_cons, if_pos rfl]
  cases defaultValue rest with
  | error e left => rfl
  | ok value left =>
      simp only [Reading.andThen_ok, paramsFrom]
      cases paramList (skipComma left) with
      | error e left => rfl
      | ok more left => simp

theorem parameterLoop_endsWith (opening : Bytes) (tokens : List Token) :
    parameterLoop.EndsWith [] tokens (params (⟨.openParen, opening⟩ :: tokens)) := by
  refine parameterLoop_progresses.endsWith paramsFrom ?_ ?_ [] tokens
  · intro ps tokens hoff
    rw [paramsFrom, paramList_eq_nil hoff, Reading.andThen_ok, List.append_nil]
    rfl
  · intro ps tokens hon
    obtain ⟨name, rest, rfl⟩ := nextIs_iff.mp hon
    rw [paramsFrom_cons]
    simp only [parameterLoop, expect, if_pos, Reading.andThen_ok]
    cases defaultValue rest <;> rfl

/-- The rest of statements of which these are read, up to the end of the list. -/
def statementsFrom (s : OpenStatements) (tokens : List Token) : Reading (List Expr) :=
  if endsStatements tokens then .ok s.close tokens
  else (statement tokens).andThen fun expr rest =>
    (statements (skipNewlines rest)).map (s.exprs ++ (s.terms ++ expr) :: ·)

theorem statementsFrom_of_ends (s : OpenStatements) {tokens : List Token} (h : endsStatements tokens = true) :
    statementsFrom s tokens = .ok s.close tokens := if_pos h

theorem statementsFrom_of_not_ends (s : OpenStatements) {tokens : List Token}
    (h : endsStatements tokens = false) : statementsFrom s tokens =
      (statement tokens).andThen fun expr rest =>
        (statements (skipNewlines rest)).map (s.exprs ++ (s.terms ++ expr) :: ·) := by
  rw [statementsFrom, h]
  rfl

theorem statementsFrom_nil (exprs : List Expr) (tokens : List Token) :
    statementsFrom ⟨exprs, []⟩ tokens = (statements tokens).map (exprs ++ ·) := by
  rw [statementsFrom, statements_eq]
  split
  · simp [OpenStatements.close]
  · cases statement tokens with
    | error e left => rfl
    | ok expr rest => simp only [Reading.andThen_ok, Reading.map_map, List.nil_append, Function.comp_def]

/-- A term is read behind the unfinished statement, and with it the newlines that finish the statement. -/
theorem statementsFrom_eq (s : OpenStatements) {tokens : List Token} (h : endsStatements tokens = false) :
    statementsFrom s tokens = (term tokens).andThen fun t rest =>
      if nextIs .newline rest then statementsFrom ⟨s.exprs ++ [s.terms ++ [t]], []⟩ (skipNewlines rest)
      else statementsFrom ⟨s.exprs, s.terms ++ [t]⟩ rest := by
  rw [statementsFrom_of_not_ends s h, statement_eq]
  cases term tokens with
  | error e left => rfl
  | ok t rest =>
      simp only [Reading.andThen_ok]
      cases hnewline : nextIs .newline rest with
      | true =>
          rw [statementsFrom_nil]
          simp
      | false =>
          cases hends : endsStatements rest with
          | true =>
              simp [statementsFrom_of_ends _ hends, skipNewlines_eq_self hnewline, statements_eq_nil hends,
                OpenStatements.close]
          | false =>
              simp only [statementsFrom_of_not_ends _ hends]
              cases statement rest with
              | error e left => rfl
              | ok expr left => simp

theorem statementLoop_endsWith (tokens : List Token) :
    statementLoop.EndsWith ⟨[], []⟩ tokens (statements tokens) := by
  have hends : statementLoop.EndsWith ⟨[], []⟩ tokens (statementsFrom ⟨[], []⟩ tokens) := by
    refine statementLoop_progresses.endsWith statementsFrom ?_ ?_ ⟨[], []⟩ tokens
    · intro s tokens hoff
      exact statementsFrom_of_ends s (by simpa [statementLoop] using hoff)
    · intro s tokens hon
      rw [statementsFrom_eq s (by simpa [statementLoop] using hon)]
      simp only [statementLoop]
      cases term tokens with
      | error e left => rfl
      | ok t rest =>
          simp only [Reading.andThen_ok]
          split <;> rfl
  have hread : statementsFrom ⟨[], []⟩ tokens = statements tokens := by
    rw [statementsFrom_nil]
    cases statements tokens <;> rfl
  rwa [hread] at hends

theorem nodeLoop_endsWith (tokens : List Token) : nodeLoop.EndsWith [] tokens (program tokens) := by
  have hends : nodeLoop.EndsWith [] tokens ((program tokens).map ([] ++ ·)) := by
    refine nodeLoop_progresses.endsWith (fun nodes tokens => (program tokens).map (nodes ++ ·)) ?_ ?_ [] tokens
    · intro nodes tokens hoff
      have hnil : tokens = [] := by simpa [nodeLoop] using hoff
      rw [hnil, program, Reading.map_ok, List.append_nil]
      rfl
    · intro nodes tokens hon
      have hne : tokens ≠ [] := by simpa [nodeLoop] using hon
      rw [program_eq hne]
      exact map_append_andThen (node tokens) nodes program
  have hread : (program tokens).map ([] ++ ·) = program tokens := by
    cases program tokens <;> rfl
  rwa [hread] at hends

theorem rest_of_nodeLoop {rounds : Nat} {nodes p : Program} {tokens left : List Token}
    (h : nodeLoop.Runs rounds nodes tokens (.ok p left)) : left = [] := by
  generalize houtcome : Reading.ok p left = outcome at h
  induction h with
  | stop hoff =>
      cases houtcome
      simpa [nodeLoop] using hoff
  | fail => cases houtcome
  | next _ _ _ ih => exact ih houtcome

end Read

open Read

/-- Reading makes progress. Each procedure leaves the end of its tokens, and fewer if it has read a term, a
call, a function or a node; each round of each loop fails or leaves fewer tokens. So every loop ends, and with
what the procedure gives, and a program is read only when no token is left. -/
theorem reading_progresses :
    (∀ tokens, (term tokens).Advances tokens ∧ (call tokens).Advances tokens ∧
      (function tokens).Advances tokens ∧ (tokens ≠ [] → (node tokens).Advances tokens) ∧
      (node tokens).rest <:+ tokens ∧ (params tokens).rest <:+ tokens ∧
      (statements tokens).rest <:+ tokens ∧ skipNewlines tokens <:+ tokens) ∧
    (newlineLoop.Progresses ∧ termLoop.Progresses ∧ (∀ name, (argumentLoop name).Progresses) ∧
      parameterLoop.Progresses ∧ statementLoop.Progresses ∧ nodeLoop.Progresses) ∧
    (∀ tokens, newlineLoop.EndsWith () tokens (.ok () (skipNewlines tokens)) ∧
      (∀ terms, termLoop.EndsWith terms tokens ((defaultTerms tokens).map (terms ++ ·))) ∧
      (∀ name opening, (argumentLoop name.value).EndsWith [] tokens
        (call (name :: ⟨.openParen, opening⟩ :: tokens))) ∧
      (∀ opening, parameterLoop.EndsWith [] tokens (params (⟨.openParen, opening⟩ :: tokens))) ∧
      statementLoop.EndsWith ⟨[], []⟩ tokens (statements tokens) ∧
      nodeLoop.EndsWith [] tokens (program tokens)) ∧
    ∀ tokens p left, program tokens = .ok p left → left = [] := by
  refine ⟨fun tokens => ⟨term_advances tokens, call_advances tokens, function_advances tokens, node_advances,
    node_rest_suffix tokens, (params_localAt tokens).rest_suffix, (statements_localAt tokens).rest_suffix,
    skipNewlines_suffix tokens⟩, ?_, ?_, ?_⟩
  · exact ⟨newlineLoop_progresses, termLoop_progresses, argumentLoop_progresses, parameterLoop_progresses,
      statementLoop_progresses, nodeLoop_progresses⟩
  · intro tokens
    exact ⟨newlineLoop_endsWith tokens, fun terms => termLoop_endsWith terms tokens,
      fun name opening => argumentLoop_endsWith name opening tokens,
      fun opening => parameterLoop_endsWith opening tokens, statementLoop_endsWith tokens,
      nodeLoop_endsWith tokens⟩
  · intro tokens p left hread
    obtain ⟨rounds, _, hruns⟩ := (nodeLoop_endsWith tokens).runs
    rw [hread] at hruns
    exact rest_of_nodeLoop hruns

/-- A call with nothing before its comma: the round that makes the empty argument has used up the comma. -/
theorem reading_progresses_empty_argument :
    [⟨.identifier, text "f"⟩, ⟨.openParen, text "("⟩, ⟨.comma, text ","⟩, ⟨.closeParen, text ")"⟩] ≠
      ([] : List Token) ∧
    (node [⟨.identifier, text "f"⟩, ⟨.openParen, text "("⟩, ⟨.comma, text ","⟩, ⟨.closeParen, text ")"⟩]).Advances
      [⟨.identifier, text "f"⟩, ⟨.openParen, text "("⟩, ⟨.comma, text ","⟩, ⟨.closeParen, text ")"⟩] ∧
    (∃ left, program [⟨.identifier, text "f"⟩, ⟨.openParen, text "("⟩, ⟨.comma, text ","⟩,
        ⟨.closeParen, text ")"⟩] = .ok [.statements [[.call (text "f") [[]]]]] left ∧ left = []) ∧
    ∃ rounds ≤ 2, (argumentLoop (text "f")).Runs rounds [] [⟨.comma, text ","⟩, ⟨.closeParen, text ")"⟩]
      (.ok (.call (text "f") [[]]) []) := by
  have hne : [⟨.identifier, text "f"⟩, ⟨.openParen, text "("⟩, ⟨.comma, text ","⟩, ⟨.closeParen, text ")"⟩] ≠
      ([] : List Token) := List.cons_ne_nil _ _
  have hread : program [⟨.identifier, text "f"⟩, ⟨.openParen, text "("⟩, ⟨.comma, text ","⟩,
      ⟨.closeParen, text ")"⟩] = .ok [.statements [[.call (text "f") [[]]]]] [] := by
    with_unfolding_all rfl
  have hcall : call [⟨.identifier, text "f"⟩, ⟨.openParen, text "("⟩, ⟨.comma, text ","⟩,
      ⟨.closeParen, text ")"⟩] = .ok (.call (text "f") [[]]) [] := by
    with_unfolding_all rfl
  obtain ⟨hprocedures, -, hloops, hleft⟩ := reading_progresses
  refine ⟨hne, (hprocedures _).2.2.2.1 hne, ⟨[], hread, hleft _ _ _ hread⟩, ?_⟩
  have harguments := (hloops [⟨.comma, text ","⟩, ⟨.closeParen, text ")"⟩]).2.2.1 ⟨.identifier, text "f"⟩ (text "(")
  rw [hcall] at harguments
  exact harguments.runs

end Scriptlet
