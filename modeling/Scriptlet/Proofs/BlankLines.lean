import Scriptlet.Proofs.Locality

/-!
Blank lines. Reading skips newlines in runs, or stops at the first of them: where a statement may end and around
the body of a function any number of newlines counts as one, and everywhere else the first newline is an error. So
a list of tokens is read as the one in which only the first newline of each run is kept, and where reading it
fails it fails in the same way.
-/

namespace Scriptlet

/-- The tokens with only the first of the newlines that stand side by side. -/
def Token.collapseNewlines : List Token → List Token
  | [] => []
  | token :: rest =>
    if token.kind = .newline then token :: (collapseNewlines rest).dropWhile (·.kind == .newline)
    else token :: collapseNewlines rest

namespace Read
open Token

theorem collapseNewlines_cons {token : Token} (h : token.kind ≠ .newline) (rest : List Token) :
    collapseNewlines (token :: rest) = token :: collapseNewlines rest := by
  rw [collapseNewlines, if_neg h]

theorem head?_collapseNewlines (tokens : List Token) : (collapseNewlines tokens).head? = tokens.head? := by
  cases tokens with
  | nil => rfl
  | cons token rest =>
      rw [collapseNewlines]
      split <;> rfl

theorem exists_collapseNewlines_cons (token : Token) (rest : List Token) :
    ∃ more, collapseNewlines (token :: rest) = token :: more := by
  obtain ⟨more, hmore⟩ := List.head?_eq_some_iff.mp (head?_collapseNewlines (token :: rest))
  exact ⟨more, hmore⟩

theorem nextIs_skipNewlines (tokens : List Token) : nextIs .newline (skipNewlines tokens) = false := by
  have hhead := List.head?_dropWhile_not (fun token : Token => token.kind == .newline) tokens
  cases hskip : skipNewlines tokens with
  | nil => rfl
  | cons token rest =>
      rw [skipNewlines] at hskip
      rw [nextIs, beq_eq_false_iff_ne]
      simpa [hskip] using hhead

theorem skipNewlines_collapseNewlines (tokens : List Token) :
    skipNewlines (collapseNewlines tokens) = collapseNewlines (skipNewlines tokens) := by
  induction tokens with
  | nil => rfl
  | cons token rest ih =>
      by_cases hkind : token.kind = .newline
      · have hdrop : ∀ more, skipNewlines (token :: more) = skipNewlines more := by
          intro more
          exact List.dropWhile_cons_of_pos (by simp [hkind])
        rw [collapseNewlines, if_pos hkind, hdrop, hdrop]
        have hagain := skipNewlines_eq_self (nextIs_skipNewlines (collapseNewlines rest))
        exact hagain.trans ih
      · have hself : ∀ more, skipNewlines (token :: more) = token :: more := by
          intro more
          exact skipNewlines_eq_self (by simpa [nextIs] using hkind)
        rw [hself, collapseNewlines_cons hkind, hself]

theorem nextIs_collapseNewlines (kind : TokenKind) (tokens : List Token) :
    nextIs kind (collapseNewlines tokens) = nextIs kind tokens := nextIs_congr (head?_collapseNewlines tokens)

theorem endsStatements_collapseNewlines (tokens : List Token) :
    endsStatements (collapseNewlines tokens) = endsStatements tokens :=
  endsStatements_congr (head?_collapseNewlines tokens)

theorem skipComma_collapseNewlines (tokens : List Token) :
    skipComma (collapseNewlines tokens) = collapseNewlines (skipComma tokens) := by
  cases hcomma : nextIs .comma tokens with
  | true =>
      obtain ⟨value, rest, rfl⟩ := nextIs_iff.mp hcomma
      rw [collapseNewlines_cons (by simp), skipComma, skipComma, if_pos rfl, if_pos rfl]
  | false =>
      rw [skipComma_eq_self hcomma, skipComma_eq_self ((nextIs_collapseNewlines _ _).trans hcomma)]

/-! ### Readings that agree -/

variable {α β : Type}

/-- The same value, with the tokens left collapsed, or the same error. -/
inductive Agrees : Reading α → Reading α → Prop where
  | ok (a : α) (left : List Token) : Agrees (.ok a left) (.ok a (collapseNewlines left))
  | error (e : ParseError) (left left' : List Token) : Agrees (.error e left) (.error e left')

theorem Agrees.map {r s : Reading α} (h : Agrees r s) (f : α → β) : Agrees (r.map f) (s.map f) := by
  cases h with
  | ok a left => exact .ok (f a) left
  | error e left left' => exact .error e left left'

theorem Agrees.andThen {r s : Reading α} (h : Agrees r s) {f : α → List Token → Reading β}
    (hf : ∀ a left, r = .ok a left → Agrees (f a left) (f a (collapseNewlines left))) :
    Agrees (r.andThen f) (s.andThen f) := by
  cases h with
  | ok a left => exact hf a left rfl
  | error e left left' => exact .error e left left'

theorem Agrees.result_eq {r s : Reading α} (h : Agrees r s) : s.result = r.result := by
  cases h <;> rfl

/-! ### The procedures -/

theorem expect_agrees {kind : TokenKind} (hkind : kind ≠ .newline) (tokens : List Token) :
    Agrees (expect kind tokens) (expect kind (collapseNewlines tokens)) := by
  cases tokens with
  | nil => exact .error _ _ _
  | cons token rest =>
      by_cases htoken : token.kind = kind
      · rw [collapseNewlines_cons (htoken ▸ hkind), expect, expect, if_pos htoken, if_pos htoken]
        exact .ok token rest
      · obtain ⟨more, hmore⟩ := exists_collapseNewlines_cons token rest
        rw [hmore, expect, expect, if_neg htoken, if_neg htoken]
        exact .error _ _ _

theorem kind_ne_newline_of_atom {token : Token} {rest left : List Token} {t : Term}
    (h : atom token rest = .ok t left) : token.kind ≠ .newline := by
  intro hkind
  rw [atom, hkind] at h
  cases h

theorem insideCall_agrees (inner : OpenCall) (outer : List OpenCall) (tokens : List Token) :
    Agrees (insideCall inner outer tokens) (insideCall inner outer (collapseNewlines tokens)) := by
  fun_induction insideCall inner outer tokens with
  | case1 => exact .error _ _ _
  | case2 inner outer value rest ih =>
      rw [collapseNewlines_cons (by simp)]
      exact ih
  | case3 inner value rest =>
      rw [collapseNewlines_cons (by simp)]
      exact .ok _ rest
  | case4 inner value rest next outer ih =>
      rw [collapseNewlines_cons (by simp)]
      exact ih
  | case5 inner outer name value rest ih =>
      rw [collapseNewlines_cons (by simp), collapseNewlines_cons (by simp)]
      exact ih
  | case6 inner outer token rest hcomma hclose hcall t left heq ih =>
      rcases atom_cases token with ⟨t', hatom⟩ | ⟨_, e, _, hatom⟩
      · rw [collapseNewlines_cons (kind_ne_newline_of_atom heq), insideCall]
        · rw [hatom] at heq ⊢
          cases heq
          exact ih
        · exact hcomma
        · exact hclose
        · exact not_call_of_head (head?_collapseNewlines rest) hcall
      · rw [hatom] at heq
        cases heq
  | case7 inner outer token rest hcomma hclose hcall e left heq =>
      rcases atom_cases token with ⟨t', hatom⟩ | ⟨hkind, e, rfl, hatom⟩
      · rw [hatom] at heq
        cases heq
      · obtain ⟨more, hmore⟩ := exists_collapseNewlines_cons e.found rest
        rw [hatom] at heq
        cases heq
        rw [hmore, insideCall, hatom]
        · exact .error _ _ _
        · exact hcomma
        · exact hclose
        · rintro name _ _ htoken _
          exact hkind (by rw [htoken])

theorem term_agrees (tokens : List Token) : Agrees (term tokens) (term (collapseNewlines tokens)) := by
  cases tokens with
  | nil => exact .error _ _ _
  | cons token rest =>
      by_cases hcall : ∃ name opening more, token = ⟨.identifier, name⟩ ∧ rest = ⟨.openParen, opening⟩ :: more
      · obtain ⟨name, opening, more, rfl, rfl⟩ := hcall
        rw [collapseNewlines_cons (by simp), collapseNewlines_cons (by simp), term_call, term_call]
        exact insideCall_agrees _ _ more
      · have hnot : ∀ name opening more, token = ⟨.identifier, name⟩ →
            rest = ⟨.openParen, opening⟩ :: more → False :=
          fun name opening more htoken hrest => hcall ⟨name, opening, more, htoken, hrest⟩
        rcases atom_cases token with ⟨t, hatom⟩ | ⟨hkind, e, rfl, hatom⟩
        · have hmore := not_call_of_head (head?_collapseNewlines rest) hnot
          rw [collapseNewlines_cons (kind_ne_newline_of_atom (hatom rest)), term_eq_atom hnot, term_eq_atom hmore,
            hatom, hatom]
          exact .ok t rest
        · obtain ⟨more, hmore⟩ := exists_collapseNewlines_cons e.found rest
          have hname : ∀ {behind : List Token} name opening more, e.found = ⟨.identifier, name⟩ →
              behind = ⟨.openParen, opening⟩ :: more → False :=
            fun name _ _ htoken _ => hkind (by rw [htoken])
          rw [hmore, term_eq_atom hname, term_eq_atom hname, hatom, hatom]
          exact .error _ _ _

theorem defaultTerms_agrees (tokens : List Token) :
    Agrees (defaultTerms tokens) (defaultTerms (collapseNewlines tokens)) := by
  induction hlength : tokens.length using Nat.strongRecOn generalizing tokens with
  | ind n ih =>
      rw [defaultTerms_eq, defaultTerms_eq (collapseNewlines tokens), nextIs_collapseNewlines,
        nextIs_collapseNewlines]
      split
      · exact .ok [] tokens
      · refine (term_agrees tokens).andThen fun t left hread => (ih _ ?_ left rfl).map (t :: ·)
        rw [← hlength]
        exact term_length_lt hread

theorem defaultValue_agrees (tokens : List Token) :
    Agrees (defaultValue tokens) (defaultValue (collapseNewlines tokens)) := by
  cases hassign : nextIs .assign tokens with
  | true =>
      obtain ⟨value, rest, rfl⟩ := nextIs_iff.mp hassign
      rw [collapseNewlines_cons (by simp), defaultValue, defaultValue, if_pos rfl, if_pos rfl]
      exact (defaultTerms_agrees rest).map _
  | false =>
      rw [defaultValue_eq_nil hassign, defaultValue_eq_nil ((nextIs_collapseNewlines _ _).trans hassign)]
      exact .ok [] tokens

theorem paramList_agrees (tokens : List Token) :
    Agrees (paramList tokens) (paramList (collapseNewlines tokens)) := by
  induction hlength : tokens.length using Nat.strongRecOn generalizing tokens with
  | ind n ih =>
      cases hname : nextIs .identifier tokens with
      | true =>
          obtain ⟨name, rest, rfl⟩ := nextIs_iff.mp hname
          rw [collapseNewlines_cons (by simp), paramList_cons, paramList_cons, if_pos rfl, if_pos rfl]
          refine (defaultValue_agrees rest).andThen fun value left hread => ?_
          rw [skipComma_collapseNewlines]
          refine (ih _ ?_ (skipComma left) rfl).map _
          have := defaultValue_length_le hread
          have := skipComma_length_le left
          rw [← hlength, List.length_cons]
          omega
      | false =>
          rw [paramList_eq_nil hname, paramList_eq_nil ((nextIs_collapseNewlines _ _).trans hname)]
          exact .ok [] tokens

theorem params_agrees (tokens : List Token) : Agrees (params tokens) (params (collapseNewlines tokens)) := by
  cases tokens with
  | nil => exact .ok [] []
  | cons token rest =>
      by_cases hkind : token.kind = .openParen
      · rw [collapseNewlines_cons (by simp [hkind]), params, params, if_pos hkind, if_pos hkind]
        refine (paramList_agrees rest).andThen fun ps left _ => ?_
        exact (expect_agrees (by simp) left).map _
      · obtain ⟨more, hmore⟩ := exists_collapseNewlines_cons token rest
        have hself : params (collapseNewlines (token :: rest)) = .ok [] (collapseNewlines (token :: rest)) := by
          rw [hmore, params, if_neg hkind]
        rw [hself, params, if_neg hkind]
        exact .ok [] (token :: rest)

theorem statement_agrees (tokens : List Token) :
    Agrees (statement tokens) (statement (collapseNewlines tokens)) := by
  induction hlength : tokens.length using Nat.strongRecOn generalizing tokens with
  | ind n ih =>
      rw [statement_eq, statement_eq (collapseNewlines tokens)]
      refine (term_agrees tokens).andThen fun t left hread => ?_
      rw [nextIs_collapseNewlines, endsStatements_collapseNewlines]
      split
      · exact .ok [t] left
      · refine (ih _ ?_ left rfl).map _
        rw [← hlength]
        exact term_length_lt hread

theorem statements_agrees (tokens : List Token) :
    Agrees (statements tokens) (statements (collapseNewlines tokens)) := by
  induction hlength : tokens.length using Nat.strongRecOn generalizing tokens with
  | ind n ih =>
      rw [statements_eq, statements_eq (collapseNewlines tokens), endsStatements_collapseNewlines]
      split
      · exact .ok [] tokens
      · refine (statement_agrees tokens).andThen fun expr left hread => ?_
        rw [skipNewlines_collapseNewlines]
        refine (ih _ ?_ (skipNewlines left) rfl).map _
        have := statement_length_lt hread
        have := skipNewlines_length_le left
        omega

theorem function_agrees (tokens : List Token) :
    Agrees (function tokens) (function (collapseNewlines tokens)) := by
  refine (expect_agrees (by simp) tokens).andThen fun _ left _ => ?_
  refine (expect_agrees (by simp) left).andThen fun name left _ => ?_
  refine (params_agrees left).andThen fun ps left _ => ?_
  rw [skipNewlines_collapseNewlines]
  refine (statements_agrees (skipNewlines left)).andThen fun body left _ => ?_
  refine (expect_agrees (by simp) left).andThen fun _ left _ => ?_
  rw [skipNewlines_collapseNewlines]
  exact .ok _ _

theorem node_agrees (token : Token) (rest : List Token) :
    Agrees (node (token :: rest)) (node (collapseNewlines (token :: rest))) := by
  obtain ⟨more, hmore⟩ := exists_collapseNewlines_cons token rest
  rw [hmore, node, node]
  split
  · rw [← hmore]
    exact function_agrees (token :: rest)
  · split
    · exact .error _ _ _
    · rw [← hmore]
      exact (statements_agrees (token :: rest)).map _

theorem program_agrees (tokens : List Token) :
    Agrees (program tokens) (program (collapseNewlines tokens)) := by
  induction hlength : tokens.length using Nat.strongRecOn generalizing tokens with
  | ind n ih =>
      cases tokens with
      | nil =>
          rw [collapseNewlines, program]
          exact .ok [] []
      | cons token rest =>
          have hne : collapseNewlines (token :: rest) ≠ [] := by
            obtain ⟨more, hmore⟩ := exists_collapseNewlines_cons token rest
            simp [hmore]
          rw [program_eq hne, program_cons]
          refine (node_agrees token rest).andThen fun n left hread => (ih _ ?_ left rfl).map _
          rw [← hlength]
          exact node_length_lt hread

end Read

/-- How many newlines stand side by side makes no difference to what is read, be it a program or an error. -/
theorem parse_collapseNewlines (tokens : List Token) :
    parse (Token.collapseNewlines tokens) = parse tokens := by
  rw [parse, parse]
  exact (Read.program_agrees tokens).result_eq

example (a b c : Bytes) :
    Token.collapseNewlines [⟨.newline, a⟩, ⟨.newline, b⟩, ⟨.identifier, c⟩, ⟨.newline, b⟩, ⟨.newline, a⟩] =
      [⟨.newline, a⟩, ⟨.identifier, c⟩, ⟨.newline, b⟩] := rfl

end Scriptlet
