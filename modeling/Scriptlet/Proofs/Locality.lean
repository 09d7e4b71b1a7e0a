import Scriptlet.Proofs.Calls

/-!
Reading is local. A procedure that leaves tokens has decided by the tokens it used and the first one it
left, and one that fails has decided by the tokens up to the one the error was found at; what stands behind
plays no part. So an error at a token stays the same whatever follows, and only an error at the end of
the tokens can go away when tokens are added.
-/

namespace Scriptlet

/-- What an error leaves of the token it was found at: the token itself if no term begins with it or if it
is an `end` without a `def`, else nothing. -/
def ParseError.kept (e : ParseError) : List Token :=
  if e.kind = .unexpectedLookahead ∨ e.kind = .unexpectedToken ∧ e.expected = .defKeyword then [e.found]
  else []

/-- The error was found behind the last token. -/
def ParseError.AtEnd (e : ParseError) : Prop := e.found = .endOfInput ∧ e.kind ≠ .invalidInteger

namespace Read

variable {α β : Type}

/-- Reading these tokens is decided by those up to the first one left, or up to the one of the error. -/
structure LocalAt (f : List Token → Reading α) (tokens : List Token) : Prop where
  ok : ∀ {a next rest}, f tokens = .ok a (next :: rest) →
    ∃ used, tokens = used ++ next :: rest ∧ ∀ more, f (used ++ next :: more) = .ok a (next :: more)
  error : ∀ {e left}, f tokens = .error e left → (e.AtEnd ∧ left = []) ∨
    ∃ used rest, tokens = used ++ e.found :: rest ∧
      ∀ more, f (used ++ e.found :: more) = .error e (e.kept ++ more)

namespace LocalAt

variable {f : List Token → Reading α} {tokens : List Token}

/-- What is left is the end of what was given. -/
theorem suffix (h : LocalAt f tokens) {a : α} {left : List Token} (hf : f tokens = .ok a left) :
    ∃ used, tokens = used ++ left := by
  cases left with
  | nil => exact ⟨tokens, (List.append_nil tokens).symm⟩
  | cons next rest =>
      obtain ⟨used, hsplit, _⟩ := h.ok hf
      exact ⟨used, hsplit⟩

/-- Also a procedure that fails leaves the end of what it was given. -/
theorem rest_suffix (h : LocalAt f tokens) : (f tokens).rest <:+ tokens := by
  cases hf : f tokens with
  | ok a left =>
      obtain ⟨used, hsplit⟩ := h.suffix hf
      exact ⟨used, hsplit.symm⟩
  | error e left =>
      rcases h.error hf with ⟨_, rfl⟩ | ⟨used, rest, rfl, hused⟩
      · exact List.nil_suffix
      · have hleft : left = e.kept ++ rest := (Reading.error.inj (hf.symm.trans (hused rest))).2
        rw [Reading.rest, hleft, ParseError.kept]
        split
        · exact List.suffix_append used _
        · exact ⟨used ++ [e.found], by simp⟩

/-- A procedure that reads everything has nothing to decide. -/
theorem of_ok_nil {a : α} (h : f tokens = .ok a []) : LocalAt f tokens := by
  constructor
  · intro a' next rest h'
    rw [h] at h'
    cases h'
  · intro e left h'
    rw [h] at h'
    cases h'

theorem of_atEnd {e : ParseError} (h : f tokens = .error e []) (he : e.AtEnd) : LocalAt f tokens := by
  constructor
  · intro a next rest h'
    rw [h] at h'
    cases h'
  · intro e' left h'
    rw [h] at h'
    cases h'
    exact Or.inl ⟨he, rfl⟩

/-- A procedure that fails at the first token. -/
theorem of_error_head {e : ParseError} {rest : List Token}
    (h : ∀ more, f (e.found :: more) = .error e (e.kept ++ more)) : LocalAt f (e.found :: rest) := by
  constructor
  · intro a next rest' h'
    rw [h] at h'
    cases h'
  · intro e' left h'
    rw [h] at h'
    cases h'
    exact Or.inr ⟨[], rest, rfl, h⟩

theorem ok_self (a : α) (tokens : List Token) : LocalAt (Reading.ok a) tokens := by
  constructor
  · intro a' next rest h
    cases h
    exact ⟨[], rfl, fun _ => rfl⟩
  · intro e left h
    cases h

/-- A procedure that behaves as another one behind some tokens, as long as the first token there is the
same. -/
theorem shift {g : List Token → Reading α} {rest : List Token} (front : List Token)
    (h : ∀ more, more.head? = rest.head? → f (front ++ more) = g more) (hg : LocalAt g rest) :
    LocalAt f (front ++ rest) := by
  constructor
  · intro a next left hf
    rw [h rest rfl] at hf
    obtain ⟨used, rfl, hused⟩ := hg.ok hf
    refine ⟨front ++ used, by simp, fun more => ?_⟩
    rw [List.append_assoc, h _ (by cases used <;> rfl), hused]
  · intro e left hf
    rw [h rest rfl] at hf
    rcases hg.error hf with hend | ⟨used, left, rfl, hused⟩
    · exact Or.inl hend
    · refine Or.inr ⟨front ++ used, left, by simp, fun more => ?_⟩
      rw [List.append_assoc, h _ (by cases used <;> rfl), hused]

/-- A procedure that behaves as another one as long as the first token is the same. -/
theorem congr {g : List Token → Reading α} (h : ∀ more, more.head? = tokens.head? → f more = g more)
    (hg : LocalAt g tokens) : LocalAt f tokens := shift [] h hg

theorem map (h : LocalAt f tokens) (k : α → β) : LocalAt (fun tokens => (f tokens).map k) tokens := by
  constructor
  · intro b next rest hmap
    obtain ⟨a, hf, rfl⟩ := Reading.map_eq_ok.mp hmap
    obtain ⟨used, hsplit, hused⟩ := h.ok hf
    exact ⟨used, hsplit, fun more => by rw [hused]; rfl⟩
  · intro e left hmap
    cases hf : f tokens with
    | ok a rest => rw [hf] at hmap; cases hmap
    | error e' left' =>
        rw [hf] at hmap
        cases hmap
        rcases h.error hf with hend | ⟨used, rest, hsplit, hused⟩
        · exact Or.inl hend
        · exact Or.inr ⟨used, rest, hsplit, fun more => by rw [hused]; rfl⟩

/-- One procedure after another. The second one starts at the token that the first one looked at. -/
theorem andThen {g : α → List Token → Reading β} (hf : LocalAt f tokens)
    (hg : ∀ {a rest}, f tokens = .ok a rest → LocalAt (g a) rest) :
    LocalAt (fun tokens => (f tokens).andThen g) tokens := by
  cases hread : f tokens with
  | error e left =>
      constructor
      · intro b next rest h
        rw [hread] at h
        cases h
      · intro e' left' h
        rw [hread] at h
        cases h
        rcases hf.error hread with hend | ⟨used, rest, hsplit, hused⟩
        · exact Or.inl hend
        · exact Or.inr ⟨used, rest, hsplit, fun more => by rw [hused]; rfl⟩
  | ok a rest =>
      cases rest with
      | nil =>
          cases hnext : g a [] with
          | ok b left =>
              cases left with
              | nil => exact of_ok_nil (by rw [hread]; exact hnext)
              | cons next left =>
                  obtain ⟨used, hsplit, _⟩ := (hg hread).ok hnext
                  cases used <;> cases hsplit
          | error e left =>
              rcases (hg hread).error hnext with ⟨hend, rfl⟩ | ⟨used, rest, hsplit, _⟩
              · exact of_atEnd (by rw [hread]; exact hnext) hend
              · cases used <;> cases hsplit
      | cons next rest =>
          obtain ⟨used, rfl, hused⟩ := hf.ok hread
          refine shift used (fun more hmore => ?_) (hg hread)
          cases more with
          | nil => cases hmore
          | cons next' more =>
              cases hmore
              rw [hused]
              rfl

/-- Newlines that are skipped first change nothing. -/
theorem comp_skipNewlines (h : LocalAt f (skipNewlines tokens)) :
    LocalAt (fun tokens => f (skipNewlines tokens)) tokens := by
  induction tokens with
  | nil =>
      refine congr (fun more hmore => ?_) h
      cases more with
      | nil => rfl
      | cons => cases hmore
  | cons token rest ih =>
      by_cases hkind : token.kind = .newline
      · obtain ⟨_, value⟩ := token
        cases hkind
        exact shift [_] (fun _ _ => rfl) (ih h)
      · have hself : ∀ more, skipNewlines (token :: more) = token :: more := by
          intro more
          exact skipNewlines_eq_self (by simpa [nextIs] using hkind)
        rw [hself] at h
        refine congr (fun more hmore => ?_) h
        cases more with
        | nil => cases hmore
        | cons token' more =>
            cases hmore
            rw [hself]

end LocalAt

/-! ### The procedures -/

theorem expect_localAt (kind : TokenKind) (hkind : kind ≠ .defKeyword) (tokens : List Token) :
    LocalAt (expect kind) tokens := by
  cases tokens with
  | nil => exact .of_atEnd rfl ⟨rfl, by simp [ParseError.unexpected]⟩
  | cons token rest =>
      by_cases htoken : token.kind = kind
      · refine .shift [token] (fun more _ => ?_) (.ok_self token rest)
        exact if_pos htoken
      · refine .of_error_head (e := .unexpected kind token) fun more => ?_
        rw [ParseError.kept, if_neg (by simp [ParseError.unexpected, hkind])]
        exact if_neg htoken

/-- A token by itself is a term whatever follows, or an error whatever follows. -/
theorem atom_cases (token : Token) : (∃ t, ∀ rest, atom token rest = .ok t rest) ∨
    (token.kind ≠ .identifier ∧ ∃ e : ParseError, e.found = token ∧
      ∀ rest, atom token rest = .error e (e.kept ++ rest)) := by
  obtain ⟨kind, value⟩ := token
  cases kind with
  | nilKeyword | string | identifier | plus | minus | star | slash | assign =>
      exact Or.inl ⟨_, fun _ => rfl⟩
  | integer =>
      cases hvalue : Decimal.toInt64? value with
      | some n => exact Or.inl ⟨.int n, fun _ => by simp only [atom, hvalue]⟩
      | none =>
          refine Or.inr ⟨(fun h => by cases h), .badInteger ⟨.integer, value⟩, rfl, fun _ => ?_⟩
          simp only [atom, hvalue]
          rfl
  | _ => exact Or.inr ⟨(fun h => by cases h), .lookahead _, rfl, fun _ => rfl⟩

/-- What decides that a token does not begin a call is seen in the first token behind it. -/
theorem not_call_of_head {token : Token} {rest more : List Token} (hmore : more.head? = rest.head?)
    (hcall : ∀ name opening behind, token = ⟨.identifier, name⟩ →
      rest = ⟨.openParen, opening⟩ :: behind → False) :
    ∀ name opening behind, token = ⟨.identifier, name⟩ →
      more = ⟨.openParen, opening⟩ :: behind → False := by
  rintro name opening behind htoken rfl
  cases rest with
  | nil => cases hmore
  | cons next behind' =>
      cases hmore
      exact hcall name opening behind' htoken rfl

theorem insideCall_localAt (inner : OpenCall) (outer : List OpenCall) (tokens : List Token) :
    LocalAt (insideCall inner outer) tokens := by
  fun_induction insideCall inner outer tokens with
  | case1 => exact .of_atEnd rfl ⟨rfl, fun h => by cases h⟩
  | case2 inner outer value rest ih => exact .shift [_] (fun _ _ => rfl) ih
  | case3 inner value rest => exact .shift [_] (fun _ _ => rfl) (.ok_self _ _)
  | case4 inner value rest next outer ih => exact .shift [_] (fun _ _ => rfl) ih
  | case5 inner outer name value rest ih => exact .shift [_, _] (fun _ _ => rfl) ih
  | case6 inner outer token rest hcomma hclose hcall t left heq ih =>
      refine .shift [token] (fun more hmore => ?_) ih
      rcases atom_cases token with ⟨t', hatom⟩ | ⟨_, e, _, hatom⟩
      · rw [hatom] at heq
        cases heq
        rw [List.singleton_append, insideCall, hatom]
        · exact hcomma
        · exact hclose
        · exact not_call_of_head hmore hcall
      · rw [hatom] at heq
        cases heq
  | case7 inner outer token rest hcomma hclose hcall e left heq =>
      rcases atom_cases token with ⟨t', hatom⟩ | ⟨hkind, e, rfl, hatom⟩
      · rw [hatom] at heq
        cases heq
      · refine .of_error_head fun more => ?_
        rw [insideCall, hatom]
        · exact hcomma
        · exact hclose
        · rintro name _ _ htoken _
          exact hkind (by rw [htoken])

theorem term_localAt (tokens : List Token) : LocalAt term tokens := by
  cases tokens with
  | nil => exact .of_atEnd rfl ⟨rfl, nofun⟩
  | cons token rest =>
      by_cases hcall : ∃ name opening more, token = ⟨.identifier, name⟩ ∧
          rest = ⟨.openParen, opening⟩ :: more
      · obtain ⟨name, opening, more, rfl, rfl⟩ := hcall
        exact .shift [_, _] (fun more _ => term_call name opening more) (insideCall_localAt _ _ _)
      · have hnot : ∀ name opening more, token = ⟨.identifier, name⟩ →
            rest = ⟨.openParen, opening⟩ :: more → False :=
          fun name opening more htoken hrest => hcall ⟨name, opening, more, htoken, hrest⟩
        rcases atom_cases token with ⟨t, hatom⟩ | ⟨hkind, e, rfl, hatom⟩
        · refine .shift [token] (fun more hmore => ?_) (.ok_self t rest)
          rw [List.singleton_append, term_eq_atom (not_call_of_head hmore hnot), hatom]
        · refine .of_error_head fun more => ?_
          rw [term_eq_atom fun name _ _ htoken _ => hkind (by rw [htoken]), hatom]

theorem nextIs_congr {kind : TokenKind} {tokens more : List Token} (h : more.head? = tokens.head?) :
    nextIs kind more = nextIs kind tokens := by
  cases more <;> cases tokens <;> cases h <;> rfl

theorem endsStatements_congr {tokens more : List Token} (h : more.head? = tokens.head?) :
    endsStatements more = endsStatements tokens := by
  cases more <;> cases tokens <;> cases h <;> rfl

/-- A procedure that goes one of two ways, by the first token. -/
theorem LocalAt.ite {f g h : List Token → Reading α} {stops : List Token → Bool} {tokens : List Token}
    (heq : ∀ tokens, f tokens = if stops tokens then g tokens else h tokens)
    (hcongr : ∀ more, more.head? = tokens.head? → stops more = stops tokens)
    (hg : LocalAt g tokens) (hh : stops tokens = false → LocalAt h tokens) : LocalAt f tokens := by
  cases hstops : stops tokens with
  | true => exact .congr (fun more hmore => by rw [heq, hcongr more hmore, hstops]; rfl) hg
  | false => exact .congr (fun more hmore => by rw [heq, hcongr more hmore, hstops]; rfl) (hh hstops)

theorem defaultTerms_localAt (tokens : List Token) : LocalAt defaultTerms tokens := by
  induction hlength : tokens.length using Nat.strongRecOn generalizing tokens with
  | ind n ih =>
      refine .ite defaultTerms_eq (fun more hmore => ?_) (.ok_self [] tokens) fun _ =>
        .andThen (term_localAt tokens) fun hread => .map (ih _ ?_ _ rfl) _
      · rw [nextIs_congr hmore, nextIs_congr hmore]
      · rw [← hlength]
        exact term_length_lt hread

theorem defaultValue_localAt (tokens : List Token) : LocalAt defaultValue tokens := by
  cases tokens with
  | nil => exact .of_ok_nil rfl
  | cons token rest =>
      by_cases hkind : token.kind = .assign
      · exact .shift [token] (fun more _ => if_pos hkind) (.map (defaultTerms_localAt rest) _)
      · refine .congr (fun more hmore => ?_) (.ok_self [] (token :: rest))
        rw [defaultValue_eq_nil]
        rw [nextIs_congr hmore]
        exact beq_eq_false_iff_ne.mpr hkind

theorem LocalAt.comp_skipComma {f : List Token → Reading α} {tokens : List Token}
    (h : LocalAt f (skipComma tokens)) : LocalAt (fun tokens => f (skipComma tokens)) tokens := by
  cases tokens with
  | nil =>
      refine .congr (fun more hmore => ?_) h
      cases more with
      | nil => rfl
      | cons => cases hmore
  | cons token rest =>
      by_cases hkind : token.kind = .comma
      · rw [skipComma, if_pos hkind] at h
        exact .shift [token] (fun more _ => congrArg f (if_pos hkind)) h
      · have hnext : nextIs .comma (token :: rest) = false := beq_eq_false_iff_ne.mpr hkind
        rw [skipComma_eq_self hnext] at h
        refine .congr (fun more hmore => ?_) h
        rw [skipComma_eq_self ((nextIs_congr hmore).trans hnext)]

theorem paramList_localAt (tokens : List Token) : LocalAt paramList tokens := by
  induction hlength : tokens.length using Nat.strongRecOn generalizing tokens with
  | ind n ih =>
      cases tokens with
      | nil => exact .of_ok_nil (paramList_eq_nil rfl)
      | cons token rest =>
          by_cases hkind : token.kind = .identifier
          · refine .shift [token] (fun more _ => (paramList_cons token more).trans (if_pos hkind))
              (.andThen (defaultValue_localAt rest) fun {value left} hread =>
                .comp_skipComma (f := fun left => (paramList left).map ((.var token.value :: value) :: ·))
                  (.map (ih _ ?_ _ rfl) _))
            have := defaultValue_length_le hread
            have := skipComma_length_le left
            rw [← hlength, List.length_cons]
            omega
          · have hnext : nextIs .identifier (token :: rest) = false := beq_eq_false_iff_ne.mpr hkind
            refine .congr (fun more hmore => ?_) (.ok_self [] (token :: rest))
            exact paramList_eq_nil ((nextIs_congr hmore).trans hnext)

theorem params_localAt (tokens : List Token) : LocalAt params tokens := by
  cases tokens with
  | nil => exact .of_ok_nil rfl
  | cons token rest =>
      by_cases hkind : token.kind = .openParen
      · exact .shift [token] (fun more _ => if_pos hkind) (.andThen (paramList_localAt rest) fun _ =>
          .map (expect_localAt .closeParen (by decide) _) _)
      · refine .congr (fun more hmore => ?_) (.ok_self [] (token :: rest))
        cases more with
        | nil => cases hmore
        | cons token' more =>
            cases hmore
            exact if_neg hkind

theorem statement_localAt (tokens : List Token) : LocalAt statement tokens := by
  induction hlength : tokens.length using Nat.strongRecOn generalizing tokens with
  | ind n ih =>
      refine .congr (fun more _ => statement_eq more) (.andThen (term_localAt tokens) fun {t rest} hread =>
        .ite (fun _ => rfl) (fun more hmore => ?_) (.ok_self [t] rest) fun _ => .map (ih _ ?_ _ rfl) _)
      · rw [nextIs_congr hmore, endsStatements_congr hmore]
      · rw [← hlength]
        exact term_length_lt hread

theorem statements_localAt (tokens : List Token) : LocalAt statements tokens := by
  induction hlength : tokens.length using Nat.strongRecOn generalizing tokens with
  | ind n ih =>
      refine .ite statements_eq (fun more hmore => endsStatements_congr hmore) (.ok_self [] tokens) fun _ =>
        .andThen (statement_localAt tokens) fun {e rest} hread =>
          .comp_skipNewlines (f := fun left => (statements left).map (e :: ·)) (.map (ih _ ?_ _ rfl) _)
      have := statement_length_lt hread
      have := skipNewlines_length_le rest
      omega

/-- What a function definition has behind its name. -/
def functionFrom (name : Bytes) (tokens : List Token) : Reading Node :=
  (params tokens).andThen fun ps rest =>
    (statements (skipNewlines rest)).andThen fun body rest =>
      (expect .endKeyword rest).andThen fun _ rest => .ok (.function name ps (some body)) (skipNewlines rest)

theorem function_cons (opening : Bytes) (rest : List Token) :
    function (⟨.defKeyword, opening⟩ :: rest) =
      (expect .identifier rest).andThen fun name rest => functionFrom name.value rest := rfl

theorem function_localAt (opening : Bytes) (rest : List Token) :
    LocalAt function (⟨.defKeyword, opening⟩ :: rest) := by
  refine .shift [_] (fun more _ => function_cons opening more) ?_
  refine .andThen (expect_localAt .identifier (by decide) rest) fun {name rest} _ => ?_
  refine .andThen (params_localAt rest) fun {ps rest} _ => ?_
  refine .comp_skipNewlines (f := fun rest => (statements rest).andThen fun body rest =>
    (expect .endKeyword rest).andThen fun _ rest =>
      .ok (Node.function name.value ps (some body)) (skipNewlines rest)) ?_
  refine .andThen (statements_localAt _) fun {body rest} _ => ?_
  exact .andThen (expect_localAt .endKeyword (by decide) rest) fun _ => .comp_skipNewlines (.ok_self _ _)

theorem node_localAt (token : Token) (rest : List Token) : LocalAt node (token :: rest) := by
  by_cases hdef : token.kind = .defKeyword
  · obtain ⟨_, opening⟩ := token
    cases hdef
    refine .congr (fun more hmore => ?_) (function_localAt opening rest)
    cases more with
    | nil => cases hmore
    | cons token' more =>
        cases hmore
        rw [node, if_pos rfl]
  by_cases hend : token.kind = .endKeyword
  · refine .of_error_head (e := .unexpected .defKeyword token) fun more => ?_
    exact (if_neg hdef).trans (if_pos hend)
  · have hstop : endsStatements (token :: rest) = false := by
      simp [endsStatements, nextIs, hdef, hend]
    refine .congr (fun more hmore => ?_) (.map (statements_localAt (token :: rest)) .statements)
    exact node_eq_statements ((endsStatements_congr hmore).trans hstop)

theorem program_localAt (tokens : List Token) : LocalAt program tokens := by
  induction hlength : tokens.length using Nat.strongRecOn generalizing tokens with
  | ind n ih =>
      cases tokens with
      | nil => exact .of_ok_nil (by rw [program])
      | cons token rest =>
          refine .congr (fun more hmore => ?_) (.andThen (node_localAt token rest) fun {n' left} hread =>
            .map (ih _ ?_ left rfl) (n' :: ·))
          · exact program_eq fun hnil => by rw [hnil] at hmore; cases hmore
          · rw [← hlength]
            exact node_length_lt hread

/-- An error is found at the end of the tokens, or at a token such that nothing behind it matters. -/
theorem parse_error_cases {tokens : List Token} {e : ParseError} (h : parse tokens = .error e) :
    e.AtEnd ∨ ∃ front rest, tokens = front ++ e.found :: rest ∧
      ∀ more, parse (front ++ e.found :: more) = .error e := by
  obtain ⟨left, hread⟩ := parse_eq_error_iff.mp h
  rcases (program_localAt tokens).error hread with ⟨hend, _⟩ | ⟨front, rest, hsplit, hfront⟩
  · exact Or.inl hend
  · exact Or.inr ⟨front, rest, hsplit, fun more => parse_eq_error_iff.mpr ⟨_, hfront more⟩⟩

/-- Only errors for want of tokens go away when tokens are added. -/
theorem isIncomplete_of_parse_append {tokens more : List Token} {e : ParseError} {p : Program}
    (h : parse tokens = .error e) (hp : parse (tokens ++ more) = .ok p) : e.isIncomplete = true := by
  rcases parse_error_cases h with ⟨hfound, hkind⟩ | ⟨front, rest, rfl, hfront⟩
  · simp [ParseError.isIncomplete, hfound, hkind, Token.endOfInput]
  · rw [List.append_assoc, List.cons_append, hfront] at hp
    cases hp

end Read
end Scriptlet
