import Scriptlet.Proofs.Locality
import Scriptlet.Proofs.Recognition

/-!
Which failures more tokens can mend. Wherever reading stops for want of tokens, the phrases that are open
there can be closed: a call and a list of parameters by a parenthesis, a function by `end`. The converse is
locality: an error at a token is there whatever follows. So reading is told incomplete exactly if some
tokens behind would complete the program.
-/

namespace Scriptlet.Read
open Grammar

/-- No token stands for the end of the input. -/
def NoEndOfInput (tokens : List Token) : Prop := ∀ token ∈ tokens, token.kind ≠ .endOfInput

theorem NoEndOfInput.of_append (front : List Token) {rest : List Token} (h : NoEndOfInput (front ++ rest)) :
    NoEndOfInput rest := fun token hmem => h token (List.mem_append_right _ hmem)

theorem NoEndOfInput.skipNewlines {tokens : List Token} (h : NoEndOfInput tokens) :
    NoEndOfInput (skipNewlines tokens) :=
  fun token hmem => h token ((List.dropWhile_sublist _).subset hmem)

theorem NoEndOfInput.found_ne {e : ParseError} {tokens : List Token} (h : NoEndOfInput tokens)
    (hmem : e.found ∈ tokens) : ¬ e.AtEnd := by
  intro hend
  apply h e.found hmem
  rw [hend.1]
  rfl

theorem expect_atEnd {kind : TokenKind} {tokens left : List Token} {e : ParseError}
    (hreal : NoEndOfInput tokens) (h : expect kind tokens = .error e left) (hend : e.AtEnd) :
    tokens = [] := by
  cases tokens with
  | nil => rfl
  | cons token rest =>
      rw [expect] at h
      split at h
      · cases h
      · cases h
        exact absurd hend (hreal.found_ne (List.mem_cons_self ..))

/-! ### Calls -/

/-- What is open inside a call can be closed. -/
def InsideMends (tokens : List Token) : Prop :=
  ∀ inner e left, NoEndOfInput tokens → insideCall inner [] tokens = .error e left → e.AtEnd →
    ∃ more pieces, PiecesOf (tokens ++ more) pieces

theorem term_mends_of {tokens left : List Token} {e : ParseError}
    (hinside : ∀ shorter : List Token, shorter.length < tokens.length → InsideMends shorter)
    (hreal : NoEndOfInput tokens) (h : term tokens = .error e left) (hend : e.AtEnd) :
    ∃ more t, TermOf (tokens ++ more) t := by
  cases tokens with
  | nil => exact ⟨[⟨.nilKeyword, []⟩], .nil, .atom (.nil [])⟩
  | cons token rest =>
      by_cases hcall : ∃ name opening more, token = ⟨.identifier, name⟩ ∧
          rest = ⟨.openParen, opening⟩ :: more
      · obtain ⟨name, opening, inside, rfl, rfl⟩ := hcall
        rw [term_call] at h
        have hshorter : inside.length < (⟨.identifier, name⟩ :: ⟨.openParen, opening⟩ :: inside).length := by
          simp only [List.length_cons]
          omega
        obtain ⟨more, pieces, hpieces⟩ := hinside inside hshorter _ _ _
          (.of_append [_, _] hreal) h hend
        refine ⟨more ++ [⟨.closeParen, []⟩], .call name (argsOfPieces pieces), ?_⟩
        simpa using TermOf.call name opening [] hpieces
      · rw [term_eq_atom fun name opening more hname hmore => hcall ⟨name, opening, more, hname, hmore⟩]
          at h
        rcases atom_cases token with ⟨t, hatom⟩ | ⟨_, e', hfound, hatom⟩
        · rw [hatom] at h
          cases h
        · rw [hatom] at h
          cases h
          exact absurd hend (hreal.found_ne (by rw [hfound]; exact List.mem_cons_self ..))

theorem insideCall_mends (tokens : List Token) : InsideMends tokens := by
  induction hlength : tokens.length using Nat.strongRecOn generalizing tokens with
  | ind n ih =>
      intro inner e left hreal hread hend
      have hshorter : ∀ shorter : List Token, shorter.length < tokens.length → InsideMends shorter :=
        fun shorter hlt => ih shorter.length (hlength ▸ hlt) shorter rfl
      by_cases hcomma : nextIs .comma tokens = true
      · obtain ⟨comma, rest, rfl⟩ := nextIs_iff.mp hcomma
        obtain ⟨more, pieces, hpieces⟩ := hshorter rest (Nat.lt_succ_self _) inner.nextArgument _ _
          (.of_append [_] hreal) hread hend
        exact ⟨more, [] :: pieces, .cons comma .nil hpieces⟩
      by_cases hclose : nextIs .closeParen tokens = true
      · obtain ⟨closing, rest, rfl⟩ := nextIs_iff.mp hclose
        cases hread
      rw [insideCall_eq_term inner [] (by simpa using hcomma) (by simpa using hclose)] at hread
      cases hterm : term tokens with
      | error e' left' =>
          rw [hterm] at hread
          cases hread
          obtain ⟨more, t, ht⟩ := term_mends_of hshorter hreal hterm hend
          exact ⟨more, [[t]], .last (by simpa using TermsOf.cons ht .nil)⟩
      | ok t rest =>
          rw [hterm] at hread
          obtain ⟨first, rfl, hfirst⟩ := term_sound hterm
          obtain ⟨more, pieces, hpieces⟩ := hshorter rest (term_length_lt hterm) _ _ _
            (.of_append first hreal) hread hend
          cases pieces with
          | nil => exact absurd rfl hpieces.ne_nil
          | cons piece pieces =>
              exact ⟨more, (t :: piece) :: pieces, by simpa using hpieces.push hfirst⟩

theorem term_mends {tokens left : List Token} {e : ParseError} (hreal : NoEndOfInput tokens)
    (h : term tokens = .error e left) (hend : e.AtEnd) : ∃ more t, TermOf (tokens ++ more) t :=
  term_mends_of (fun shorter _ => insideCall_mends shorter) hreal h hend

/-! ### Parameters, statements and functions -/

theorem defaultTerms_mends {tokens left : List Token} {e : ParseError} (hreal : NoEndOfInput tokens)
    (h : defaultTerms tokens = .error e left) (hend : e.AtEnd) :
    ∃ more ts, TermsOf (tokens ++ more) ts := by
  fun_induction defaultTerms tokens with
  | case1 => cases h
  | case2 tokens _ e' rest hterm =>
      cases h
      obtain ⟨more, t, ht⟩ := term_mends hreal hterm hend
      exact ⟨more, [t], by simpa using TermsOf.cons ht .nil⟩
  | case3 tokens _ t rest hterm ih =>
      obtain ⟨first, rfl, hfirst⟩ := term_sound hterm
      obtain ⟨more, ts, hts⟩ := ih (.of_append first hreal) (Reading.map_eq_error.mp h)
      exact ⟨more, t :: ts, by simpa using TermsOf.cons hfirst hts⟩

theorem paramList_mends {tokens left : List Token} {e : ParseError} (hreal : NoEndOfInput tokens)
    (h : paramList tokens = .error e left) (hend : e.AtEnd) :
    ∃ more ps, ParamsOf (tokens ++ more) ps := by
  fun_induction paramList tokens with
  | case1 => cases h
  | case4 => cases h
  | case2 token rest hkind e' left' hdefault =>
      cases h
      obtain ⟨_, name⟩ := token
      cases hkind
      by_cases hassign : nextIs .assign rest = true
      · obtain ⟨equals, rest, rfl⟩ := nextIs_iff.mp hassign
        obtain ⟨more, ts, hts⟩ := defaultTerms_mends (.of_append [_, _] hreal)
          (Reading.map_eq_error.mp hdefault) hend
        exact ⟨more, _, .valuedLast name equals hts⟩
      · rw [defaultValue_eq_nil (by simpa using hassign)] at hdefault
        cases hdefault
  | case3 token rest hkind value behind hdefault ih =>
      obtain ⟨_, name⟩ := token
      cases hkind
      obtain ⟨front, hfront, _⟩ := paramsOf_cons name [] hdefault .nil (List.append_nil _)
      rw [List.append_nil] at hfront
      rw [hfront] at hreal
      obtain ⟨more, ps, hps⟩ := ih (.of_append front hreal) (Reading.map_eq_error.mp h)
      obtain ⟨used, hused, hparams⟩ := paramsOf_cons name more hdefault hps
        (List.append_nil _).symm
      rw [List.append_nil] at hused
      exact ⟨more, _, hused ▸ hparams⟩

theorem params_mends {tokens left : List Token} {e : ParseError} (hreal : NoEndOfInput tokens)
    (h : params tokens = .error e left) (hend : e.AtEnd) :
    ∃ more ps, ParamListOf (tokens ++ more) ps := by
  cases tokens with
  | nil => cases h
  | cons token rest =>
      rw [params] at h
      split at h
      · rename_i hkind
        obtain ⟨_, opening⟩ := token
        cases hkind
        rcases Reading.andThen_eq_error.mp h with hparams | ⟨ps, behind, hparams, hclose⟩
        · obtain ⟨more, ps, hps⟩ := paramList_mends (.of_append [_] hreal) hparams hend
          refine ⟨more ++ [⟨.closeParen, []⟩], ps, ?_⟩
          simpa using ParamListOf.present opening [] hps
        · obtain ⟨inside, rfl, hinside⟩ := paramList_sound hparams
          cases expect_atEnd (.of_append (_ :: inside) hreal) (Reading.map_eq_error.mp hclose) hend
          refine ⟨[⟨.closeParen, []⟩], ps, ?_⟩
          simpa using ParamListOf.present opening [] hinside
      · cases h

theorem statement_mends {tokens left : List Token} {e : ParseError} (hreal : NoEndOfInput tokens)
    (h : statement tokens = .error e left) (hend : e.AtEnd) :
    ∃ more ts, TermsOf (tokens ++ more) ts ∧ ts ≠ [] := by
  fun_induction statement tokens with
  | case1 tokens e' rest hterm =>
      cases h
      obtain ⟨more, t, ht⟩ := term_mends hreal hterm hend
      exact ⟨more, [t], by simpa using TermsOf.cons ht .nil, by simp⟩
  | case2 => cases h
  | case3 tokens t rest hterm _ ih =>
      obtain ⟨first, rfl, hfirst⟩ := term_sound hterm
      obtain ⟨more, ts, hts, _⟩ := ih (.of_append first hreal) (Reading.map_eq_error.mp h)
      exact ⟨more, t :: ts, by simpa using TermsOf.cons hfirst hts, by simp⟩

theorem statements_mends {tokens left : List Token} {e : ParseError} (hreal : NoEndOfInput tokens)
    (h : statements tokens = .error e left) (hend : e.AtEnd) :
    ∃ more es, StatementsOf (tokens ++ more) es := by
  fun_induction statements tokens with
  | case1 => cases h
  | case2 tokens _ e' rest hstatement =>
      cases h
      obtain ⟨more, ts, hts, hne⟩ := statement_mends hreal hstatement hend
      exact ⟨more, [ts], .last hts hne⟩
  | case3 tokens _ expr rest hstatement ih =>
      obtain ⟨first, rfl, hfirst, hne, hstop⟩ := statement_sound hstatement
      have hrest := Reading.map_eq_error.mp h
      by_cases hnewline : nextIs .newline rest = true
      · obtain ⟨more, es, hes⟩ := ih (NoEndOfInput.of_append first hreal).skipNewlines hrest
        obtain ⟨used, hused, hstatements⟩ := statementsOf_cons more hfirst hne hnewline hes
          (List.append_nil _).symm
        rw [List.append_nil] at hused
        exact ⟨more, _, hused ▸ hstatements⟩
      · rw [skipNewlines_eq_self (by simpa using hnewline),
          statements_eq_nil (by simpa [hnewline] using hstop)] at hrest
        cases hrest

/-- A function definition is closed by `end`. -/
theorem functionOf_end {params before body : List Token} {ps es : List Expr} (opening name : Bytes)
    (hparams : ParamListOf params ps) (hbefore : Newlines before) (hbody : StatementsOf body es) :
    FunctionOf (⟨.defKeyword, opening⟩ :: ⟨.identifier, name⟩ ::
      (params ++ before ++ body ++ [⟨.endKeyword, []⟩])) (.function name ps (some es)) :=
  .intro opening name [] hparams hbefore hbody nofun

theorem functionFrom_mends (opening name : Bytes) {tokens left : List Token} {e : ParseError}
    (hreal : NoEndOfInput tokens) (h : functionFrom name tokens = .error e left) (hend : e.AtEnd) :
    ∃ more n, FunctionOf (⟨.defKeyword, opening⟩ :: ⟨.identifier, name⟩ :: (tokens ++ more)) n := by
  rcases Reading.andThen_eq_error.mp h with hparams | ⟨ps, behind, hparams, hbody⟩
  · obtain ⟨more, ps, hps⟩ := params_mends hreal hparams hend
    refine ⟨more ++ [⟨.endKeyword, []⟩], .function name ps (some []), ?_⟩
    simpa using functionOf_end opening name hps (nofun : Newlines []) .nil
  · obtain ⟨params, rfl, hspelled⟩ := params_sound hparams
    obtain ⟨before, hsplit, hbefore⟩ := skipNewlines_split behind
    have hbehind := (NoEndOfInput.of_append params hreal).skipNewlines
    rw [hsplit]
    rcases Reading.andThen_eq_error.mp hbody with hstatements | ⟨es, rest, hstatements, hclose⟩
    · obtain ⟨more, es, hes⟩ := statements_mends hbehind hstatements hend
      refine ⟨more ++ [⟨.endKeyword, []⟩], .function name ps (some es), ?_⟩
      simpa using functionOf_end opening name hspelled hbefore hes
    · obtain ⟨body, hbodySplit, hes, _⟩ := statements_sound hstatements
      rw [hbodySplit] at hbehind
      rcases Reading.andThen_eq_error.mp hclose with hclose | ⟨_, _, _, hdone⟩
      · cases expect_atEnd (.of_append body hbehind) hclose hend
        rw [hbodySplit]
        refine ⟨[⟨.endKeyword, []⟩], .function name ps (some es), ?_⟩
        simpa using functionOf_end opening name hspelled hbefore hes
      · cases hdone

theorem function_mends {opening : Bytes} {rest left : List Token} {e : ParseError}
    (hreal : NoEndOfInput rest) (h : function (⟨.defKeyword, opening⟩ :: rest) = .error e left)
    (hend : e.AtEnd) : ∃ more n, FunctionOf (⟨.defKeyword, opening⟩ :: (rest ++ more)) n := by
  rw [function_cons] at h
  rcases Reading.andThen_eq_error.mp h with hname | ⟨token, behind, hname, hfrom⟩
  · cases expect_atEnd hreal hname hend
    exact ⟨[⟨.identifier, []⟩, ⟨.endKeyword, []⟩], .function [] [] (some []),
      functionOf_end opening [] .absent (nofun : Newlines []) .nil⟩
  · obtain ⟨name, rfl, rfl⟩ := expect_eq_ok_iff.mp hname
    exact functionFrom_mends opening name (.of_append [_] hreal) hfrom hend

/-! ### Programs -/

theorem node_mends {token : Token} {rest left : List Token} {e : ParseError}
    (hreal : NoEndOfInput (token :: rest)) (h : node (token :: rest) = .error e left) (hend : e.AtEnd) :
    ∃ more p, ProgramOf (token :: rest ++ more) p := by
  rw [node] at h
  split at h
  · rename_i hdef
    obtain ⟨_, opening⟩ := token
    cases hdef
    obtain ⟨more, n, hn⟩ := function_mends (.of_append [_] hreal) h hend
    exact ⟨more, [n], by simpa using ProgramOf.function hn .nil⟩
  · split at h
    · cases h
      exact absurd hend (hreal.found_ne (List.mem_cons_self ..))
    · obtain ⟨more, es, hes⟩ := statements_mends hreal (Reading.map_eq_error.mp h) hend
      refine ⟨more, [.statements es], ?_⟩
      have hne : es ≠ [] := by
        rintro rfl
        cases hes.eq_nil
      simpa using ProgramOf.statements hes hne .nil rfl

theorem program_mends {tokens left : List Token} {e : ParseError} (hreal : NoEndOfInput tokens)
    (h : program tokens = .error e left) (hend : e.AtEnd) : ∃ more p, ProgramOf (tokens ++ more) p := by
  fun_induction program tokens with
  | case1 => cases h
  | case2 token rest e' left' hnode =>
      cases h
      exact node_mends hreal hnode hend
  | case3 token rest n behind hnode ih =>
      have hrest := Reading.map_eq_error.mp h
      obtain ⟨front, hsplit⟩ := (node_localAt token rest).suffix hnode
      rw [hsplit] at hreal
      obtain ⟨more, p, hp⟩ := ih (.of_append front hreal) hrest
      refine ⟨more, n :: p, programOf_cons more hnode ?_ hp⟩
      rintro rfl
      rw [program] at hrest
      cases hrest

end Scriptlet.Read

namespace Scriptlet
open Read

/-- Reading is told incomplete exactly if tokens can be added that make a program. -/
theorem isIncomplete_iff_exists_parse_append {tokens : List Token} {e : ParseError}
    (hreal : ∀ token ∈ tokens, token.kind ≠ .endOfInput) (h : parse tokens = .error e) :
    e.isIncomplete = true ↔ ∃ more p, parse (tokens ++ more) = .ok p := by
  constructor
  · intro hincomplete
    rcases parse_error_cases h with hend | ⟨front, rest, rfl, _⟩
    · obtain ⟨left, hread⟩ := parse_eq_error_iff.mp h
      obtain ⟨more, p, hp⟩ := program_mends hreal hread hend
      exact ⟨more, p, parse_complete hp⟩
    · have hkind : e.found.kind ≠ .endOfInput := hreal e.found (by simp)
      simp [ParseError.isIncomplete, hkind] at hincomplete
  · rintro ⟨more, p, hp⟩
    exact isIncomplete_of_parse_append h hp

/-- A call that is open in the body of a function can be completed. -/
theorem exists_parse_append_open_call :
    parse [⟨.defKeyword, text "def"⟩, ⟨.identifier, text "f"⟩, ⟨.newline, text "\n"⟩, ⟨.identifier, text "g"⟩,
      ⟨.openParen, text "("⟩] = .error (.lookahead .endOfInput) ∧
    ∃ more p, parse ([⟨.defKeyword, text "def"⟩, ⟨.identifier, text "f"⟩, ⟨.newline, text "\n"⟩,
      ⟨.identifier, text "g"⟩, ⟨.openParen, text "("⟩] ++ more) = .ok p := by
  have hread : parse [⟨.defKeyword, text "def"⟩, ⟨.identifier, text "f"⟩, ⟨.newline, text "\n"⟩,
      ⟨.identifier, text "g"⟩, ⟨.openParen, text "("⟩] = .error (.lookahead .endOfInput) := by
    with_unfolding_all rfl
  exact ⟨hread, (isIncomplete_iff_exists_parse_append (by decide) hread).mp rfl⟩

end Scriptlet
