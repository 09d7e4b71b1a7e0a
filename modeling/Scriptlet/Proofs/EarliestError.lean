import Scriptlet.Proofs.Incomplete

/-!
Where errors are found and what they ask for. An error that is not for want of tokens is found at the first
token that no program has in that place: the tokens before it can be completed to a program, and with it
they cannot, whatever follows. An error that names the kind of token it wanted tells the truth: with such
a token in place of the one found, the tokens can be completed again.
-/

namespace Scriptlet

/-- The tokens are the beginning of a program. -/
def Viable (tokens : List Token) : Prop := ∃ more p, parse (tokens ++ more) = .ok p

namespace Read
open Grammar

/-! ### The place of an error

What an error leaves tells the place where it was found. -/

/-- The error stands behind `front`: at the end of the tokens, or at the token that follows `front`. -/
inductive StopsBehind (e : ParseError) : (tokens left front : List Token) → Prop where
  | atEnd {tokens : List Token} (hend : e.AtEnd) : StopsBehind e tokens [] tokens
  | atToken (front rest : List Token) : StopsBehind e (front ++ e.found :: rest) (e.kept ++ rest) front

namespace StopsBehind

variable {e : ParseError} {tokens left front : List Token}

theorem append (used : List Token) (h : StopsBehind e tokens left front) :
    StopsBehind e (used ++ tokens) left (used ++ front) := by
  cases h with
  | atEnd hend => exact .atEnd hend
  | atToken front rest =>
      rw [← List.append_assoc]
      exact .atToken (used ++ front) rest

theorem eq_of_found (h : StopsBehind e tokens left front) (hfound : e.found ≠ .endOfInput)
    {front' rest : List Token} (htokens : tokens = front' ++ e.found :: rest) (hleft : left = e.kept ++ rest) :
    front = front' := by
  cases h with
  | atEnd hend => exact absurd hend.1 hfound
  | atToken front behind =>
      cases List.append_cancel_left hleft
      exact List.append_cancel_right htokens

theorem eq_of_endOfInput (h : StopsBehind e tokens left front) (hreal : NoEndOfInput tokens)
    (hfound : e.found.kind = .endOfInput) : front = tokens := by
  cases h with
  | atEnd _ => rfl
  | atToken front rest => exact absurd hfound (hreal e.found (by simp))

end StopsBehind

/-- What stands before the token of an error is the beginning of a program: were it not, the error would
have been found there. -/
theorem viable_of_error {front : List Token} {e : ParseError} (hreal : NoEndOfInput front)
    (hfront : ∀ more, program (front ++ e.found :: more) = .error e (e.kept ++ more)) : Viable front := by
  cases hread : program front with
  | ok p left =>
      refine ⟨[], p, ?_⟩
      rw [List.append_nil]
      exact parse_eq_ok_iff.mpr ⟨left, hread⟩
  | error e' left =>
      rcases (program_localAt front).error hread with ⟨hend, _⟩ | ⟨before, rest, rfl, hbefore⟩
      · obtain ⟨more, p, hp⟩ := program_mends hreal hread hend
        exact ⟨more, p, parse_complete hp⟩
      · exfalso
        have hlate := hfront []
        have hearly := hbefore (rest ++ [e.found])
        simp only [List.append_assoc, List.cons_append] at hlate
        rw [hlate] at hearly
        obtain ⟨rfl, hleft⟩ := Reading.error.inj hearly
        have hlength := congrArg List.length hleft
        simp at hlength

/-! ### Terms name no kind

Where a term is wanted, many kinds would do, so no error on the way through terms asks for one. -/

theorem atom_error_kind {token : Token} {rest left : List Token} {e : ParseError}
    (h : atom token rest = .error e left) : e.kind ≠ .unexpectedToken := by
  unfold atom at h
  split at h
  all_goals try cases h
  · split at h
    all_goals cases h
    simp [ParseError.badInteger]
  · simp [ParseError.lookahead]

theorem insideCall_error_kind {inner : OpenCall} {outer : List OpenCall} {tokens left : List Token}
    {e : ParseError} (h : insideCall inner outer tokens = .error e left) : e.kind ≠ .unexpectedToken := by
  fun_induction insideCall inner outer tokens with
  | case1 =>
      cases h
      simp [ParseError.lookahead]
  | case2 _ _ _ _ ih => exact ih h
  | case3 => cases h
  | case4 _ _ _ _ _ ih => exact ih h
  | case5 _ _ _ _ _ ih => exact ih h
  | case6 _ _ _ _ _ _ _ _ _ _ ih => exact ih h
  | case7 _ _ _ _ _ _ _ _ _ hatom =>
      cases h
      exact atom_error_kind hatom

theorem term_error_kind {tokens left : List Token} {e : ParseError} (h : term tokens = .error e left) :
    e.kind ≠ .unexpectedToken := by
  cases tokens with
  | nil =>
      cases h
      simp [ParseError.lookahead]
  | cons token rest =>
      by_cases hcall : ∃ name opening more, token = ⟨.identifier, name⟩ ∧
          rest = ⟨.openParen, opening⟩ :: more
      · obtain ⟨name, opening, more, rfl, rfl⟩ := hcall
        rw [term_call] at h
        exact insideCall_error_kind h
      · rw [term_eq_atom fun name opening more hname hmore => hcall ⟨name, opening, more, hname, hmore⟩]
          at h
        exact atom_error_kind h

theorem defaultTerms_error_kind {tokens left : List Token} {e : ParseError}
    (h : defaultTerms tokens = .error e left) : e.kind ≠ .unexpectedToken := by
  fun_induction defaultTerms tokens with
  | case1 => cases h
  | case2 _ _ _ _ hterm =>
      cases h
      exact term_error_kind hterm
  | case3 _ _ _ _ _ ih => exact ih (Reading.map_eq_error.mp h)

theorem paramList_error_kind {tokens left : List Token} {e : ParseError}
    (h : paramList tokens = .error e left) : e.kind ≠ .unexpectedToken := by
  fun_induction paramList tokens with
  | case1 => cases h
  | case2 token rest _ _ _ hdefault =>
      cases h
      by_cases hassign : nextIs .assign rest = true
      · obtain ⟨equals, rest, rfl⟩ := nextIs_iff.mp hassign
        exact defaultTerms_error_kind (Reading.map_eq_error.mp hdefault)
      · rw [defaultValue_eq_nil (by simpa using hassign)] at hdefault
        cases hdefault
  | case3 _ _ _ _ _ _ ih => exact ih (Reading.map_eq_error.mp h)
  | case4 => cases h

theorem statement_error_kind {tokens left : List Token} {e : ParseError}
    (h : statement tokens = .error e left) : e.kind ≠ .unexpectedToken := by
  fun_induction statement tokens with
  | case1 _ _ _ hterm =>
      cases h
      exact term_error_kind hterm
  | case2 => cases h
  | case3 _ _ _ _ _ ih => exact ih (Reading.map_eq_error.mp h)

theorem statements_error_kind {tokens left : List Token} {e : ParseError}
    (h : statements tokens = .error e left) : e.kind ≠ .unexpectedToken := by
  fun_induction statements tokens with
  | case1 => cases h
  | case2 _ _ _ _ hstatement =>
      cases h
      exact statement_error_kind hstatement
  | case3 _ _ _ _ _ ih => exact ih (Reading.map_eq_error.mp h)

/-! ### What is asked for completes

The kinds that errors ask for: a name behind `def`, the parenthesis that closes parameters, the `end` of a
function, and `def` where an `end` stands alone. -/

theorem expect_stopsBehind {kind : TokenKind} (hkind : kind ≠ .defKeyword) {tokens left : List Token}
    {e : ParseError} (h : expect kind tokens = .error e left) :
    e.expected = kind ∧ StopsBehind e tokens left [] := by
  cases tokens with
  | nil =>
      cases h
      exact ⟨rfl, .atEnd ⟨rfl, fun h => by cases h⟩⟩
  | cons token rest =>
      rw [expect] at h
      split at h
      · cases h
      · obtain ⟨rfl, rfl⟩ := Reading.error.inj h
        have hkept : (ParseError.unexpected kind token).kept = [] := by
          rw [ParseError.kept, if_neg (by simp [ParseError.unexpected, hkind])]
        have hstops := StopsBehind.atToken (e := .unexpected kind token) [] rest
        rw [hkept] at hstops
        exact ⟨rfl, hstops⟩

theorem params_expects {tokens left : List Token} {e : ParseError} (h : params tokens = .error e left)
    (hkind : e.kind = .unexpectedToken) : ∃ front, StopsBehind e tokens left front ∧
      ∀ t : Token, t.kind = e.expected → ∃ ps, ParamListOf (front ++ [t]) ps := by
  cases tokens with
  | nil => cases h
  | cons token rest =>
      rw [params] at h
      split at h
      · rename_i hopen
        obtain ⟨_, opening⟩ := token
        cases hopen
        rcases Reading.andThen_eq_error.mp h with hparams | ⟨ps, behind, hparams, hclose⟩
        · exact absurd hkind (paramList_error_kind hparams)
        · obtain ⟨inside, rfl, hinside⟩ := paramList_sound hparams
          obtain ⟨hexpected, hstops⟩ := expect_stopsBehind (by decide) (Reading.map_eq_error.mp hclose)
          refine ⟨⟨.openParen, opening⟩ :: inside, ?_, ?_⟩
          · simpa using hstops.append (⟨.openParen, opening⟩ :: inside)
          · rintro ⟨_, closing⟩ ht
            cases (show _ = TokenKind.closeParen from ht.trans hexpected)
            exact ⟨ps, .present opening closing hinside⟩
      · cases h

theorem functionFrom_expects (opening name : Bytes) {tokens left : List Token} {e : ParseError}
    (h : functionFrom name tokens = .error e left) (hkind : e.kind = .unexpectedToken) :
    ∃ front, StopsBehind e tokens left front ∧ ∀ t : Token, t.kind = e.expected → ∃ more n,
      FunctionOf (⟨.defKeyword, opening⟩ :: ⟨.identifier, name⟩ :: (front ++ t :: more)) n := by
  rcases Reading.andThen_eq_error.mp h with hparams | ⟨ps, behind, hparams, hbody⟩
  · obtain ⟨front, hstops, hcomplete⟩ := params_expects hparams hkind
    refine ⟨front, hstops, fun t ht => ?_⟩
    obtain ⟨ps, hps⟩ := hcomplete t ht
    refine ⟨[⟨.endKeyword, []⟩], .function name ps (some []), ?_⟩
    simpa using functionOf_end opening name hps (List.forall_mem_nil _) .nil
  · obtain ⟨params, rfl, hspelled⟩ := params_sound hparams
    obtain ⟨before, hsplit, hbefore⟩ := skipNewlines_split behind
    rcases Reading.andThen_eq_error.mp hbody with hstatements | ⟨es, rest, hstatements, hclose⟩
    · exact absurd hkind (statements_error_kind hstatements)
    · obtain ⟨body, hbodySplit, hes, _⟩ := statements_sound hstatements
      rcases Reading.andThen_eq_error.mp hclose with hclose | ⟨_, _, _, hdone⟩
      · obtain ⟨hexpected, hstops⟩ := expect_stopsBehind (by decide) hclose
        refine ⟨params ++ before ++ body, ?_, ?_⟩
        · rw [hsplit, hbodySplit]
          simpa using hstops.append (params ++ before ++ body)
        · rintro ⟨_, closing⟩ ht
          cases (show _ = TokenKind.endKeyword from ht.trans hexpected)
          exact ⟨[], _, .intro opening name closing hspelled hbefore hes nofun⟩
      · cases hdone

theorem function_expects {opening : Bytes} {rest left : List Token} {e : ParseError}
    (h : function (⟨.defKeyword, opening⟩ :: rest) = .error e left) (hkind : e.kind = .unexpectedToken) :
    ∃ front, StopsBehind e rest left front ∧ ∀ t : Token, t.kind = e.expected → ∃ more n,
      FunctionOf (⟨.defKeyword, opening⟩ :: (front ++ t :: more)) n := by
  rw [function_cons] at h
  rcases Reading.andThen_eq_error.mp h with hname | ⟨token, behind, hname, hfrom⟩
  · obtain ⟨hexpected, hstops⟩ := expect_stopsBehind (by decide) hname
    refine ⟨[], hstops, ?_⟩
    rintro ⟨_, name⟩ ht
    cases (show _ = TokenKind.identifier from ht.trans hexpected)
    exact ⟨[⟨.endKeyword, []⟩], _, functionOf_end opening name .absent (List.forall_mem_nil _) .nil⟩
  · obtain ⟨name, rfl, rfl⟩ := expect_eq_ok_iff.mp hname
    obtain ⟨front, hstops, hcomplete⟩ := functionFrom_expects opening name hfrom hkind
    exact ⟨_, hstops.append [⟨.identifier, name⟩], hcomplete⟩

/-- The error stands behind `front`, and a token of the kind it asks for makes `front` the beginning of a
program again. Where the tokens end statements before them, that program does so too. -/
def Expects (e : ParseError) (tokens left : List Token) : Prop :=
  ∃ front, StopsBehind e tokens left front ∧ ∀ t : Token, t.kind = e.expected → ∃ more p,
    ProgramOf (front ++ t :: more) p ∧
      (endsStatements tokens = true → endsStatements (front ++ t :: more) = true)

theorem node_expects {token : Token} {rest left : List Token} {e : ParseError}
    (h : node (token :: rest) = .error e left) (hkind : e.kind = .unexpectedToken) :
    Expects e (token :: rest) left := by
  rw [node] at h
  split at h
  · rename_i hdef
    obtain ⟨_, opening⟩ := token
    cases hdef
    obtain ⟨front, hstops, hcomplete⟩ := function_expects h hkind
    refine ⟨⟨.defKeyword, opening⟩ :: front, hstops.append [_], fun t ht => ?_⟩
    obtain ⟨more, n, hn⟩ := hcomplete t ht
    exact ⟨more, [n], by simpa using ProgramOf.function hn .nil, fun _ => rfl⟩
  · split at h
    · cases h
      refine ⟨[], .atToken [] rest, ?_⟩
      rintro ⟨_, opening⟩ ht
      cases (show _ = TokenKind.defKeyword from ht)
      have hfunction := functionOf_end opening [] .absent (List.forall_mem_nil _) .nil
      refine ⟨[⟨.identifier, []⟩, ⟨.endKeyword, []⟩], [.function [] [] (some [])], ?_, fun _ => rfl⟩
      simpa using ProgramOf.function hfunction .nil
    · exact absurd hkind (statements_error_kind (Reading.map_eq_error.mp h))

theorem program_expects {tokens left : List Token} {e : ParseError} (h : program tokens = .error e left)
    (hkind : e.kind = .unexpectedToken) : Expects e tokens left := by
  fun_induction program tokens with
  | case1 => cases h
  | case2 token rest e' left' hnode =>
      cases h
      exact node_expects hnode hkind
  | case3 token rest n behind hnode ih =>
      obtain ⟨front, hstops, hcomplete⟩ := ih (Reading.map_eq_error.mp h)
      obtain ⟨used, hsplit⟩ := (node_localAt token rest).suffix hnode
      refine ⟨used ++ front, hsplit ▸ hstops.append used, fun t ht => ?_⟩
      obtain ⟨more, p, hp, hends⟩ := hcomplete t ht
      obtain ⟨used', hsplit', hprogram⟩ := programOf_node hnode hends hp
      cases List.append_cancel_right (hsplit.symm.trans hsplit')
      refine ⟨more, n :: p, by simpa using hprogram, fun hstop => ?_⟩
      -- the first token is the same, and it decides
      cases used with
      | nil =>
          have hlength := node_length_lt hnode
          rw [hsplit] at hlength
          simp at hlength
      | cons first used =>
          cases hsplit
          exact hstop

end Read

open Read Grammar

/-- An error at a token is found at the first token that no program has there, it is the same whatever
follows, and a token of the kind that an error asks for can stand in that place. -/
theorem parse_error_earliest {tokens : List Token} {e : ParseError}
    (hreal : ∀ token ∈ tokens, token.kind ≠ .endOfInput) (h : parse tokens = .error e) :
    (e.found.kind ≠ .endOfInput → ∃ front rest, tokens = front ++ e.found :: rest ∧ Viable front ∧
      (∀ more, parse (front ++ e.found :: more) = .error e) ∧
      (e.kind = .unexpectedToken → ∀ t : Token, t.kind = e.expected → Viable (front ++ [t]))) ∧
    (e.found.kind = .endOfInput → e.kind = .unexpectedToken →
      ∀ t : Token, t.kind = e.expected → Viable (tokens ++ [t])) := by
  obtain ⟨left, hread⟩ := parse_eq_error_iff.mp h
  have hviable : ∀ {front : List Token} {t : Token}, (∃ more p, ProgramOf (front ++ t :: more) p) →
      Viable (front ++ [t]) := by
    rintro front t ⟨more, p, hp⟩
    exact ⟨more, p, parse_complete (by simpa using hp)⟩
  constructor
  · intro hfound
    rcases (program_localAt tokens).error hread with ⟨hend, _⟩ | ⟨front, rest, rfl, hfront⟩
    · exact absurd (congrArg Token.kind hend.1) hfound
    have hbefore : NoEndOfInput front := fun token hmem => hreal token (List.mem_append_left _ hmem)
    refine ⟨front, rest, rfl, viable_of_error hbefore hfront,
      fun more => parse_eq_error_iff.mpr ⟨_, hfront more⟩, fun hkind t ht => ?_⟩
    obtain ⟨front', hstops, hcomplete⟩ := program_expects hread hkind
    have hleft : left = e.kept ++ rest := (Reading.error.inj (hread.symm.trans (hfront rest))).2
    cases hstops.eq_of_found (fun heq => hfound (by rw [heq]; rfl)) rfl hleft
    obtain ⟨more, p, hp, _⟩ := hcomplete t ht
    exact hviable ⟨more, p, hp⟩
  · intro hfound hkind t ht
    obtain ⟨front, hstops, hcomplete⟩ := program_expects hread hkind
    cases hstops.eq_of_endOfInput hreal hfound
    obtain ⟨more, p, hp, _⟩ := hcomplete t ht
    exact hviable ⟨more, p, hp⟩

/-- A number where the parameters go on: a parenthesis could close them there. -/
theorem parse_error_earliest_parameters :
    parse [⟨.defKeyword, text "def"⟩, ⟨.identifier, text "f"⟩, ⟨.openParen, text "("⟩, ⟨.identifier, text "a"⟩,
      ⟨.integer, text "2"⟩] = .error (.unexpected .closeParen ⟨.integer, text "2"⟩) ∧
    ∃ front rest, [⟨.defKeyword, text "def"⟩, ⟨.identifier, text "f"⟩, ⟨.openParen, text "("⟩,
        ⟨.identifier, text "a"⟩, ⟨.integer, text "2"⟩] = front ++ ⟨.integer, text "2"⟩ :: rest ∧ Viable front ∧
      (∀ more, parse (front ++ ⟨.integer, text "2"⟩ :: more) =
        .error (.unexpected .closeParen ⟨.integer, text "2"⟩)) ∧
      Viable (front ++ [⟨.closeParen, text ")"⟩]) := by
  have hread : parse [⟨.defKeyword, text "def"⟩, ⟨.identifier, text "f"⟩, ⟨.openParen, text "("⟩,
      ⟨.identifier, text "a"⟩, ⟨.integer, text "2"⟩] =
        .error (.unexpected .closeParen ⟨.integer, text "2"⟩) := by
    with_unfolding_all rfl
  obtain ⟨front, rest, hsplit, hfront, herror, hexpected⟩ :=
    (parse_error_earliest (by decide) hread).1 (fun h => by cases h)
  exact ⟨hread, front, rest, hsplit, hfront, herror, hexpected rfl _ rfl⟩

end Scriptlet
