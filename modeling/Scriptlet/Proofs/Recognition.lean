import Scriptlet.Proofs.Soundness

/-!
Reading accepts exactly the grammar. A phrase in front of any tokens that cannot extend it is read as what
it spells, and those tokens are left. With the converse, a program is returned for tokens exactly if they
spell it, so the tokens of a program spell no other one.
-/

namespace Scriptlet

namespace Read
open Grammar

/-- A term is read off the front of any tokens that do not make a call of it. -/
def TermReads (used : List Token) (t : Term) : Prop :=
  ∀ rest, nextIs .openParen rest = false → term (used ++ rest) = .ok t rest

/-- Terms inside a call go to the first of the pieces that follow. -/
def TermsRead (used : List Token) (ts : List Term) : Prop :=
  ∀ rest left piece pieces, nextIs .openParen rest = false →
    (∀ inner, insideCall inner [] rest = .ok (inner.closeWith (piece :: pieces)) left) →
    ∀ inner, insideCall inner [] (used ++ rest) = .ok (inner.closeWith ((ts ++ piece) :: pieces)) left

/-- A call is read up to its closing parenthesis. -/
def PiecesRead (inside : List Token) (pieces : List Expr) : Prop :=
  ∀ inner closing rest,
    insideCall inner [] (inside ++ ⟨.closeParen, closing⟩ :: rest) = .ok (inner.closeWith pieces) rest

theorem TermReads.atom {token : Token} {t : Term} (hatom : AtomOf token t) : TermReads [token] t := by
  intro rest hrest
  rw [List.singleton_append, term_eq_atom, atom_eq_ok_iff.mpr ⟨hatom, rfl⟩]
  rintro name opening more _ rfl
  cases hrest

theorem TermReads.call {inside : List Token} {pieces : List Expr} (name opening closing : Bytes)
    (hne : pieces ≠ []) (hinside : PiecesRead inside pieces) :
    TermReads (⟨.identifier, name⟩ :: ⟨.openParen, opening⟩ :: (inside ++ [⟨.closeParen, closing⟩]))
      (.call name (argsOfPieces pieces)) := by
  intro rest _
  simp only [List.cons_append, List.append_assoc, List.nil_append, term_call]
  rw [hinside, OpenCall.start_closeWith name hne]

theorem TermsRead.cons {first more : List Token} {t : Term} {ts : List Term} (hfirst : TermOf first t)
    (hmore : TermsOf more ts) (hterm : TermReads first t) (hterms : TermsRead more ts) :
    TermsRead (first ++ more) (t :: ts) := by
  intro rest left piece pieces hopen hrest inner
  rw [List.append_assoc, insideCall_eq_term inner [] (hfirst.nextIs_append rfl _)
    (hfirst.nextIs_append rfl _), hterm _ (hmore.nextIs_append rfl hopen), Reading.andThen_ok,
    hterms rest left piece pieces hopen hrest, OpenCall.push_closeWith]
  rfl

theorem PiecesRead.last {inside : List Token} {ts : List Term} (hterms : TermsRead inside ts) :
    PiecesRead inside [ts] := by
  intro inner closing rest
  have hclose : ∀ c : OpenCall, insideCall c [] (⟨.closeParen, closing⟩ :: rest) =
      .ok (c.closeWith [[]]) rest := by
    intro c
    rw [c.closeWith_nil]
    rfl
  simpa using hterms _ _ _ _ rfl hclose inner

theorem PiecesRead.cons {first more : List Token} {ts : List Term} {pieces : List Expr} (comma : Bytes)
    (hne : pieces ≠ []) (hterms : TermsRead first ts) (hmore : PiecesRead more pieces) :
    PiecesRead (first ++ ⟨.comma, comma⟩ :: more) (ts :: pieces) := by
  intro inner closing rest
  have hnext : ∀ c : OpenCall, insideCall c []
      (⟨.comma, comma⟩ :: (more ++ ⟨.closeParen, closing⟩ :: rest)) =
        .ok (c.closeWith ([] :: pieces)) rest := by
    intro c
    rw [← c.nextArgument_closeWith hne]
    exact hmore c.nextArgument closing rest
  simpa using hterms _ _ _ _ rfl hnext inner

mutual

theorem TermOf.reads : ∀ {used : List Token} {t : Term}, TermOf used t → TermReads used t
  | _, _, .atom hatom => .atom hatom
  | _, _, .call name opening closing hinside =>
    .call name opening closing hinside.ne_nil (PiecesOf.reads hinside)

theorem TermsOf.reads : ∀ {used : List Token} {ts : List Term}, TermsOf used ts → TermsRead used ts
  | _, _, .nil => fun _ _ _ _ _ hrest => hrest
  | _, _, .cons hfirst hmore => .cons hfirst hmore (TermOf.reads hfirst) (TermsOf.reads hmore)

theorem PiecesOf.reads :
    ∀ {inside : List Token} {pieces : List Expr}, PiecesOf inside pieces → PiecesRead inside pieces
  | _, _, .last hterms => .last (TermsOf.reads hterms)
  | _, _, .cons comma hfirst hmore =>
    .cons comma hmore.ne_nil (TermsOf.reads hfirst) (PiecesOf.reads hmore)

end

theorem term_complete {used rest : List Token} {t : Term} (h : TermOf used t)
    (hrest : nextIs .openParen rest = false) : term (used ++ rest) = .ok t rest :=
  TermOf.reads h rest hrest

theorem defaultTerms_complete {value rest : List Token} {ts : List Term} (h : TermsOf value ts)
    (hrest : (nextIs .comma rest || nextIs .closeParen rest) = true) :
    defaultTerms (value ++ rest) = .ok ts rest := by
  have hopen : nextIs .openParen rest = false := by
    rcases Bool.or_eq_true_iff.mp hrest with hcomma | hclose
    · exact nextIs_of_nextIs hcomma (by decide)
    · exact nextIs_of_nextIs hclose (by decide)
  induction ts generalizing value with
  | nil =>
      cases h
      rw [List.nil_append, defaultTerms, if_pos hrest]
  | cons t ts ih =>
      cases h with
      | cons hfirst hmore =>
          rw [List.append_assoc, defaultTerms_eq, hfirst.nextIs_append rfl, hfirst.nextIs_append rfl,
            term_complete hfirst (hmore.nextIs_append rfl hopen)]
          simp [ih hmore]

theorem paramList_complete {used rest : List Token} {ps : List Expr} (h : ParamsOf used ps)
    (hrest : nextIs .closeParen rest = true) : paramList (used ++ rest) = .ok ps rest := by
  induction h with
  | nil => exact paramList_eq_nil (nextIs_of_nextIs hrest (by decide))
  | bare name hmore ih =>
      rw [List.cons_append, paramList_cons, if_pos rfl, defaultValue_eq_nil
        (hmore.nextIs_append (by decide) (nextIs_of_nextIs hrest (by decide))), Reading.andThen_ok,
        skipComma_eq_self (hmore.nextIs_append (by decide) (nextIs_of_nextIs hrest (by decide))), ih]
      rfl
  | bareComma name comma hmore ih =>
      rw [List.cons_append, paramList_cons, if_pos rfl, List.cons_append, defaultValue_eq_nil rfl,
        Reading.andThen_ok, skipComma, if_pos rfl, ih]
      rfl
  | valued name equals comma hvalue hmore ih =>
      rw [List.cons_append, paramList_cons, if_pos rfl, List.cons_append, defaultValue, if_pos rfl,
        List.append_assoc, defaultTerms_complete hvalue rfl, Reading.map_ok, Reading.andThen_ok,
        List.cons_append, skipComma, if_pos rfl, ih]
      rfl
  | valuedLast name equals hvalue =>
      rw [List.cons_append, paramList_cons, if_pos rfl, List.cons_append, defaultValue, if_pos rfl,
        defaultTerms_complete hvalue (by simp [hrest]), Reading.map_ok, Reading.andThen_ok,
        skipComma_eq_self (nextIs_of_nextIs hrest (by decide)),
        paramList_eq_nil (nextIs_of_nextIs hrest (by decide))]
      rfl

theorem params_complete {used rest : List Token} {ps : List Expr} (h : ParamListOf used ps)
    (hrest : nextIs .openParen rest = false) : params (used ++ rest) = .ok ps rest := by
  cases h with
  | absent =>
      cases rest with
      | nil => rfl
      | cons token rest => exact if_neg (by simpa [nextIs] using hrest)
  | present opening closing hinside =>
      rw [List.cons_append, params, if_pos rfl, List.append_assoc, paramList_complete hinside rfl,
        Reading.andThen_ok, List.singleton_append, expect, if_pos rfl, Reading.map_ok]

theorem statement_complete {used rest : List Token} {e : Expr} (h : TermsOf used e) (hne : e ≠ [])
    (hrest : (nextIs .newline rest || endsStatements rest) = true) :
    statement (used ++ rest) = .ok e rest := by
  have hopen : nextIs .openParen rest = false := by
    rcases Bool.or_eq_true_iff.mp hrest with hnewline | hend
    · exact nextIs_of_nextIs hnewline (by decide)
    · exact nextIs_of_endsStatements hend (by decide) (by decide)
  induction e generalizing used with
  | nil => exact absurd rfl hne
  | cons t ts ih =>
      cases h with
      | cons hfirst hmore =>
          rw [List.append_assoc, statement_eq, term_complete hfirst (hmore.nextIs_append rfl hopen),
            Reading.andThen_ok]
          cases ts with
          | nil =>
              cases hmore
              rw [List.nil_append, if_pos hrest]
          | cons t' ts =>
              have hne := List.cons_ne_nil t' ts
              rw [hmore.nextIs_of_ne hne rfl, hmore.endsStatements_append hne]
              simp [ih hmore hne]

/-- Statements in front of tokens that do not go on with the last of them are read off, and reading goes on
behind the newlines that follow. -/
theorem statements_append {used behind : List Token} {es : List Expr} (h : StatementsOf used es)
    (hapart : Separated used behind) :
    statements (skipNewlines (used ++ behind)) = (statements (skipNewlines behind)).map (es ++ ·) := by
  induction h with
  | nil => cases hread : statements (skipNewlines behind) <;> simp [hread]
  | last hterms hne =>
      rw [skipNewlines_eq_self (hterms.nextIs_of_ne hne rfl _), statements_eq,
        if_neg (by simp [hterms.endsStatements_append hne]),
        statement_complete hterms hne (hterms.separated hne hapart), Reading.andThen_ok]
      rfl
  | line hterms hne hnewlines hsome hmore ih =>
      rw [List.append_assoc, List.append_assoc, skipNewlines_eq_self (hterms.nextIs_of_ne hne rfl _),
        statements_eq, if_neg (by simp [hterms.endsStatements_append hne]),
        statement_complete hterms hne (by simp [hnewlines.nextIs_append hsome]), Reading.andThen_ok,
        hnewlines.skipNewlines_append, ih hapart.of_append, Reading.map_map]
      rfl

theorem statements_complete {used rest : List Token} {es : List Expr} (h : StatementsOf used es)
    (hrest : endsStatements rest = true) : statements (used ++ rest) = .ok es rest := by
  have hnewline : nextIs .newline rest = false := nextIs_of_endsStatements hrest (by decide) (by decide)
  have hread := statements_append h (fun _ _ _ => by rw [hrest, Bool.or_true])
  rw [skipNewlines_eq_self (h.nextIs_append rfl hnewline), skipNewlines_eq_self hnewline,
    statements_eq_nil hrest] at hread
  simpa using hread

/-- A function is read off the front of any tokens, with the newlines that follow. -/
theorem function_complete {used : List Token} {n : Node} (h : FunctionOf used n) (rest : List Token) :
    function (used ++ rest) = .ok n (skipNewlines rest) := by
  cases h with
  | @intro params before body after ps es opening name closing hparams hbefore hbody hafter =>
      have hbehind : nextIs .openParen (before ++ (body ++ ⟨.endKeyword, closing⟩ :: (after ++ rest))) =
          false := by
        cases before with
        | nil => exact hbody.nextIs_append rfl rfl
        | cons token _ =>
            exact nextIs_of_nextIs (hbefore.nextIs_append (List.cons_ne_nil _ _) _) (by decide)
      simp only [List.cons_append, List.append_assoc]
      rw [function, expect, if_pos rfl, Reading.andThen_ok, expect, if_pos rfl, Reading.andThen_ok,
        params_complete hparams hbehind, Reading.andThen_ok, hbefore.skipNewlines_append,
        skipNewlines_eq_self (hbody.nextIs_append rfl rfl), statements_complete hbody rfl,
        Reading.andThen_ok, expect, if_pos rfl, Reading.andThen_ok, hafter.skipNewlines_append]

theorem node_function {used : List Token} {n : Node} (h : FunctionOf used n) (rest : List Token) :
    node (used ++ rest) = .ok n (skipNewlines rest) := by
  rw [← function_complete h rest]
  cases h
  rw [List.cons_append, node, if_pos rfl]

theorem program_complete {tokens : List Token} {p : Program} (h : ProgramOf tokens p) :
    program tokens = .ok p [] := by
  induction h with
  | nil => rw [program]
  | function hfirst hrest ih =>
      rw [program_eq (by simp [hfirst.ne_nil]), node_function hfirst, Reading.andThen_ok,
        skipNewlines_eq_self hrest.nextIs_newline, ih, Reading.map_ok]
  | statements hfirst hne hrest hapart ih =>
      rw [program_eq (by simp [hfirst.tokens_ne_nil hne]),
        node_eq_statements (hfirst.endsStatements_append hne _),
        statements_complete hfirst (hrest.endsStatements_iff.mpr hapart), Reading.map_ok, Reading.andThen_ok, ih,
        Reading.map_ok]

end Read

/-! ### The grammar and the reader -/

namespace Read
open Grammar

theorem parse_sound {tokens : List Token} {p : Program} (h : parse tokens = .ok p) :
    ProgramOf tokens p := by
  obtain ⟨left, hread⟩ := parse_eq_ok_iff.mp h
  exact program_sound hread

theorem parse_complete {tokens : List Token} {p : Program} (h : ProgramOf tokens p) :
    parse tokens = .ok p := parse_eq_ok_iff.mpr ⟨[], program_complete h⟩

end Read

/-- Tokens are read as a program exactly if they spell it. -/
theorem parse_eq_ok_iff_programOf (tokens : List Token) (p : Program) :
    parse tokens = .ok p ↔ Grammar.ProgramOf tokens p :=
  ⟨Read.parse_sound, Read.parse_complete⟩

end Scriptlet
