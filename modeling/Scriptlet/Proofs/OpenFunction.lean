import Scriptlet.Proofs.Built
import Scriptlet.Proofs.Incomplete
import Scriptlet.Proofs.Session

/-!
What is open behind a whole line. Terms, calls and parameters stand on one line, since no newline is part of
them; so where reading stops for want of tokens behind a newline, it is neither a call nor a list of
parameters that is open, but the body of one function, and `end` is what it waits for. Text behind a newline
mends nothing that scanning has refused before it. So a session asks for one more line exactly if the line
`end` would complete what it has.
-/

namespace Scriptlet

namespace Grammar

/-! ### Phrases of one line -/

/-- Tokens none of which is a newline. -/
def OneLine (tokens : List Token) : Prop := ∀ token ∈ tokens, token.kind ≠ .newline

theorem AtomOf.kind_ne_newline {token : Token} {t : Term} (h : AtomOf token t) : token.kind ≠ .newline := by
  cases h <;> exact fun hkind => by cases hkind

theorem OneLine.cons {kind : TokenKind} (hkind : kind ≠ .newline) (value : Bytes) {tokens : List Token}
    (h : OneLine tokens) : OneLine (⟨kind, value⟩ :: tokens) := List.forall_mem_cons.mpr ⟨hkind, h⟩

theorem OneLine.nil : OneLine [] := List.forall_mem_nil _

theorem OneLine.append {tokens more : List Token} (h : OneLine tokens) (hmore : OneLine more) :
    OneLine (tokens ++ more) := List.forall_mem_append.mpr ⟨h, hmore⟩

mutual

theorem TermOf.oneLine : ∀ {used : List Token} {t : Term}, TermOf used t → OneLine used
  | _, _, .atom hatom => List.forall_mem_singleton.mpr hatom.kind_ne_newline
  | _, _, .call name opening closing hinside =>
    .cons (by decide) name (.cons (by decide) opening (hinside.oneLine.append (.cons (by decide) closing .nil)))

theorem TermsOf.oneLine : ∀ {used : List Token} {ts : List Term}, TermsOf used ts → OneLine used
  | _, _, .nil => .nil
  | _, _, .cons hfirst hrest => hfirst.oneLine.append hrest.oneLine

theorem PiecesOf.oneLine : ∀ {used : List Token} {pieces : List Expr}, PiecesOf used pieces → OneLine used
  | _, _, .last hterms => hterms.oneLine
  | _, _, .cons comma hfirst hrest => hfirst.oneLine.append (.cons (by decide) comma hrest.oneLine)

end

theorem ParamsOf.oneLine {used : List Token} {ps : List Expr} (h : ParamsOf used ps) : OneLine used := by
  induction h with
  | nil => exact .nil
  | bare name _ ih => exact .cons (by decide) name ih
  | bareComma name comma _ ih => exact .cons (by decide) name (.cons (by decide) comma ih)
  | valued name equals comma hvalue _ ih =>
      exact .cons (by decide) name (.cons (by decide) equals (hvalue.oneLine.append (.cons (by decide) comma ih)))
  | valuedLast name equals hvalue => exact .cons (by decide) name (.cons (by decide) equals hvalue.oneLine)

theorem ParamListOf.oneLine {used : List Token} {ps : List Expr} (h : ParamListOf used ps) :
    OneLine used := by
  cases h with
  | absent => exact .nil
  | present opening closing hinside =>
      exact .cons (by decide) opening (hinside.oneLine.append (.cons (by decide) closing .nil))

end Grammar

namespace Read
open Grammar

/-! ### Whole lines -/

/-- Tokens that end with a newline, or none. -/
def EndsLine (tokens : List Token) : Prop :=
  ∀ token, tokens.getLast? = some token → token.kind = .newline

theorem EndsLine.of_append (front : List Token) {rest : List Token} (h : EndsLine (front ++ rest)) :
    EndsLine rest := by
  intro token hlast
  apply h token
  rw [List.getLast?_append, hlast]
  rfl

theorem EndsLine.skipNewlines {tokens : List Token} (h : EndsLine tokens) : EndsLine (skipNewlines tokens) := by
  obtain ⟨newlines, hsplit, -⟩ := skipNewlines_split tokens
  rw [hsplit] at h
  exact h.of_append newlines

/-- No phrase of one line begins with whole lines. -/
theorem EndsLine.not_oneLine {tokens : List Token} (h : EndsLine tokens) (hne : tokens ≠ [])
    (more : List Token) : ¬ OneLine (tokens ++ more) := by
  intro hone
  have hlast := List.getLast?_eq_some_getLast hne
  exact hone _ (List.mem_append_left _ (List.getLast_mem hne)) (h _ hlast)

/-! ### Errors behind whole lines -/

theorem statement_not_atEnd {tokens left : List Token} {e : ParseError} (hreal : NoEndOfInput tokens)
    (hlines : EndsLine tokens) (hne : tokens ≠ []) (h : statement tokens = .error e left) : ¬ e.AtEnd := by
  intro hend
  obtain ⟨more, ts, hts, -⟩ := statement_mends hreal h hend
  exact hlines.not_oneLine hne more hts.oneLine

theorem params_not_atEnd {tokens left : List Token} {e : ParseError} (hreal : NoEndOfInput tokens)
    (hlines : EndsLine tokens) (h : params tokens = .error e left) : ¬ e.AtEnd := by
  intro hend
  obtain ⟨more, ps, hps⟩ := params_mends hreal h hend
  refine hlines.not_oneLine ?_ more hps.oneLine
  rintro rfl
  cases h

theorem statements_not_atEnd {tokens left : List Token} {e : ParseError} (hreal : NoEndOfInput tokens)
    (hlines : EndsLine tokens) (h : statements tokens = .error e left) : ¬ e.AtEnd := by
  fun_induction statements tokens with
  | case1 => cases h
  | case2 tokens hsome e' rest hstatement =>
      cases h
      refine statement_not_atEnd hreal hlines ?_ hstatement
      rintro rfl
      exact hsome rfl
  | case3 tokens hsome expr rest hstatement ih =>
      obtain ⟨first, rfl, -⟩ := statement_sound hstatement
      exact ih (hreal.of_append first).skipNewlines (hlines.of_append first).skipNewlines
        (Reading.map_eq_error.mp h)

/-- The error of a function whose `end` is missing. -/
def missingEnd : ParseError := .unexpected .endKeyword .endOfInput

theorem functionFrom_open (opening name closing : Bytes) {tokens left : List Token} {e : ParseError}
    (hreal : NoEndOfInput tokens) (hlines : EndsLine tokens) (h : functionFrom name tokens = .error e left)
    (hend : e.AtEnd) : e = missingEnd ∧ ∀ after, Newlines after →
      ∃ n, FunctionOf (⟨.defKeyword, opening⟩ :: ⟨.identifier, name⟩ ::
        (tokens ++ ⟨.endKeyword, closing⟩ :: after)) n := by
  rcases Reading.andThen_eq_error.mp h with hparams | ⟨ps, behind, hparams, hbody⟩
  · exact absurd hend (params_not_atEnd hreal hlines hparams)
  · obtain ⟨params, rfl, hspelled⟩ := params_sound hparams
    obtain ⟨before, hsplit, hbefore⟩ := skipNewlines_split behind
    have hbehind := (hreal.of_append params).skipNewlines
    rcases Reading.andThen_eq_error.mp hbody with hstatements | ⟨es, rest, hstatements, hclose⟩
    · exact absurd hend (statements_not_atEnd hbehind (hlines.of_append params).skipNewlines hstatements)
    · obtain ⟨body, hbodySplit, hes, -⟩ := statements_sound hstatements
      rw [hbodySplit] at hbehind
      rcases Reading.andThen_eq_error.mp hclose with hclose | ⟨_, _, _, hdone⟩
      · cases expect_atEnd (hbehind.of_append body) hclose hend
        cases hclose
        refine ⟨rfl, fun after hafter => ⟨.function name ps (some es), ?_⟩⟩
        rw [hsplit, hbodySplit, List.append_nil, ← List.append_assoc]
        exact .intro opening name closing hspelled hbefore hes hafter
      · cases hdone

theorem function_open (closing : Bytes) {opening : Bytes} {rest left : List Token} {e : ParseError}
    (hreal : NoEndOfInput rest) (hlines : EndsLine (⟨.defKeyword, opening⟩ :: rest))
    (h : function (⟨.defKeyword, opening⟩ :: rest) = .error e left) (hend : e.AtEnd) :
    e = missingEnd ∧ ∀ after, Newlines after →
      ∃ n, FunctionOf (⟨.defKeyword, opening⟩ :: (rest ++ ⟨.endKeyword, closing⟩ :: after)) n := by
  rw [function_cons] at h
  rcases Reading.andThen_eq_error.mp h with hname | ⟨token, behind, hname, hfrom⟩
  · cases expect_atEnd hreal hname hend
    cases hlines _ rfl
  · obtain ⟨name, rfl, rfl⟩ := expect_eq_ok_iff.mp hname
    exact functionFrom_open opening name closing (hreal.of_append [_]) (hlines.of_append [_, _]) hfrom hend

theorem node_open (closing : Bytes) {token : Token} {rest left : List Token} {e : ParseError}
    (hreal : NoEndOfInput (token :: rest)) (hlines : EndsLine (token :: rest))
    (h : node (token :: rest) = .error e left) (hend : e.AtEnd) : e = missingEnd ∧
      ∀ after, Newlines after → ∃ p, ProgramOf (token :: rest ++ ⟨.endKeyword, closing⟩ :: after) p := by
  rw [node] at h
  split at h
  · rename_i hdef
    obtain ⟨_, opening⟩ := token
    cases hdef
    obtain ⟨hmissing, hclosed⟩ := function_open closing (hreal.of_append [_]) hlines h hend
    refine ⟨hmissing, fun after hafter => ?_⟩
    obtain ⟨n, hn⟩ := hclosed after hafter
    exact ⟨[n], by simpa using ProgramOf.function hn .nil⟩
  · split at h
    · cases h
      exact absurd hend (hreal.found_ne (List.mem_cons_self ..))
    · exact absurd hend (statements_not_atEnd hreal hlines (Reading.map_eq_error.mp h))

/-- Where reading whole lines stops for want of tokens, a function is open, and `end` closes it. -/
theorem program_open (closing : Bytes) {tokens left : List Token} {e : ParseError} (hreal : NoEndOfInput tokens)
    (hlines : EndsLine tokens) (h : program tokens = .error e left) (hend : e.AtEnd) : e = missingEnd ∧
      ∀ after, Newlines after → ∃ p, ProgramOf (tokens ++ ⟨.endKeyword, closing⟩ :: after) p := by
  fun_induction program tokens with
  | case1 => cases h
  | case2 token rest e' left' hnode =>
      cases h
      exact node_open closing hreal hlines hnode hend
  | case3 token rest n behind hnode ih =>
      have hrest := Reading.map_eq_error.mp h
      obtain ⟨front, hsplit⟩ := (node_localAt token rest).suffix hnode
      rw [hsplit] at hreal hlines
      obtain ⟨hmissing, hclosed⟩ := ih (hreal.of_append front) (hlines.of_append front) hrest
      refine ⟨hmissing, fun after hafter => ?_⟩
      obtain ⟨p, hp⟩ := hclosed after hafter
      refine ⟨n :: p, programOf_cons _ hnode ?_ hp⟩
      rintro rfl
      rw [program] at hrest
      cases hrest

end Read

/-! ### Sources of whole lines -/

theorem Token.IsLexeme.kind_ne_endOfInput {token : Token} (h : token.IsLexeme) : token.kind ≠ .endOfInput := by
  cases h with
  | keyword hword =>
      have hall : ∀ entry ∈ keywords, entry.2 ≠ .endOfInput := by decide
      exact hall _ hword
  | symbol hsymbol =>
      have hall : ∀ entry ∈ symbols, entry.2 ≠ .endOfInput := by decide
      exact hall _ hsymbol
  | _ => exact fun hkind => by cases hkind

theorem noEndOfInput_of_tokenize {source : Bytes} {tokens : List Token} (h : tokenize source = .ok tokens) :
    Read.NoEndOfInput tokens := by
  have hwritten := Token.written_of_scan (scan_of_tokenize h)
  exact fun token hmem => (hwritten.isLexeme token hmem).kind_ne_endOfInput

theorem endsLine_of_tokenize {line : Bytes} {tokens : List Token}
    (h : tokenize (line ++ [Ascii.newline]) = .ok tokens) : Read.EndsLine tokens := by
  obtain ⟨before, rfl, -⟩ := tokenize_line h
  intro token hlast
  rw [List.getLast?_concat] at hlast
  cases hlast
  rfl

namespace Repl
open Read

/-- Lines that need more are an open function, and `end` closes it. -/
theorem open_of_needsMore {line : Bytes} (h : needsMore (translate (line ++ [Ascii.newline])) = true) :
    ∃ tokens p, tokenize (line ++ [Ascii.newline]) = .ok tokens ∧ parse tokens = .error missingEnd ∧
      parse (tokens ++ [⟨.endKeyword, text "end"⟩, Token.lineEnd]) = .ok p := by
  rcases waiting_of_needsMore h with hnil | ⟨_, tokens, e, -, htokens, hparse, hincomplete⟩
  · simp at hnil
  have hreal := noEndOfInput_of_tokenize htokens
  rcases parse_error_cases hparse with hend | ⟨front, rest, rfl, -⟩
  · obtain ⟨left, hread⟩ := parse_eq_error_iff.mp hparse
    obtain ⟨rfl, hclosed⟩ := program_open (text "end") hreal (endsLine_of_tokenize htokens) hread hend
    obtain ⟨p, hp⟩ := hclosed [Token.lineEnd] (List.forall_mem_singleton.mpr rfl)
    exact ⟨tokens, p, htokens, hparse, parse_complete hp⟩
  · have hkind : e.found.kind ≠ .endOfInput := hreal e.found (by simp)
    simp [ParseError.isIncomplete, hkind] at hincomplete

theorem needsMore_of_translate_append {line more js : Bytes} {e : SourceError}
    (herror : translate (line ++ [Ascii.newline]) = .error e)
    (hmore : translate (line ++ [Ascii.newline] ++ more) = .ok js) :
    needsMore (translate (line ++ [Ascii.newline])) = true := by
  rw [List.append_assoc, List.singleton_append] at hmore
  obtain ⟨tokens, p, htokens, hp, -⟩ := translate_eq_ok_iff.mp hmore
  obtain ⟨first, behind, hfirst, -, rfl⟩ := tokenize_split htokens
  rw [translate_of_tokenize hfirst] at herror ⊢
  cases hparse : parse first with
  | ok q =>
      rw [hparse] at herror
      cases herror
  | error e' => exact isIncomplete_of_parse_append hparse hp

/-- A session asks for one more line exactly if the line `end` would complete what it has, and no other text
completes what `end` does not. What it has then is a function without its `end`. -/
theorem needsMore_iff_end_completes (line : Bytes) :
    let source := line ++ [Ascii.newline]
    (needsMore (translate source) = true ↔
      (∃ e, translate source = .error e) ∧ ∃ js, translate (source ++ text "end\n") = .ok js) ∧
    (needsMore (translate source) = true ↔
      (∃ e, translate source = .error e) ∧ ∃ more js, translate (source ++ more) = .ok js) ∧
    (needsMore (translate source) = true ↔
      translate source = .error (.parse (.unexpected .endKeyword .endOfInput))) := by
  intro source
  have hopen : needsMore (translate source) = true → translate source = .error (.parse missingEnd) ∧
      ∃ js, translate (source ++ text "end\n") = .ok js := by
    intro h
    obtain ⟨tokens, p, htokens, herror, hp⟩ := open_of_needsMore h
    obtain ⟨-, -, -, hbehind⟩ := tokenize_line htokens
    have hend : tokenize (text "end\n") = .ok [⟨.endKeyword, text "end"⟩, Token.lineEnd] :=
      eq_ok_of_toOption (by decide +kernel)
    have hclosed : tokenize (source ++ text "end\n") =
        .ok (tokens ++ [⟨.endKeyword, text "end"⟩, Token.lineEnd]) := by
      rw [List.append_assoc, List.singleton_append, hbehind, hend]
      rfl
    refine ⟨?_, p.render, translate_eq_ok_iff.mpr ⟨_, p, hclosed, hp, rfl⟩⟩
    rw [translate_of_tokenize htokens, herror]
    rfl
  refine ⟨⟨?_, ?_⟩, ⟨?_, ?_⟩, fun h => (hopen h).1, fun h => by rw [h]; rfl⟩
  · intro h
    obtain ⟨herror, hclosed⟩ := hopen h
    exact ⟨⟨_, herror⟩, hclosed⟩
  · rintro ⟨⟨e, herror⟩, js, hclosed⟩
    exact needsMore_of_translate_append herror hclosed
  · intro h
    obtain ⟨herror, hclosed⟩ := hopen h
    exact ⟨⟨_, herror⟩, text "end\n", hclosed⟩
  · rintro ⟨⟨e, herror⟩, more, js, hmore⟩
    exact needsMore_of_translate_append herror hmore

end Repl

end Scriptlet
