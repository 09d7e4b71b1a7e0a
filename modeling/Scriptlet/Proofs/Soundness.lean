import Scriptlet.Proofs.Calls

/-!
What is read is spelled. Each reading procedure is taken apart at the tokens it used: what it returns is
spelled by them in the grammar, and what it leaves cannot go on with the phrase.
-/

namespace Scriptlet

namespace Read
open Grammar

/-- What reading inside a call returns is spelled by the tokens up to its closing parenthesis. -/
def InsideSound (tokens : List Token) : Prop :=
  ∀ inner t left, insideCall inner [] tokens = .ok t left →
    ∃ inside closing pieces, tokens = inside ++ ⟨.closeParen, closing⟩ :: left ∧
      PiecesOf inside pieces ∧ t = inner.closeWith pieces

theorem term_sound_of {tokens left : List Token} {t : Term}
    (hinside : ∀ shorter : List Token, shorter.length < tokens.length → InsideSound shorter)
    (h : term tokens = .ok t left) : ∃ used, tokens = used ++ left ∧ TermOf used t := by
  cases tokens with
  | nil => cases h
  | cons token rest =>
      by_cases hcall : ∃ name opening more, token = ⟨.identifier, name⟩ ∧
          rest = ⟨.openParen, opening⟩ :: more
      · obtain ⟨name, opening, more, rfl, rfl⟩ := hcall
        rw [term_call] at h
        obtain ⟨inside, closing, pieces, rfl, hpieces, rfl⟩ :=
          hinside more (by simp only [List.length_cons]; omega) _ _ _ h
        rw [OpenCall.start_closeWith name hpieces.ne_nil]
        exact ⟨_, by simp, .call name opening closing hpieces⟩
      · rw [term_eq_atom fun name opening more hname hmore => hcall ⟨name, opening, more, hname, hmore⟩]
          at h
        obtain ⟨hatom, rfl⟩ := atom_eq_ok_iff.mp h
        exact ⟨[token], rfl, .atom hatom⟩

theorem insideCall_sound (tokens : List Token) : InsideSound tokens := by
  induction hlength : tokens.length using Nat.strongRecOn generalizing tokens with
  | ind n ih =>
      intro inner t left hread
      have hshorter : ∀ shorter : List Token, shorter.length < tokens.length → InsideSound shorter :=
        fun shorter hlt => ih shorter.length (hlength ▸ hlt) shorter rfl
      by_cases hcomma : nextIs .comma tokens = true
      · obtain ⟨comma, rest, rfl⟩ := nextIs_iff.mp hcomma
        obtain ⟨inside, closing, pieces, rfl, hpieces, rfl⟩ :=
          hshorter rest (Nat.lt_succ_self _) inner.nextArgument _ _ hread
        exact ⟨⟨.comma, comma⟩ :: inside, closing, [] :: pieces, rfl, .cons comma .nil hpieces,
          inner.nextArgument_closeWith hpieces.ne_nil⟩
      by_cases hclose : nextIs .closeParen tokens = true
      · obtain ⟨closing, rest, rfl⟩ := nextIs_iff.mp hclose
        cases hread
        exact ⟨[], closing, [[]], rfl, .last .nil, inner.closeWith_nil.symm⟩
      rw [insideCall_eq_term inner [] (by simpa using hcomma) (by simpa using hclose)] at hread
      obtain ⟨t', rest, hterm, hread⟩ := Reading.andThen_eq_ok.mp hread
      obtain ⟨first, hsplit, hfirst⟩ := term_sound_of hshorter hterm
      obtain ⟨inside, closing, pieces, rfl, hpieces, rfl⟩ :=
        hshorter rest (term_length_lt hterm) _ _ _ hread
      cases pieces with
      | nil => exact absurd rfl hpieces.ne_nil
      | cons piece pieces =>
          exact ⟨first ++ inside, closing, (t' :: piece) :: pieces, by simp [hsplit], hpieces.push hfirst,
            OpenCall.push_closeWith inner t' piece pieces⟩

theorem term_sound {tokens left : List Token} {t : Term} (h : term tokens = .ok t left) :
    ∃ used, tokens = used ++ left ∧ TermOf used t := term_sound_of (fun shorter _ => insideCall_sound shorter) h

/-! ### Around terms -/

theorem defaultTerms_sound {tokens left : List Token} {ts : List Term}
    (h : defaultTerms tokens = .ok ts left) :
    ∃ value, tokens = value ++ left ∧ TermsOf value ts ∧
      (nextIs .comma left || nextIs .closeParen left) = true := by
  fun_induction defaultTerms tokens generalizing ts with
  | case1 tokens hstop =>
      cases h
      exact ⟨[], rfl, .nil, hstop⟩
  | case2 => cases h
  | case3 tokens _ t rest hterm ih =>
      obtain ⟨ts, hrest, rfl⟩ := Reading.map_eq_ok.mp h
      obtain ⟨first, rfl, hfirst⟩ := term_sound hterm
      obtain ⟨value, rfl, hvalue, hstop⟩ := ih hrest
      exact ⟨first ++ value, by simp, .cons hfirst hvalue, hstop⟩

/-- A parameter in front of parameters. What follows it may go on beyond the tokens that were read. -/
theorem paramsOf_cons (name : Bytes) {rest behind used left : List Token} {value : List Term}
    {ps : List Expr} (more : List Token) (hdefault : defaultValue rest = .ok value behind) (hused : ParamsOf used ps)
    (hsplit : skipComma behind ++ more = used ++ left) :
    ∃ used', ⟨.identifier, name⟩ :: rest ++ more = used' ++ left ∧
      ParamsOf used' ((.var name :: value) :: ps) := by
  by_cases hassign : nextIs .assign rest = true
  · obtain ⟨equals, rest, rfl⟩ := nextIs_iff.mp hassign
    obtain ⟨ts, hterms, rfl⟩ := Reading.map_eq_ok.mp hdefault
    obtain ⟨value, rfl, hvalue, hstop⟩ := defaultTerms_sound hterms
    by_cases hcomma : nextIs .comma behind = true
    · obtain ⟨comma, behind, rfl⟩ := nextIs_iff.mp hcomma
      refine ⟨_, ?_, .valued name equals comma hvalue hused⟩
      have hbehind : behind ++ more = used ++ left := hsplit
      simp [hbehind]
    · have hclose : nextIs .closeParen behind = true := by simpa [hcomma] using hstop
      obtain ⟨closing, behind, rfl⟩ := nextIs_iff.mp hclose
      rw [skipComma_eq_self rfl] at hsplit
      cases hused with
      | nil =>
          refine ⟨_, ?_, .valuedLast name equals hvalue⟩
          rw [List.nil_append] at hsplit
          simp [← hsplit]
      | _ => cases hsplit
  · rw [defaultValue_eq_nil (by simpa using hassign)] at hdefault
    cases hdefault
    by_cases hcomma : nextIs .comma rest = true
    · obtain ⟨comma, rest, rfl⟩ := nextIs_iff.mp hcomma
      refine ⟨_, ?_, .bareComma name comma hused⟩
      have hrest : rest ++ more = used ++ left := hsplit
      simp [hrest]
    · rw [skipComma_eq_self (by simpa using hcomma)] at hsplit
      refine ⟨_, ?_, .bare name hused⟩
      rw [List.cons_append, hsplit]
      rfl

theorem paramList_sound {tokens left : List Token} {ps : List Expr}
    (h : paramList tokens = .ok ps left) : ∃ used, tokens = used ++ left ∧ ParamsOf used ps := by
  fun_induction paramList tokens generalizing ps with
  | case1 => cases h; exact ⟨[], rfl, .nil⟩
  | case2 => cases h
  | case4 token rest _ => cases h; exact ⟨[], rfl, .nil⟩
  | case3 token rest hkind value behind hdefault ih =>
      obtain ⟨ps, hparams, rfl⟩ := Reading.map_eq_ok.mp h
      obtain ⟨_, name⟩ := token
      cases hkind
      obtain ⟨used, hsplit, hused⟩ := ih hparams
      simpa using paramsOf_cons name [] hdefault hused (by simpa using hsplit)

theorem params_sound {tokens left : List Token} {ps : List Expr} (h : params tokens = .ok ps left) :
    ∃ used, tokens = used ++ left ∧ ParamListOf used ps := by
  cases tokens with
  | nil => cases h; exact ⟨[], rfl, .absent⟩
  | cons token rest =>
      rw [params] at h
      split at h
      · rename_i hkind
        obtain ⟨_, opening⟩ := token
        cases hkind
        obtain ⟨ps, behind, hparams, h⟩ := Reading.andThen_eq_ok.mp h
        obtain ⟨_, hclose, rfl⟩ := Reading.map_eq_ok.mp h
        obtain ⟨closing, rfl, rfl⟩ := expect_eq_ok_iff.mp hclose
        obtain ⟨inside, rfl, hinside⟩ := paramList_sound hparams
        exact ⟨_, by simp, .present opening closing hinside⟩
      · cases h
        exact ⟨[], rfl, .absent⟩

theorem statement_sound {tokens left : List Token} {e : Expr} (h : statement tokens = .ok e left) :
    ∃ used, tokens = used ++ left ∧ TermsOf used e ∧ e ≠ [] ∧
      (nextIs .newline left || endsStatements left) = true := by
  fun_induction statement tokens generalizing e with
  | case1 => cases h
  | case2 tokens t rest hterm hstop =>
      cases h
      obtain ⟨first, rfl, hfirst⟩ := term_sound hterm
      exact ⟨first, rfl, by simpa using TermsOf.cons hfirst .nil, by simp, hstop⟩
  | case3 tokens t rest hterm _ ih =>
      obtain ⟨ts, hrest, rfl⟩ := Reading.map_eq_ok.mp h
      obtain ⟨first, rfl, hfirst⟩ := term_sound hterm
      obtain ⟨used, rfl, hused, _, hstop⟩ := ih hrest
      exact ⟨first ++ used, by simp, .cons hfirst hused, by simp, hstop⟩

theorem skipNewlines_split (tokens : List Token) :
    ∃ newlines, tokens = newlines ++ skipNewlines tokens ∧ Newlines newlines := by
  refine ⟨tokens.takeWhile (·.kind == .newline), List.takeWhile_append_dropWhile.symm, ?_⟩
  intro token hmem
  exact beq_iff_eq.mp (List.all_eq_true.mp List.all_takeWhile token hmem)

/-- A statement and its newlines in front of statements. What follows them may go on beyond the tokens that
were read. -/
theorem statementsOf_cons {first rest used left : List Token} {e : Expr} {es : List Expr}
    (more : List Token) (hfirst : TermsOf first e) (hne : e ≠ []) (hnewline : nextIs .newline rest = true)
    (hused : StatementsOf used es) (hsplit : skipNewlines rest ++ more = used ++ left) :
    ∃ used', first ++ rest ++ more = used' ++ left ∧ StatementsOf used' (e :: es) := by
  obtain ⟨newlines, hrest, hnewlines⟩ := skipNewlines_split rest
  have hsome : newlines ≠ [] := by
    rintro rfl
    obtain ⟨value, rest, rfl⟩ := nextIs_iff.mp hnewline
    have hlength := skipNewlines_length_le rest
    rw [List.nil_append, skipNewlines_cons] at hrest
    rw [← hrest, List.length_cons] at hlength
    omega
  refine ⟨first ++ newlines ++ used, ?_, .line hfirst hne hnewlines hsome hused⟩
  rw [hrest]
  simp [hsplit]

theorem statements_sound {tokens left : List Token} {es : List Expr}
    (h : statements tokens = .ok es left) :
    ∃ used, tokens = used ++ left ∧ StatementsOf used es ∧ endsStatements left = true := by
  fun_induction statements tokens generalizing es with
  | case1 tokens hstop =>
      cases h
      exact ⟨[], rfl, .nil, hstop⟩
  | case2 => cases h
  | case3 tokens _ e rest hstatement ih =>
      obtain ⟨es, hrest, rfl⟩ := Reading.map_eq_ok.mp h
      obtain ⟨first, rfl, hfirst, hne, hstop⟩ := statement_sound hstatement
      by_cases hnewline : nextIs .newline rest = true
      · obtain ⟨used, hsplit, hused, hleft⟩ := ih hrest
        obtain ⟨used', hsplit', hused'⟩ := statementsOf_cons [] hfirst hne hnewline hused
          (by simpa using hsplit)
        exact ⟨used', by simpa using hsplit', hused', hleft⟩
      · have hend : endsStatements rest = true := by simpa [hnewline] using hstop
        rw [skipNewlines_eq_self (by simpa using hnewline), statements_eq_nil hend] at hrest
        cases hrest
        exact ⟨first, rfl, .last hfirst hne, hend⟩

theorem function_sound {tokens left : List Token} {n : Node} (h : function tokens = .ok n left) :
    ∃ used, tokens = used ++ left ∧ FunctionOf used n := by
  unfold function at h
  obtain ⟨_, _, hdef, h⟩ := Reading.andThen_eq_ok.mp h
  obtain ⟨_, _, hname, h⟩ := Reading.andThen_eq_ok.mp h
  obtain ⟨ps, behind, hparams, h⟩ := Reading.andThen_eq_ok.mp h
  obtain ⟨es, _, hbody, h⟩ := Reading.andThen_eq_ok.mp h
  obtain ⟨_, rest, hend, h⟩ := Reading.andThen_eq_ok.mp h
  cases h
  obtain ⟨opening, rfl, rfl⟩ := expect_eq_ok_iff.mp hdef
  obtain ⟨name, rfl, rfl⟩ := expect_eq_ok_iff.mp hname
  obtain ⟨closing, rfl, rfl⟩ := expect_eq_ok_iff.mp hend
  obtain ⟨params, rfl, hspelled⟩ := params_sound hparams
  obtain ⟨before, hsplit, hbefore⟩ := skipNewlines_split behind
  obtain ⟨body, hused, hstatements, _⟩ := statements_sound hbody
  obtain ⟨after, hrest, hafter⟩ := skipNewlines_split rest
  refine ⟨_, ?_, .intro opening name closing hspelled hbefore hstatements hafter⟩
  rw [hsplit, hused]
  simp [← hrest]

/-- A node in front of a program. Other tokens may follow the node than those it was read with, if they end
statements where those did. -/
theorem programOf_node {token : Token} {rest behind behind' : List Token} {n : Node} {p : Program}
    (hnode : node (token :: rest) = .ok n behind)
    (hends : endsStatements behind = true → endsStatements behind' = true) (hrest : ProgramOf behind' p) :
    ∃ used, token :: rest = used ++ behind ∧ ProgramOf (used ++ behind') (n :: p) := by
  rw [node] at hnode
  split at hnode
  · obtain ⟨first, hsplit, hfirst⟩ := function_sound hnode
    exact ⟨first, hsplit, .function hfirst hrest⟩
  · rename_i hdef
    split at hnode
    · cases hnode
    · rename_i hend
      obtain ⟨es, hstatements, rfl⟩ := Reading.map_eq_ok.mp hnode
      obtain ⟨first, hsplit, hfirst, hstop⟩ := statements_sound hstatements
      refine ⟨first, hsplit, .statements hfirst ?_ hrest (hrest.endsStatements_iff.mp (hends hstop))⟩
      rintro rfl
      cases hfirst
      rw [List.nil_append] at hsplit
      rw [← hsplit, endsStatements_iff] at hstop
      simp [nextIs, hdef, hend] at hstop

/-- A node in front of a program. What follows the node may go on beyond the tokens that were read. -/
theorem programOf_cons {token : Token} {rest behind : List Token} {n : Node} {p : Program}
    (more : List Token) (hnode : node (token :: rest) = .ok n behind) (hmore : behind = [] → more = [])
    (hrest : ProgramOf (behind ++ more) p) : ProgramOf (token :: rest ++ more) (n :: p) := by
  have hends : endsStatements behind = true → endsStatements (behind ++ more) = true := by
    intro hstop
    cases behind with
    | nil => rw [hmore rfl]; rfl
    | cons next behind => exact hstop
  obtain ⟨used, hsplit, hprogram⟩ := programOf_node hnode hends hrest
  rw [hsplit, List.append_assoc]
  exact hprogram

theorem program_sound {tokens left : List Token} {p : Program} (h : program tokens = .ok p left) :
    ProgramOf tokens p := by
  fun_induction program tokens generalizing p with
  | case1 => cases h; exact .nil
  | case2 => cases h
  | case3 token rest n behind hnode ih =>
      obtain ⟨p, hrest, rfl⟩ := Reading.map_eq_ok.mp h
      simpa using programOf_cons [] hnode (fun _ => rfl) (by simpa using ih hrest)

end Read

end Scriptlet
