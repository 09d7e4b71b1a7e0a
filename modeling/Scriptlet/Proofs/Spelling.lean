import Scriptlet.Proofs.Readability

/-!
Programs written out again. Every well-formed program can be spelled with tokens, and reading gives it back:
a comma behind every argument keeps the empty ones, wherever they stand, and a comma behind every parameter
ends its default value, also an empty one. If the names, strings and integers of the program can be written
down, a blank behind every token makes a source of it, which is scanned to these tokens. Since all that is
read is well-formed, the programs that can be read are known exactly.
-/

namespace Scriptlet

/-! ### Well-formed programs -/

/-- Nothing in the program is missing, no statement and no list of statements is empty, no two lists of
statements stand next to each other, parameters begin with a name, behind which there is nothing or an equals
sign, and no string has a quote in it. -/
def Program.WellFormed (p : Program) : Prop := p.Built Term.IsWhole

/-- What can be written down, the arguments aside: names that are identifiers, strings on one line, and
integers without a sign. -/
def Term.IsWritable : Term → Prop
  | .str value => Ascii.newline ∉ value
  | .int n => 0 ≤ n.toInt
  | .var name | .call name _ => IsIdentifier name
  | _ => True

/-- A well-formed program of which all names, strings and integers can be written down. -/
def Program.Writable (p : Program) : Prop := p.Built fun t => t.IsWhole ∧ t.IsWritable

theorem Term.isSourced_iff (t : Term) : t.IsSourced ↔ t.IsWhole ∧ t.IsWritable := by
  constructor
  · intro h
    refine ⟨h.isWhole, ?_⟩
    cases t with
    | str value => exact fun hmem => (h _ hmem).2.2 rfl
    | int n => exact h
    | var name => exact h.isIdentifier
    | call name args => exact h.isIdentifier
    | _ => trivial
  · rintro ⟨hwhole, hwritable⟩
    cases t with
    | str value => exact fun b hb => ⟨(hwhole b hb).1, (hwhole b hb).2, fun heq => hwritable (heq ▸ hb)⟩
    | int n => exact hwritable
    | var name => exact Token.isLexeme_of_isIdentifier hwritable
    | call name args => exact Token.isLexeme_of_isIdentifier hwritable
    | missing => exact hwhole
    | _ => trivial

theorem Program.writable_iff (p : Program) : p.Writable ↔ p.Built Term.IsSourced := by
  have hsame : Term.IsSourced = fun t => t.IsWhole ∧ t.IsWritable := by
    funext t
    exact propext t.isSourced_iff
  rw [Program.Writable, hsame]

/-! ### Tokens for programs -/

namespace Token

def opening : Token := ⟨.openParen, [Ascii.openParen]⟩

def closing : Token := ⟨.closeParen, [Ascii.closeParen]⟩

def comma : Token := ⟨.comma, [Ascii.comma]⟩

def defWord : Token := ⟨.defKeyword, text "def"⟩

def endWord : Token := ⟨.endKeyword, text "end"⟩

theorem isLexeme_opening : opening.IsLexeme := .symbol (by decide)

theorem isLexeme_closing : closing.IsLexeme := .symbol (by decide)

theorem isLexeme_comma : comma.IsLexeme := .symbol (by decide)

end Token

mutual

/-- The tokens of a term. -/
def Term.spell : Term → List Token
  | .nil => [⟨.nilKeyword, text "nil"⟩]
  | .call name args => ⟨.identifier, name⟩ :: Token.opening :: (Expr.spellEach args ++ [Token.closing])
  | t => [t.token]

def Expr.spell : List Term → List Token
  | [] => []
  | term :: terms => term.spell ++ Expr.spell terms

/-- The tokens of expressions with a comma behind each. -/
def Expr.spellEach : List (List Term) → List Token
  | [] => []
  | expr :: exprs => Expr.spell expr ++ Token.comma :: Expr.spellEach exprs

end

/-- The tokens of statements, each on its line. -/
def Expr.spellLines (exprs : List Expr) : List Token := exprs.flatMap fun e => Expr.spell e ++ [Token.lineEnd]

/-- The tokens of a node. The name of a function and its parameters are spelled like a call. -/
def Node.spell : Node → List Token
  | .function name params body =>
    Token.defWord :: ((Term.call name params).spell ++ Token.lineEnd ::
      (Expr.spellLines (body.getD []) ++ [Token.endWord, Token.lineEnd]))
  | .statements exprs => Expr.spellLines exprs
  | .missing => []

def Program.spell (p : Program) : List Token := p.flatMap Node.spell

/-! ### Reading what is spelled -/

namespace Grammar

theorem argsOfPieces_concat_nil (args : List Expr) : argsOfPieces (args ++ [[]]) = args := by
  simp [argsOfPieces]

theorem termsOf_spell {e : Expr} (h : ∀ t ∈ e, TermOf t.spell t) : TermsOf (Expr.spell e) e := by
  induction e with
  | nil => exact .nil
  | cons t ts ih =>
      rw [List.forall_mem_cons] at h
      exact .cons h.1 (ih h.2)

theorem piecesOf_spellEach {args : List Expr} (h : ∀ arg ∈ args, ∀ t ∈ arg, TermOf t.spell t) :
    PiecesOf (Expr.spellEach args) (args ++ [[]]) := by
  induction args with
  | nil => exact .last .nil
  | cons arg args ih =>
      rw [List.forall_mem_cons] at h
      exact .cons _ (termsOf_spell h.1) (ih h.2)

theorem termOf_spell {t : Term} (h : t.Everywhere Term.IsWhole) : TermOf t.spell t := by
  induction h with
  | @intro t here inside ih =>
      cases t with
      | nil => exact .atom (.nil _)
      | call name args =>
          have hcall := TermOf.call name Token.opening.value Token.closing.value
            (piecesOf_spellEach (ih name args rfl))
          rw [argsOfPieces_concat_nil] at hcall
          exact hcall
      | missing => exact here.elim
      | _ => exact .atom (Term.atomOf_token here (fun h => by cases h) fun _ _ h => by cases h)

theorem paramsOf_spellEach {params : List Expr} (hparams : ∀ e ∈ params, e.IsParam)
    (h : ∀ e ∈ params, ∀ t ∈ e, TermOf t.spell t) : ParamsOf (Expr.spellEach params) params := by
  induction params with
  | nil => exact .nil
  | cons e params ih =>
      rw [List.forall_mem_cons] at hparams h
      have hrest := ih hparams.2 h.2
      obtain ⟨name, rfl | ⟨value, rfl⟩⟩ := hparams.1
      · exact .bareComma name _ hrest
      · have hvalue : TermsOf (Expr.spell value) value :=
          termsOf_spell fun t ht => h.1 t (List.mem_cons_of_mem _ (List.mem_cons_of_mem _ ht))
        exact .valued name _ _ hvalue hrest

theorem statementsOf_spellLines {es : List Expr} (h : ∀ e ∈ es, e.IsStatement Term.IsWhole) :
    StatementsOf (Expr.spellLines es) es := by
  induction es with
  | nil => exact .nil
  | cons e es ih =>
      rw [List.forall_mem_cons] at h
      have hterms := termsOf_spell fun t ht => termOf_spell (h.1.2 t ht)
      exact .line hterms h.1.1 (List.forall_mem_singleton.mpr rfl) (List.cons_ne_nil _ _) (ih h.2)

theorem functionOf_spell {name : Bytes} {params body : List Expr}
    (header : (Term.call name params).Everywhere Term.IsWhole) (hparams : ∀ e ∈ params, e.IsParam)
    (hbody : ∀ e ∈ body, e.IsStatement Term.IsWhole) :
    FunctionOf (Node.function name params (some body)).spell (.function name params (some body)) := by
  have hterms : ∀ e ∈ params, ∀ t ∈ e, TermOf t.spell t := by
    cases header with
    | intro _ inside => exact fun e he t ht => termOf_spell (inside name params rfl e he t ht)
  have hnewline : Newlines [Token.lineEnd] := List.forall_mem_singleton.mpr rfl
  have hfunction := FunctionOf.intro Token.defWord.value name Token.endWord.value
    (.present Token.opening.value Token.closing.value (paramsOf_spellEach hparams hterms)) hnewline
    (statementsOf_spellLines hbody) hnewline
  have hspell : (Node.function name params (some body)).spell = Token.defWord :: ⟨.identifier, name⟩ ::
      (Token.opening :: (Expr.spellEach params ++ [Token.closing]) ++ [Token.lineEnd] ++
        Expr.spellLines body ++ Token.endWord :: [Token.lineEnd]) := by
    simp [Node.spell, Term.spell]
  rw [hspell]
  exact hfunction

/-- A well-formed program is what its tokens spell. -/
theorem programOf_spell {p : Program} (h : p.WellFormed) : ProgramOf p.spell p := by
  induction h with
  | nil => exact .nil
  | cons hn _ hapart ih =>
      cases hn with
      | function header hparams hbody => exact .function (functionOf_spell header hparams hbody) ih
      | statements hne hes => exact .statements (statementsOf_spellLines hes) hne ih (hapart rfl)

end Grammar

/-! ### Scanning what is spelled -/

theorem Expr.forall_mem_spell {Q : Token → Prop} {e : Expr} (h : ∀ t ∈ e, ∀ token ∈ t.spell, Q token) :
    ∀ token ∈ Expr.spell e, Q token := by
  induction e with
  | nil => exact List.forall_mem_nil _
  | cons t ts ih =>
      rw [List.forall_mem_cons] at h
      exact List.forall_mem_append.mpr ⟨h.1, ih h.2⟩

theorem Expr.forall_mem_spellEach {Q : Token → Prop} (hcomma : Q Token.comma) {es : List Expr}
    (h : ∀ e ∈ es, ∀ t ∈ e, ∀ token ∈ t.spell, Q token) : ∀ token ∈ Expr.spellEach es, Q token := by
  induction es with
  | nil => exact List.forall_mem_nil _
  | cons e es ih =>
      rw [List.forall_mem_cons] at h
      exact List.forall_mem_append.mpr
        ⟨forall_mem_spell h.1, List.forall_mem_cons.mpr ⟨hcomma, ih h.2⟩⟩

theorem Term.Everywhere.isLexeme_spell {t : Term} (h : t.Everywhere Term.IsSourced) :
    ∀ token ∈ t.spell, token.IsLexeme := by
  induction h with
  | @intro t here inside ih =>
      cases t with
      | nil => exact List.forall_mem_singleton.mpr (.keyword (by decide))
      | call name args =>
          have hargs := Expr.forall_mem_spellEach Token.isLexeme_comma (ih name args rfl)
          have hclosing : ∀ token ∈ [Token.closing], token.IsLexeme :=
            List.forall_mem_singleton.mpr Token.isLexeme_closing
          refine List.forall_mem_cons.mpr ⟨here, List.forall_mem_cons.mpr ⟨Token.isLexeme_opening, ?_⟩⟩
          exact List.forall_mem_append.mpr ⟨hargs, hclosing⟩
      | missing => exact here.elim
      | _ => exact List.forall_mem_singleton.mpr (Term.isLexeme_token here)

theorem Expr.isLexeme_spellLines {es : List Expr} (h : ∀ e ∈ es, e.IsStatement Term.IsSourced) :
    ∀ token ∈ Expr.spellLines es, token.IsLexeme := by
  intro token hmem
  obtain ⟨e, he, hmem⟩ := List.mem_flatMap.mp hmem
  have hline : ∀ token ∈ Expr.spell e ++ [Token.lineEnd], token.IsLexeme := by
    refine List.forall_mem_append.mpr ⟨?_, List.forall_mem_singleton.mpr Token.isLexeme_lineEnd⟩
    exact forall_mem_spell fun t ht => ((h e he).2 t ht).isLexeme_spell
  exact hline token hmem

theorem Node.Built.isLexeme_spell {n : Node} (h : n.Built Term.IsSourced) :
    ∀ token ∈ n.spell, token.IsLexeme := by
  cases h with
  | function header _ hbody =>
      simp only [Node.spell, List.forall_mem_cons, List.forall_mem_append]
      exact ⟨.keyword (by decide), header.isLexeme_spell, Token.isLexeme_lineEnd, Expr.isLexeme_spellLines hbody,
        .keyword (by decide), Token.isLexeme_lineEnd, List.forall_mem_nil _⟩
  | statements _ hes => exact Expr.isLexeme_spellLines hes

theorem Program.Built.isLexeme_spell {p : Program} (h : p.Built Term.IsSourced) :
    ∀ token ∈ p.spell, token.IsLexeme := by
  induction h with
  | nil => exact List.forall_mem_nil _
  | cons hn _ _ ih => exact List.forall_mem_append.mpr ⟨hn.isLexeme_spell, ih⟩

namespace Token

/-- Tokens as text, with a blank behind each. -/
def write (tokens : List Token) : Bytes := tokens.flatMap fun token => token.value ++ [Ascii.space]

theorem written_write {tokens : List Token} (h : ∀ token ∈ tokens, token.IsLexeme) :
    Written (write tokens) tokens := by
  induction tokens with
  | nil => exact .nil .nil
  | cons token tokens ih =>
      rw [List.forall_mem_cons] at h
      have hends : token.EndsBefore (Ascii.space :: write tokens) := by
        intro _ b hb
        cases hb
        decide
      have hwrite : write (token :: tokens) = token.value ++ Ascii.space :: write tokens := by simp [write]
      rw [hwrite]
      exact .token h.1 hends (ih h.2).space

theorem tokenize_write {tokens : List Token} (h : ∀ token ∈ tokens, token.IsLexeme) :
    tokenize (write tokens) = .ok tokens := (written_write h).trimSource.scan

end Token

/-! ### What can be read -/

/-- The programs that are read from tokens are the well-formed ones, which all have a text. Those that are
read from a source are the ones of which all names, strings and integers can be written down. -/
theorem exists_parse_iff_wellFormed (p : Program) :
    ((∃ tokens, parse tokens = .ok p) ↔ p.WellFormed) ∧
    (p.WellFormed → p.generate = .ok p.render) ∧
    ((∃ source tokens, tokenize source = .ok tokens ∧ parse tokens = .ok p) ↔ p.Writable) := by
  refine ⟨⟨?_, ?_⟩, ?_, ?_, ?_⟩
  · rintro ⟨tokens, hparse⟩
    exact (Read.parse_sound hparse).built fun token _ => token.gives_isWhole
  · intro h
    exact ⟨p.spell, Read.parse_complete (Grammar.programOf_spell h)⟩
  · intro h
    exact Program.generate_eq_of_isWhole h
  · rintro ⟨source, tokens, htokens, hparse⟩
    have hwritten := Token.written_of_scan (scan_of_tokenize htokens)
    rw [p.writable_iff]
    exact (Read.parse_sound hparse).built fun token hmem => (hwritten.isLexeme token hmem).gives
  · intro h
    have hbuilt := p.writable_iff.mp h
    have hwhole : p.WellFormed := h.mono fun _ => And.left
    exact ⟨Token.write p.spell, p.spell, Token.tokenize_write hbuilt.isLexeme_spell,
      Read.parse_complete (Grammar.programOf_spell hwhole)⟩

/-- A call by the name of a keyword, with empty arguments around a negative integer. Tokens spell it, but no
source does. -/
theorem wellFormed_call_of_keyword :
    let p : Program := [.statements [[.call (text "def") [[], [.int (-5)], []]]]]
    p.WellFormed ∧ p.generate = .ok p.render ∧ (∃ tokens, parse tokens = .ok p) ∧
      ¬ ∃ source tokens, tokenize source = .ok tokens ∧ parse tokens = .ok p := by
  intro p
  have hparse : parse p.spell = .ok p := by with_unfolding_all rfl
  obtain ⟨htokens, hgenerate, hsource⟩ := exists_parse_iff_wellFormed p
  have hwell : p.WellFormed := htokens.mp ⟨p.spell, hparse⟩
  refine ⟨hwell, hgenerate hwell, htokens.mpr hwell, fun hexists => ?_⟩
  have hwritable : Program.Writable [.statements [[.call (text "def") [[], [.int (-5)], []]]]] :=
    hsource.mp hexists
  cases hwritable with
  | cons hn _ _ =>
      cases hn with
      | statements _ hes =>
          cases (hes _ (List.mem_cons_self ..)).2 _ (List.mem_cons_self ..) with
          | intro here _ => exact here.2.1 (by decide)

end Scriptlet
