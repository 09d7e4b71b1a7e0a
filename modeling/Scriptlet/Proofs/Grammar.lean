import Scriptlet.Program.Read

/-!
The grammar of programs, as relations between a run of tokens and what it spells. Nothing here looks
ahead or consumes: a relation holds of exactly the tokens of a phrase. A term is one token or a call; the
inside of a call is cut at its own commas into pieces, of which an empty last one does not count. A
statement is one or more terms, the statements of a list are separated by newlines, and in a program no
two lists of statements stand next to each other.
-/

namespace Scriptlet.Grammar

/-- The terms of one token. A string loses all of its quotes, also those inside; an integer is one that
its 64-bit value spells. -/
inductive AtomOf : Token → Term → Prop where
  | nil (value : Bytes) : AtomOf ⟨.nilKeyword, value⟩ .nil
  | str (value : Bytes) : AtomOf ⟨.string, value⟩
      (.str (value.filter fun b => b ≠ Ascii.singleQuote ∧ b ≠ Ascii.doubleQuote))
  | int {value : Bytes} {n : Int64} (hvalue : Decimal.toInt? value = some n.toInt) :
      AtomOf ⟨.integer, value⟩ (.int n)
  | var (name : Bytes) : AtomOf ⟨.identifier, name⟩ (.var name)
  | plus (value : Bytes) : AtomOf ⟨.plus, value⟩ .plus
  | minus (value : Bytes) : AtomOf ⟨.minus, value⟩ .minus
  | star (value : Bytes) : AtomOf ⟨.star, value⟩ .star
  | slash (value : Bytes) : AtomOf ⟨.slash, value⟩ .slash
  | assign (value : Bytes) : AtomOf ⟨.assign, value⟩ .assign

/-- The arguments of a call whose inside has these pieces: an empty last piece is no argument. -/
def argsOfPieces (pieces : List Expr) : List Expr :=
  match pieces.getLast? with
  | some [] => pieces.dropLast
  | _ => pieces

mutual

/-- The tokens of one term. -/
inductive TermOf : List Token → Term → Prop where
  | atom {token : Token} {t : Term} (hatom : AtomOf token t) : TermOf [token] t
  | call {inside : List Token} {pieces : List Expr} (name opening closing : Bytes)
      (hinside : PiecesOf inside pieces) :
      TermOf (⟨.identifier, name⟩ :: ⟨.openParen, opening⟩ :: (inside ++ [⟨.closeParen, closing⟩]))
        (.call name (argsOfPieces pieces))

/-- The tokens of any number of terms. -/
inductive TermsOf : List Token → List Term → Prop where
  | nil : TermsOf [] []
  | cons {first rest : List Token} {t : Term} {ts : List Term} (hfirst : TermOf first t)
      (hrest : TermsOf rest ts) : TermsOf (first ++ rest) (t :: ts)

/-- The tokens of pieces with commas between them, each a possibly empty run of terms. -/
inductive PiecesOf : List Token → List Expr → Prop where
  | last {tokens : List Token} {ts : List Term} (hterms : TermsOf tokens ts) : PiecesOf tokens [ts]
  | cons {first rest : List Token} {ts : List Term} {pieces : List Expr} (comma : Bytes)
      (hfirst : TermsOf first ts) (hrest : PiecesOf rest pieces) :
      PiecesOf (first ++ ⟨.comma, comma⟩ :: rest) (ts :: pieces)

end

/-- The tokens of parameters. A name by itself may have a comma behind it; a default value extends up to
a comma or is the last thing. -/
inductive ParamsOf : List Token → List Expr → Prop where
  | nil : ParamsOf [] []
  | bare {rest : List Token} {params : List Expr} (name : Bytes) (hrest : ParamsOf rest params) :
      ParamsOf (⟨.identifier, name⟩ :: rest) ([.var name] :: params)
  | bareComma {rest : List Token} {params : List Expr} (name comma : Bytes)
      (hrest : ParamsOf rest params) :
      ParamsOf (⟨.identifier, name⟩ :: ⟨.comma, comma⟩ :: rest) ([.var name] :: params)
  | valued {value rest : List Token} {ts : List Term} {params : List Expr} (name equals comma : Bytes)
      (hvalue : TermsOf value ts) (hrest : ParamsOf rest params) :
      ParamsOf (⟨.identifier, name⟩ :: ⟨.assign, equals⟩ :: (value ++ ⟨.comma, comma⟩ :: rest))
        ((.var name :: .assign :: ts) :: params)
  | valuedLast {value : List Token} {ts : List Term} (name equals : Bytes) (hvalue : TermsOf value ts) :
      ParamsOf (⟨.identifier, name⟩ :: ⟨.assign, equals⟩ :: value) [.var name :: .assign :: ts]

/-- The tokens of an optional list of parameters in parentheses. -/
inductive ParamListOf : List Token → List Expr → Prop where
  | absent : ParamListOf [] []
  | present {inside : List Token} {params : List Expr} (opening closing : Bytes)
      (hinside : ParamsOf inside params) :
      ParamListOf (⟨.openParen, opening⟩ :: (inside ++ [⟨.closeParen, closing⟩])) params

/-- A run of newlines. -/
def Newlines (tokens : List Token) : Prop := ∀ token ∈ tokens, token.kind = .newline

/-- The tokens of a list of statements: each is one or more terms, newlines stand between any two, and
behind the last one they may stand or not. -/
inductive StatementsOf : List Token → List Expr → Prop where
  | nil : StatementsOf [] []
  | last {tokens : List Token} {e : Expr} (hterms : TermsOf tokens e) (hne : e ≠ []) :
      StatementsOf tokens [e]
  | line {first newlines rest : List Token} {e : Expr} {es : List Expr} (hterms : TermsOf first e)
      (hne : e ≠ []) (hnewlines : Newlines newlines) (hsome : newlines ≠ [])
      (hrest : StatementsOf rest es) : StatementsOf (first ++ newlines ++ rest) (e :: es)

/-- The tokens of a function definition with the newlines behind it. -/
inductive FunctionOf : List Token → Node → Prop where
  | intro {params before body after : List Token} {ps es : List Expr} (opening name closing : Bytes)
      (hparams : ParamListOf params ps) (hbefore : Newlines before) (hbody : StatementsOf body es)
      (hafter : Newlines after) :
      FunctionOf (⟨.defKeyword, opening⟩ :: ⟨.identifier, name⟩ ::
        (params ++ before ++ body ++ ⟨.endKeyword, closing⟩ :: after)) (.function name ps (some es))

/-- Whether a program begins with a list of statements. -/
def beginsWithStatements : Program → Bool
  | .statements _ :: _ => true
  | _ => false

/-- The tokens of a program. -/
inductive ProgramOf : List Token → Program → Prop where
  | nil : ProgramOf [] []
  | function {first rest : List Token} {n : Node} {p : Program} (hfirst : FunctionOf first n)
      (hrest : ProgramOf rest p) : ProgramOf (first ++ rest) (n :: p)
  | statements {first rest : List Token} {es : List Expr} {p : Program} (hfirst : StatementsOf first es)
      (hne : es ≠ []) (hrest : ProgramOf rest p) (hapart : beginsWithStatements p = false) :
      ProgramOf (first ++ rest) (.statements es :: p)

theorem PiecesOf.ne_nil {tokens : List Token} {pieces : List Expr} (h : PiecesOf tokens pieces) :
    pieces ≠ [] := by
  cases h <;> simp

/-- A term in front of pieces goes to the first of them. -/
theorem PiecesOf.push {first rest : List Token} {t : Term} {piece : Expr} {pieces : List Expr}
    (hfirst : TermOf first t) (hrest : PiecesOf rest (piece :: pieces)) :
    PiecesOf (first ++ rest) ((t :: piece) :: pieces) := by
  cases hrest with
  | last hterms => exact .last (.cons hfirst hterms)
  | cons comma hterms hrest =>
      rw [← List.append_assoc]
      exact .cons comma (.cons hfirst hterms) hrest

/-! ### First tokens

What a phrase begins with. Behind a phrase that may be empty, the tokens that follow it count. -/

open Read

/-- The kinds of the tokens that terms begin with. -/
def beginsTerm : TokenKind → Bool
  | .nilKeyword | .string | .integer | .identifier | .plus | .minus | .star | .slash | .assign => true
  | _ => false

theorem TermOf.length_pos {used : List Token} {t : Term} (h : TermOf used t) : 0 < used.length := by
  cases h <;> simp

theorem TermOf.nextIs_append {used : List Token} {t : Term} {kind : TokenKind} (h : TermOf used t)
    (hkind : beginsTerm kind = false) (rest : List Token) : nextIs kind (used ++ rest) = false := by
  cases h with
  | atom hatom => cases hatom <;> cases kind <;> first | rfl | cases hkind
  | call => cases kind <;> first | rfl | cases hkind

theorem TermsOf.nextIs_append {used rest : List Token} {ts : List Term} {kind : TokenKind}
    (h : TermsOf used ts) (hkind : beginsTerm kind = false) (hrest : nextIs kind rest = false) :
    nextIs kind (used ++ rest) = false := by
  cases h with
  | nil => exact hrest
  | cons hfirst _ =>
      rw [List.append_assoc]
      exact hfirst.nextIs_append hkind _

theorem TermsOf.nextIs_of_ne {used : List Token} {e : Expr} {kind : TokenKind} (h : TermsOf used e)
    (hne : e ≠ []) (hkind : beginsTerm kind = false) (rest : List Token) :
    nextIs kind (used ++ rest) = false := by
  cases h with
  | nil => exact absurd rfl hne
  | cons hfirst _ =>
      rw [List.append_assoc]
      exact hfirst.nextIs_append hkind _

theorem TermsOf.endsStatements_append {used : List Token} {e : Expr} (h : TermsOf used e) (hne : e ≠ [])
    (rest : List Token) : endsStatements (used ++ rest) = false := by
  rw [endsStatements, h.nextIs_of_ne hne rfl, h.nextIs_of_ne hne rfl]
  cases h with
  | nil => exact absurd rfl hne
  | cons hfirst _ => simp [List.ne_nil_of_length_pos hfirst.length_pos]

theorem ParamsOf.nextIs_append {used rest : List Token} {ps : List Expr} {kind : TokenKind}
    (h : ParamsOf used ps) (hkind : .identifier ≠ kind) (hrest : nextIs kind rest = false) :
    nextIs kind (used ++ rest) = false := by
  cases h with
  | nil => exact hrest
  | _ => exact beq_eq_false_iff_ne.mpr hkind

theorem StatementsOf.nextIs_of_ne {used : List Token} {es : List Expr} {kind : TokenKind}
    (h : StatementsOf used es) (hne : es ≠ []) (hkind : beginsTerm kind = false) (rest : List Token) :
    nextIs kind (used ++ rest) = false := by
  cases h with
  | nil => exact absurd rfl hne
  | last hterms hsome => exact hterms.nextIs_of_ne hsome hkind rest
  | line hterms hsome =>
      rw [List.append_assoc, List.append_assoc]
      exact hterms.nextIs_of_ne hsome hkind _

theorem StatementsOf.nextIs_append {used rest : List Token} {es : List Expr} {kind : TokenKind}
    (h : StatementsOf used es) (hkind : beginsTerm kind = false) (hrest : nextIs kind rest = false) :
    nextIs kind (used ++ rest) = false := by
  by_cases hne : es = []
  · cases h with
    | nil => exact hrest
    | _ => cases hne
  · exact h.nextIs_of_ne hne hkind rest

theorem Newlines.skipNewlines_append {newlines : List Token} (h : Newlines newlines) (rest : List Token) :
    skipNewlines (newlines ++ rest) = skipNewlines rest :=
  List.dropWhile_append_of_pos fun token hmem => beq_iff_eq.mpr (h token hmem)

theorem Newlines.nextIs_append {newlines : List Token} (h : Newlines newlines) (hsome : newlines ≠ [])
    (rest : List Token) : nextIs .newline (newlines ++ rest) = true := by
  cases newlines with
  | nil => exact absurd rfl hsome
  | cons token _ => exact beq_iff_eq.mpr (h token (List.mem_cons_self ..))

theorem FunctionOf.ne_nil {used : List Token} {n : Node} (h : FunctionOf used n) : used ≠ [] := by
  cases h
  exact List.cons_ne_nil _ _

theorem StatementsOf.eq_nil {tokens : List Token} (h : StatementsOf tokens []) : tokens = [] := by
  cases h
  rfl

theorem StatementsOf.endsStatements_append {used : List Token} {es : List Expr} (h : StatementsOf used es)
    (hne : es ≠ []) (rest : List Token) : endsStatements (used ++ rest) = false := by
  cases h with
  | nil => exact absurd rfl hne
  | last hterms hsome => exact hterms.endsStatements_append hsome rest
  | line hterms hsome =>
      rw [List.append_assoc, List.append_assoc]
      exact hterms.endsStatements_append hsome _

theorem StatementsOf.tokens_ne_nil {used : List Token} {es : List Expr} (h : StatementsOf used es)
    (hne : es ≠ []) : used ≠ [] := by
  rintro rfl
  cases (h.endsStatements_append hne [])

/-- No program begins with a newline. -/
theorem ProgramOf.nextIs_newline {tokens : List Token} {p : Program} (h : ProgramOf tokens p) :
    nextIs .newline tokens = false := by
  induction h with
  | nil => rfl
  | function hfirst _ _ => cases hfirst; rfl
  | statements hfirst _ _ _ ih => exact hfirst.nextIs_append rfl ih

/-- A program can stand behind statements exactly if it does not begin with statements. -/
theorem ProgramOf.endsStatements_iff {tokens : List Token} {p : Program} (h : ProgramOf tokens p) :
    endsStatements tokens = true ↔ beginsWithStatements p = false := by
  cases h with
  | nil => exact ⟨fun _ => rfl, fun _ => rfl⟩
  | function hfirst _ =>
      cases hfirst
      exact ⟨fun _ => rfl, fun _ => rfl⟩
  | statements hfirst hne _ _ =>
      rw [hfirst.endsStatements_append hne]
      exact ⟨nofun, nofun⟩

/-! ### Last tokens -/

theorem TermOf.exists_last {used : List Token} {t : Term} (h : TermOf used t) :
    ∃ init token, used = init ++ [token] ∧ token.kind ≠ .newline := by
  cases h with
  | @atom token _ hatom =>
      refine ⟨[], token, rfl, ?_⟩
      cases hatom <;> exact nofun
  | @call inside _ name opening closing _ =>
      exact ⟨⟨.identifier, name⟩ :: ⟨.openParen, opening⟩ :: inside, ⟨.closeParen, closing⟩, rfl, nofun⟩

theorem TermsOf.exists_last {used : List Token} {e : Expr} (h : TermsOf used e) (hne : e ≠ []) :
    ∃ init token, used = init ++ [token] ∧ token.kind ≠ .newline := by
  induction e generalizing used with
  | nil => exact absurd rfl hne
  | cons t ts ih =>
      cases h with
      | @cons first rest _ _ hfirst hrest =>
          cases ts with
          | nil =>
              cases hrest
              rw [List.append_nil]
              exact hfirst.exists_last
          | cons t' ts =>
              obtain ⟨init, token, rfl, hkind⟩ := ih hrest (List.cons_ne_nil t' ts)
              exact ⟨first ++ init, token, (List.append_assoc ..).symm, hkind⟩

/-- Nothing of a phrase goes on in the tokens behind it: it ends with a newline, or they begin with one or
with what ends statements. -/
def Separated (front behind : List Token) : Prop :=
  ∀ token, front.getLast? = some token → token.kind ≠ .newline →
    (nextIs .newline behind || endsStatements behind) = true

theorem Separated.of_append {front more behind : List Token} (h : Separated (front ++ more) behind) :
    Separated more behind := by
  intro token hlast hkind
  apply h token _ hkind
  rw [List.getLast?_append, hlast]
  rfl

/-- A program that can stand behind statements is apart from them, whatever comes behind it. -/
theorem Separated.of_programOf {front rest behind : List Token} {p : Program}
    (h : Separated (front ++ rest) behind) (hrest : ProgramOf rest p)
    (hbegins : beginsWithStatements p = false) : Separated front (rest ++ behind) := by
  have hends := hrest.endsStatements_iff.mpr hbegins
  cases rest with
  | nil =>
      rw [List.append_nil] at h
      exact h
  | cons token rest =>
      intro _ _ _
      have hkept : endsStatements (token :: rest ++ behind) = endsStatements (token :: rest) := rfl
      rw [hkept, hends, Bool.or_true]

theorem TermsOf.separated {used behind : List Token} {e : Expr} (h : TermsOf used e) (hne : e ≠ [])
    (hapart : Separated used behind) : (nextIs .newline behind || endsStatements behind) = true := by
  obtain ⟨init, token, rfl, hkind⟩ := h.exists_last hne
  exact hapart token List.getLast?_concat hkind

end Scriptlet.Grammar
