import Scriptlet.Proofs.Spelling

/-!
Script text as a source. The text of an expression is itself a source, of one statement: single spaces stand
between its terms, strings have quotes around them, and integers are digits. Read back, the statement is the
one that was written, except that the text spells nil as the name `null`, and that a comma with nothing behind
it ends the arguments of a call, so that an empty last argument is lost.
-/

namespace Scriptlet

open Grammar Token

mutual

/-- The term that its text is read back as: nil is the name `null`, and a call has no empty last argument, at
every depth. -/
def Term.readBack : Term → Term
  | .nil => .var (text "null")
  | .call name args => .call name (argsOfPieces (Expr.readBackEach args))
  | t => t

def Expr.readBack : List Term → List Term
  | [] => []
  | term :: terms => term.readBack :: Expr.readBack terms

def Expr.readBackEach : List (List Term) → List (List Term)
  | [] => []
  | expr :: exprs => Expr.readBack expr :: Expr.readBackEach exprs

end

/-- The statements of a node. -/
def Node.statementsIn : Node → List Expr
  | .function _ _ body => body.getD []
  | .statements exprs => exprs
  | .missing => []

theorem Node.Built.isStatement {P : Term → Prop} {n : Node} (h : n.Built P) :
    ∀ e ∈ n.statementsIn, e.IsStatement P := by
  cases h with
  | function _ _ hbody => exact hbody
  | statements _ hes => exact hes

theorem Program.Built.built_of_mem {P : Term → Prop} {p : Program} (h : p.Built P) : ∀ n ∈ p, n.Built P := by
  induction h with
  | nil => exact List.forall_mem_nil _
  | cons hn _ _ ih => exact List.forall_mem_cons.mpr ⟨hn, ih⟩

/-! ### Scanning the text of an expression -/

/-- The text of the term, in front of one that stops it, is written with tokens of the term that is read back,
in front of those of the other. -/
def Term.ReadsBack (t : Term) : Prop :=
  ∀ {tail : Bytes} {tokens : List Token}, Stops tail → Written tail tokens →
    ∃ used, TermOf used t.readBack ∧ Written (t.renderOnto tail) (used ++ tokens)

section
variable {tail : Bytes} {tokens : List Token} (hstops : Stops tail) (htail : Written tail tokens)
include hstops htail

theorem Expr.readsBack {e : Expr} (h : ∀ t ∈ e, t.ReadsBack) :
    ∃ used, TermsOf used (Expr.readBack e) ∧ Written (Expr.renderOnto e tail) (used ++ tokens) := by
  induction e with
  | nil => exact ⟨[], .nil, htail⟩
  | cons t ts ih =>
      rw [List.forall_mem_cons] at h
      obtain ⟨more, hmore, hwritten⟩ := ih h.2
      have hbehind : Written (behindFirst ts tail) (more ++ tokens) := by
        unfold behindFirst
        split
        case isTrue hempty =>
          rw [List.isEmpty_iff.mp hempty] at hwritten
          exact hwritten
        case isFalse => exact hwritten.space
      obtain ⟨used, hused, hfirst⟩ := h.1 (behindFirst_stops hstops ts) hbehind
      rw [← List.append_assoc] at hfirst
      exact ⟨used ++ more, .cons hused hmore, hfirst⟩

/-- The commas between arguments are those between the pieces that are read. -/
theorem Expr.piecesReadBack {args : List Expr} (hne : args ≠ []) (h : ∀ arg ∈ args, ∀ t ∈ arg, t.ReadsBack) :
    ∃ used, PiecesOf used (Expr.readBackEach args) ∧
      Written (Expr.renderEachOnto args tail) (used ++ tokens) := by
  induction args with
  | nil => exact absurd rfl hne
  | cons arg args ih =>
      rw [List.forall_mem_cons] at h
      cases args with
      | nil =>
          obtain ⟨used, hused, hwritten⟩ := Expr.readsBack hstops htail h.1
          exact ⟨used, .last hused, hwritten⟩
      | cons next args =>
          obtain ⟨more, hmore, hwritten⟩ := ih (List.cons_ne_nil next args) h.2
          -- the comma ends the first piece, and the space behind it belongs to none
          have hcomma := Written.token isLexeme_comma (fun h => by cases h) hwritten.space
          obtain ⟨used, hused, hfirst⟩ := Expr.readsBack (.cons (by decide) _) hcomma h.1
          refine ⟨used ++ comma :: more, .cons _ hused hmore, ?_⟩
          rw [List.append_assoc]
          exact hfirst

/-- What stands between the parentheses of a call is read as its arguments, or as a single empty piece if
there are none. -/
theorem Expr.argsReadBack {args : List Expr} (h : ∀ arg ∈ args, ∀ t ∈ arg, t.ReadsBack) :
    ∃ used pieces, PiecesOf used pieces ∧ argsOfPieces pieces = argsOfPieces (Expr.readBackEach args) ∧
      Written (Expr.renderEachOnto args tail) (used ++ tokens) := by
  by_cases hne : args = []
  · subst hne
    exact ⟨[], [[]], .last .nil, rfl, htail⟩
  · obtain ⟨used, hused, hwritten⟩ := Expr.piecesReadBack hstops htail hne h
    exact ⟨used, _, hused, rfl, hwritten⟩

end

theorem Term.IsSourced.written {t : Term} (h : t.IsSourced) {tail : Bytes} (hstops : Stops tail)
    {tokens : List Token} (hbehind : Written (t.behindToken tail) tokens) :
    Written (t.renderOnto tail) (t.token :: tokens) := by
  rw [t.renderOnto_eq_token]
  exact .token (Term.isLexeme_token h) (Term.endsBefore hstops) hbehind

theorem Term.Everywhere.readsBack {t : Term} (h : t.Everywhere Term.IsSourced) : t.ReadsBack := by
  induction h with
  | @intro t here inside ih =>
      intro tail tokens hstops htail
      cases t with
      | call name args =>
          -- from the closing parenthesis to the front, since a text is scanned onto what stands behind it
          have hclosing := Written.token isLexeme_closing (fun h => by cases h) htail
          obtain ⟨used, pieces, hused, hpieces, hargs⟩ :=
            Expr.argsReadBack (.cons (by decide) _) hclosing (ih name args rfl)
          have hcall := TermOf.call name opening.value closing.value hused
          have hopening := Written.token isLexeme_opening (fun h => by cases h) hargs
          rw [hpieces] at hcall
          refine ⟨_, hcall, ?_⟩
          rw [List.cons_append, List.cons_append, List.append_assoc]
          exact here.written hstops hopening
      | nil => exact ⟨_, .atom (.var _), here.written hstops htail⟩
      | missing => exact here.elim
      | _ =>
          have hatom := Term.atomOf_token here.isWhole (fun h => by cases h) fun _ _ h => by cases h
          exact ⟨_, .atom hatom, here.written hstops htail⟩

/-! ### Reading it back -/

/-- A statement of a program that comes from a source, as text, is a source of one statement: the one that was
written, up to the spelling of nil and empty last arguments. -/
theorem readProgram_render_statement {source : Bytes} {p : Program} (hp : readProgram source = .ok p)
    {n : Node} (hn : n ∈ p) {e : Expr} (he : e ∈ n.statementsIn) :
    readProgram e.render = .ok [.statements [Expr.readBack e]] := by
  obtain ⟨hne, hterms⟩ := ((readProgram_built hp).built_of_mem n hn).isStatement e he
  obtain ⟨used, hused, hwritten⟩ :=
    Expr.readsBack (fun _ h => by cases h) (.nil .nil) fun t ht => (hterms t ht).readsBack
  have hsome : Expr.readBack e ≠ [] := by
    obtain ⟨t, ts, rfl⟩ := List.exists_cons_of_ne_nil hne
    exact List.cons_ne_nil _ _
  have hprogram := ProgramOf.statements (.last hused hsome) (List.cons_ne_nil _ _) .nil rfl
  have htokenize : tokenize e.render = .ok (used ++ []) := hwritten.trimSource.scan
  simp only [readProgram, htokenize, Read.parse_complete hprogram]

theorem readProgram_render_statement_call :
    let e : Expr := [.call (text "g") [[.nil], []], .str (text "its"), .int 7]
    let back : Expr := [.call (text "g") [[.var (text "null")]], .str (text "its"), .int 7]
    readProgram (text "def f()\ng(nil,,) \"it's\" 007\nend") = .ok [.function (text "f") [] (some [e])] ∧
      e.render = text "g(null, ) 'its' 7" ∧ readProgram e.render = .ok [.statements [back]] := by
  intro e back
  have hread : readProgram (text "def f()\ng(nil,,) \"it's\" 007\nend") =
      .ok [.function (text "f") [] (some [e])] := by with_unfolding_all rfl
  exact ⟨hread, by with_unfolding_all rfl,
    readProgram_render_statement hread (List.mem_cons_self ..) (List.mem_cons_self ..)⟩

end Scriptlet
