import Scriptlet.Proofs.Lexical
import Scriptlet.Proofs.Numerals
import Scriptlet.Proofs.Recognition
import Scriptlet.Translate

/-!
What programs are built of. A program that was read has no missing part, no empty list of statements and no
empty statement, no two lists of statements next to each other, and parameters that begin with a name. What
holds of the term of every single token holds of its terms at every depth; so in a program that comes from a
source all names are identifiers, all strings are free of quotes and newlines, and no integer is negative.
-/

namespace Scriptlet

/-- The term has the property, and so have the terms in its arguments, at every depth. -/
inductive Term.Everywhere (P : Term → Prop) : Term → Prop where
  | intro {t : Term} (here : P t)
      (inside : ∀ name args, t = .call name args → ∀ arg ∈ args, ∀ t' ∈ arg, Everywhere P t') : Everywhere P t

/-- A parameter: a name, or a name, an equals sign and the terms of a default value. -/
def Expr.IsParam (e : Expr) : Prop := ∃ name, e = [.var name] ∨ ∃ value, e = .var name :: .assign :: value

/-- A statement with at least one term, all of them with the property. -/
def Expr.IsStatement (P : Term → Prop) (e : Expr) : Prop := e ≠ [] ∧ ∀ t ∈ e, t.Everywhere P

/-- A node with nothing missing or empty in it. What is said of terms is said of a function as of the call
of its name with its parameters. -/
inductive Node.Built (P : Term → Prop) : Node → Prop where
  | function {name : Bytes} {params body : List Expr} (header : (Term.call name params).Everywhere P)
      (hparams : ∀ e ∈ params, e.IsParam) (hbody : ∀ e ∈ body, e.IsStatement P) :
      Built P (.function name params (some body))
  | statements {es : List Expr} (hne : es ≠ []) (hes : ∀ e ∈ es, e.IsStatement P) : Built P (.statements es)

/-- A program of such nodes, without two lists of statements next to each other. -/
inductive Program.Built (P : Term → Prop) : Program → Prop where
  | nil : Built P []
  | cons {n : Node} {p : Program} (hn : n.Built P) (hp : Built P p)
      (hapart : Grammar.beginsWithStatements [n] = true → Grammar.beginsWithStatements p = false) :
      Built P (n :: p)

section
variable {P Q : Term → Prop} (himp : ∀ t, P t → Q t)
include himp

theorem Term.Everywhere.mono {t : Term} (h : t.Everywhere P) : t.Everywhere Q := by
  induction h with
  | intro here inside ih => exact .intro (himp _ here) ih

theorem Expr.IsStatement.mono {e : Expr} (h : e.IsStatement P) : e.IsStatement Q :=
  ⟨h.1, fun t ht => (h.2 t ht).mono himp⟩

theorem Node.Built.mono {n : Node} (h : n.Built P) : n.Built Q := by
  cases h with
  | function header hparams hbody =>
      exact .function (header.mono himp) hparams fun e he => (hbody e he).mono himp
  | statements hne hes => exact .statements hne fun e he => (hes e he).mono himp

theorem Program.Built.mono {p : Program} (h : p.Built P) : p.Built Q := by
  induction h with
  | nil => exact .nil
  | cons hn _ hapart ih => exact .cons (hn.mono himp) ih hapart

end

/-- The property of the term of a single token, and of every call by its name if it is a name. -/
def Token.Gives (P : Term → Prop) (token : Token) : Prop :=
  (∀ t, Grammar.AtomOf token t → P t) ∧ (token.kind = .identifier → ∀ args, P (.call token.value args))

namespace Grammar

variable {P : Term → Prop}

theorem AtomOf.everywhere {token : Token} {t : Term} (h : AtomOf token t) (hgives : token.Gives P) :
    t.Everywhere P := by
  refine .intro (hgives.1 t h) ?_
  rintro name args rfl
  cases h

theorem forall_mem_argsOfPieces {pieces : List Expr} {Q : Expr → Prop} (h : ∀ e ∈ pieces, Q e) :
    ∀ e ∈ argsOfPieces pieces, Q e := by
  intro e he
  unfold argsOfPieces at he
  split at he
  · exact h e ((List.dropLast_sublist _).subset he)
  · exact h e he

mutual

theorem TermOf.everywhere : ∀ {used : List Token} {t : Term}, TermOf used t →
    (∀ token ∈ used, token.Gives P) → t.Everywhere P
  | _, _, .atom hatom, hgives => hatom.everywhere (hgives _ (by simp))
  | _, _, .call name opening closing hinside, hgives => by
      refine .intro ((hgives ⟨.identifier, name⟩ (by simp)).2 rfl _) ?_
      rintro _ _ ⟨⟩
      apply forall_mem_argsOfPieces
      exact hinside.everywhere fun token hmem => hgives token (by simp [hmem])

theorem TermsOf.everywhere : ∀ {used : List Token} {ts : List Term}, TermsOf used ts →
    (∀ token ∈ used, token.Gives P) → ∀ t ∈ ts, t.Everywhere P
  | _, _, .nil, _ => nofun
  | _, _, .cons hfirst hrest, hgives => by
      rw [List.forall_mem_append] at hgives
      exact List.forall_mem_cons.mpr ⟨hfirst.everywhere hgives.1, hrest.everywhere hgives.2⟩

theorem PiecesOf.everywhere : ∀ {used : List Token} {pieces : List Expr}, PiecesOf used pieces →
    (∀ token ∈ used, token.Gives P) → ∀ piece ∈ pieces, ∀ t ∈ piece, t.Everywhere P
  | _, _, .last hterms, hgives => List.forall_mem_singleton.mpr (hterms.everywhere hgives)
  | _, _, .cons comma hfirst hrest, hgives => by
      rw [List.forall_mem_append, List.forall_mem_cons] at hgives
      exact List.forall_mem_cons.mpr ⟨hfirst.everywhere hgives.1, hrest.everywhere hgives.2.2⟩

end

theorem ParamsOf.isParam {used : List Token} {ps : List Expr} (h : ParamsOf used ps) :
    ∀ e ∈ ps, e.IsParam := by
  induction h with
  | nil => exact nofun
  | bare name _ ih => exact List.forall_mem_cons.mpr ⟨⟨name, .inl rfl⟩, ih⟩
  | bareComma name _ _ ih => exact List.forall_mem_cons.mpr ⟨⟨name, .inl rfl⟩, ih⟩
  | valued name _ _ _ _ ih => exact List.forall_mem_cons.mpr ⟨⟨name, .inr ⟨_, rfl⟩⟩, ih⟩
  | valuedLast name _ _ => exact List.forall_mem_singleton.mpr ⟨name, .inr ⟨_, rfl⟩⟩

theorem ParamsOf.everywhere {used : List Token} {ps : List Expr} (h : ParamsOf used ps)
    (hgives : ∀ token ∈ used, token.Gives P) : ∀ e ∈ ps, ∀ t ∈ e, t.Everywhere P := by
  have hvar : ∀ {name : Bytes}, (⟨.identifier, name⟩ : Token).Gives P → (Term.var name).Everywhere P :=
    fun hname => (AtomOf.var _).everywhere hname
  have hassign : ∀ {equals : Bytes}, (⟨.assign, equals⟩ : Token).Gives P → Term.assign.Everywhere P :=
    fun hequals => (AtomOf.assign _).everywhere hequals
  induction h with
  | nil => exact nofun
  | bare name _ ih =>
      rw [List.forall_mem_cons] at hgives
      exact List.forall_mem_cons.mpr ⟨List.forall_mem_singleton.mpr (hvar hgives.1), ih hgives.2⟩
  | bareComma name comma _ ih =>
      rw [List.forall_mem_cons, List.forall_mem_cons] at hgives
      exact List.forall_mem_cons.mpr ⟨List.forall_mem_singleton.mpr (hvar hgives.1), ih hgives.2.2⟩
  | valued name equals comma hvalue _ ih =>
      simp only [List.forall_mem_cons, List.forall_mem_append] at hgives
      obtain ⟨hname, hequals, hterms, -, hrest⟩ := hgives
      refine List.forall_mem_cons.mpr ⟨?_, ih hrest⟩
      simp only [List.forall_mem_cons]
      exact ⟨hvar hname, hassign hequals, hvalue.everywhere hterms⟩
  | valuedLast name equals hvalue =>
      simp only [List.forall_mem_cons] at hgives
      obtain ⟨hname, hequals, hterms⟩ := hgives
      rw [List.forall_mem_singleton]
      simp only [List.forall_mem_cons]
      exact ⟨hvar hname, hassign hequals, hvalue.everywhere hterms⟩

theorem StatementsOf.isStatement {used : List Token} {es : List Expr} (h : StatementsOf used es)
    (hgives : ∀ token ∈ used, token.Gives P) : ∀ e ∈ es, e.IsStatement P := by
  induction h with
  | nil => exact nofun
  | last hterms hne => exact List.forall_mem_singleton.mpr ⟨hne, hterms.everywhere hgives⟩
  | line hterms hne _ _ _ ih =>
      simp only [List.forall_mem_append] at hgives
      exact List.forall_mem_cons.mpr ⟨⟨hne, hterms.everywhere hgives.1.1⟩, ih hgives.2⟩

theorem FunctionOf.built {used : List Token} {n : Node} (h : FunctionOf used n)
    (hgives : ∀ token ∈ used, token.Gives P) : n.Built P := by
  cases h with
  | intro opening name closing hparams hbefore hbody hafter =>
      simp only [List.forall_mem_cons, List.forall_mem_append] at hgives
      obtain ⟨-, hname, ⟨⟨hps, -⟩, hes⟩, -, -⟩ := hgives
      refine .function (.intro (hname.2 rfl _) ?_) ?_ (hbody.isStatement hes)
      · rintro _ _ ⟨⟩
        cases hparams with
        | absent => exact nofun
        | present _ _ hinside =>
            simp only [List.forall_mem_cons, List.forall_mem_append] at hps
            exact hinside.everywhere hps.2.1
      · cases hparams with
        | absent => exact nofun
        | present _ _ hinside => exact hinside.isParam

theorem ProgramOf.built {tokens : List Token} {p : Program} (h : ProgramOf tokens p)
    (hgives : ∀ token ∈ tokens, token.Gives P) : p.Built P := by
  induction h with
  | nil => exact .nil
  | function hfirst _ ih =>
      rw [List.forall_mem_append] at hgives
      refine .cons (hfirst.built hgives.1) (ih hgives.2) ?_
      cases hfirst
      exact nofun
  | statements hfirst hne _ hapart ih =>
      rw [List.forall_mem_append] at hgives
      exact .cons (.statements hne (hfirst.isStatement hgives.1)) (ih hgives.2) fun _ => hapart

end Grammar

/-! ### Programs from tokens -/

/-- What a term that was read is like, its arguments aside: it is not missing, and a string has no quote in
it. -/
def Term.IsWhole : Term → Prop
  | .str value => ∀ b ∈ value, b ≠ Ascii.singleQuote ∧ b ≠ Ascii.doubleQuote
  | .missing => False
  | _ => True

theorem Token.gives_isWhole (token : Token) : token.Gives Term.IsWhole := by
  refine ⟨?_, fun _ _ => trivial⟩
  intro t hatom
  cases hatom with
  | str value =>
      intro b hb
      exact of_decide_eq_true (List.mem_filter.mp hb).2
  | _ => trivial

/-! ### Programs from sources -/

/-- A letter or an underscore, and then letters, digits and underscores; but no keyword. -/
def IsIdentifier (name : Bytes) : Prop :=
  name ∉ [text "def", text "end", text "nil"] ∧
    ∃ b tail, name = b :: tail ∧ Ascii.isWordStart b = true ∧ ∀ c ∈ tail, Ascii.isWord c = true

/-- What a term of a source is like, its arguments aside: names are identifiers, strings have no quote and
no newline in them, and integers are not negative. -/
def Term.IsSourced : Term → Prop
  | .str value => ∀ b ∈ value, b ≠ Ascii.singleQuote ∧ b ≠ Ascii.doubleQuote ∧ b ≠ Ascii.newline
  | .int n => 0 ≤ n.toInt
  | .var name | .call name _ => (⟨.identifier, name⟩ : Token).IsLexeme
  | .missing => False
  | _ => True

theorem Term.IsSourced.isWhole {t : Term} (h : t.IsSourced) : t.IsWhole := by
  cases t with
  | str value => exact fun b hb => ⟨(h b hb).1, (h b hb).2.1⟩
  | missing => exact h
  | _ => trivial

namespace Token

theorem Written.isLexeme {source : Bytes} {tokens : List Token} (h : Written source tokens) :
    ∀ token ∈ tokens, token.IsLexeme := by
  induction h with
  | nil => exact nofun
  | cons _ hlexeme _ _ ih => exact List.forall_mem_cons.mpr ⟨hlexeme, ih⟩

theorem IsLexeme.digits {value : Bytes} (h : (⟨.integer, value⟩ : Token).IsLexeme) :
    ∀ b ∈ value, Ascii.isDigit b = true := by
  generalize htoken : (⟨.integer, value⟩ : Token) = token at h
  cases h with
  | keyword hword =>
      obtain ⟨rfl, rfl⟩ := Token.mk.inj htoken
      have hall : ∀ entry ∈ keywords, entry.2 ≠ .integer := by decide
      exact absurd rfl (hall _ hword)
  | integer _ hdigits =>
      obtain ⟨-, rfl⟩ := Token.mk.inj htoken
      exact hdigits
  | symbol hsymbol =>
      obtain ⟨rfl, rfl⟩ := Token.mk.inj htoken
      have hall : ∀ entry ∈ symbols, entry.2 ≠ .integer := by decide
      exact absurd rfl (hall _ hsymbol)
  | _ => cases htoken

theorem IsLexeme.isIdentifier {name : Bytes} (h : (⟨.identifier, name⟩ : Token).IsLexeme) :
    IsIdentifier name := by
  generalize htoken : (⟨.identifier, name⟩ : Token) = token at h
  cases h with
  | keyword hword =>
      obtain ⟨rfl, rfl⟩ := Token.mk.inj htoken
      have hall : ∀ entry ∈ keywords, entry.2 ≠ .identifier := by decide
      exact absurd rfl (hall _ hword)
  | @name b tail hfirst htail hkeyword =>
      obtain ⟨-, rfl⟩ := Token.mk.inj htoken
      refine ⟨?_, b, tail, rfl, hfirst, htail⟩
      intro hmem
      have hwords : keywords.map Prod.fst = [text "def", text "end", text "nil"] := rfl
      rw [← hwords, List.mem_map] at hmem
      obtain ⟨⟨word, kind⟩, hword, rfl⟩ := hmem
      exact hkeyword kind hword
  | symbol hsymbol =>
      obtain ⟨rfl, rfl⟩ := Token.mk.inj htoken
      have hall : ∀ entry ∈ symbols, entry.2 ≠ .identifier := by decide
      exact absurd rfl (hall _ hsymbol)
  | _ => cases htoken

theorem isLexeme_of_isIdentifier {name : Bytes} (h : IsIdentifier name) :
    (⟨.identifier, name⟩ : Token).IsLexeme := by
  obtain ⟨hkeyword, b, tail, rfl, hfirst, htail⟩ := h
  refine .name hfirst htail fun kind hmem => hkeyword ?_
  have hall : ∀ entry ∈ keywords, entry.1 ∈ [text "def", text "end", text "nil"] := by decide
  exact hall _ hmem

/-- A literal without a sign stands for no negative number. -/
theorem nonneg_of_digits {value : Bytes} (hdigits : ∀ b ∈ value, Ascii.isDigit b = true) {v : Int}
    (h : Decimal.toInt? value = some v) : 0 ≤ v := by
  rw [Decimal.toInt?, Decimal.splitSign_digits hdigits] at h
  simp only at h
  split at h
  · cases h
    exact Int.natCast_nonneg _
  · cases h

theorem IsLexeme.newline_not_mem {value : Bytes} (h : (⟨.string, value⟩ : Token).IsLexeme) :
    Ascii.newline ∉ value := by
  intro hmem
  cases h.eq_lineEnd (Or.inl hmem)

theorem IsLexeme.gives {token : Token} (h : token.IsLexeme) : token.Gives Term.IsSourced := by
  constructor
  · intro t hatom
    cases hatom with
    | str value =>
        intro b hb
        rw [List.mem_filter] at hb
        obtain ⟨hmem, hquotes⟩ := hb
        simp only [decide_eq_true_eq] at hquotes
        exact ⟨hquotes.1, hquotes.2, fun heq => h.newline_not_mem (heq ▸ hmem)⟩
    | int hvalue => exact nonneg_of_digits h.digits hvalue
    | var name => exact h
    | _ => trivial
  · intro hkind args
    obtain ⟨_, name⟩ := token
    cases hkind
    exact h

end Token

/-- Programs from sources are built of what sources spell. -/
theorem readProgram_built {source : Bytes} {p : Program} (h : readProgram source = .ok p) :
    p.Built Term.IsSourced := by
  obtain ⟨tokens, htokens, hparse⟩ := readProgram_eq_ok_iff.mp h
  have hwritten := Token.written_of_scan (scan_of_tokenize htokens)
  exact (Read.parse_sound hparse).built fun token hmem => (hwritten.isLexeme token hmem).gives

/-! ### Nothing is missing -/

theorem Expr.isComplete_iff (e : Expr) : Expr.isComplete e = true ↔ ∀ t ∈ e, t.isComplete = true := by
  induction e with
  | nil => exact iff_of_true rfl (List.forall_mem_nil _)
  | cons t ts ih => rw [Expr.isComplete, Bool.and_eq_true, ih, List.forall_mem_cons]

theorem Expr.areComplete_iff (es : List Expr) :
    Expr.areComplete es = true ↔ ∀ e ∈ es, ∀ t ∈ e, t.isComplete = true := by
  induction es with
  | nil => exact iff_of_true rfl (List.forall_mem_nil _)
  | cons e es ih => rw [Expr.areComplete, Bool.and_eq_true, Expr.isComplete_iff, ih, List.forall_mem_cons]

theorem Term.Everywhere.isComplete {t : Term} (h : t.Everywhere Term.IsWhole) : t.isComplete = true := by
  induction h with
  | @intro t here inside ih =>
      cases t with
      | call name args => exact (Expr.areComplete_iff args).mpr (ih name args rfl)
      | missing => exact here.elim
      | _ => rfl

theorem Node.Built.isComplete {n : Node} (h : n.Built Term.IsWhole) : n.isComplete = true := by
  have hstatements : ∀ {es : List Expr}, (∀ e ∈ es, e.IsStatement Term.IsWhole) →
      Expr.areComplete es = true :=
    fun hes => (Expr.areComplete_iff _).mpr fun e he t ht => ((hes e he).2 t ht).isComplete
  cases h with
  | function header _ hbody => exact Bool.and_eq_true_iff.mpr ⟨header.isComplete, hstatements hbody⟩
  | statements _ hes => exact hstatements hes

/-- A program that was read has a text. -/
theorem Program.generate_eq_of_isWhole {p : Program} (h : p.Built Term.IsWhole) :
    p.generate = .ok p.render := by
  have hcomplete : p.isComplete = true := by
    induction h with
    | nil => rfl
    | cons hn _ _ ih => exact Bool.and_eq_true_iff.mpr ⟨hn.isComplete, ih⟩
  rw [Program.generate, if_pos hcomplete]

theorem Program.Built.generate_eq {p : Program} (h : p.Built Term.IsSourced) : p.generate = .ok p.render :=
  Program.generate_eq_of_isWhole (h.mono fun _ => Term.IsSourced.isWhole)

end Scriptlet
