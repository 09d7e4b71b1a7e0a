import Scriptlet.Proofs.Built
import Scriptlet.Proofs.Concatenation

/-!
Valid text stays valid. Tokens end with an ASCII byte, blanks are whole characters and quotes are ASCII bytes,
so a valid source is never cut inside a character: its tokens are valid, what is left where scanning stops is
valid, and so are the names and strings of its program. A program whose names and strings are valid, wherever it
comes from, has a valid script text.
-/

namespace Scriptlet

/-! ### The names and strings of a program -/

mutual

/-- The names and strings in a term, at every depth. -/
def Term.texts : Term → List Bytes
  | .str value => [value]
  | .var name => [name]
  | .call name args => name :: Expr.textsEach args
  | _ => []

def Expr.texts : List Term → List Bytes
  | [] => []
  | t :: ts => t.texts ++ Expr.texts ts

def Expr.textsEach : List (List Term) → List Bytes
  | [] => []
  | e :: es => Expr.texts e ++ Expr.textsEach es

end

/-- The names and strings in a node, that of a function among them. -/
def Node.texts : Node → List Bytes
  | .function name params body => name :: (Expr.textsEach params ++ Expr.textsEach (body.getD []))
  | .statements exprs => Expr.textsEach exprs
  | .missing => []

def Program.texts (p : Program) : List Bytes := p.flatMap Node.texts

section
variable {Q : Bytes → Prop}

theorem Expr.forall_mem_texts {e : Expr} (h : ∀ t ∈ e, ∀ s ∈ t.texts, Q s) : ∀ s ∈ Expr.texts e, Q s := by
  induction e with
  | nil => exact List.forall_mem_nil _
  | cons t ts ih =>
      rw [List.forall_mem_cons] at h
      exact List.forall_mem_append.mpr ⟨h.1, ih h.2⟩

theorem Expr.forall_mem_textsEach {es : List Expr} (h : ∀ e ∈ es, ∀ t ∈ e, ∀ s ∈ t.texts, Q s) :
    ∀ s ∈ Expr.textsEach es, Q s := by
  induction es with
  | nil => exact List.forall_mem_nil _
  | cons e es ih =>
      rw [List.forall_mem_cons] at h
      exact List.forall_mem_append.mpr ⟨Expr.forall_mem_texts h.1, ih h.2⟩

/-- The name or the string of the term itself, if it has one, has the property. -/
def Term.OwnText (Q : Bytes → Prop) : Term → Prop
  | .str value => Q value
  | .var name | .call name _ => Q name
  | _ => True

theorem Term.Everywhere.forall_mem_texts {t : Term} (h : t.Everywhere (Term.OwnText Q)) : ∀ s ∈ t.texts, Q s := by
  induction h with
  | @intro t here inside ih =>
      cases t with
      | str value => exact List.forall_mem_singleton.mpr here
      | var name => exact List.forall_mem_singleton.mpr here
      | call name args =>
          exact List.forall_mem_cons.mpr ⟨here, Expr.forall_mem_textsEach (ih name args rfl)⟩
      | _ => exact List.forall_mem_nil _

theorem Node.Built.forall_mem_texts {n : Node} (h : n.Built (Term.OwnText Q)) : ∀ s ∈ n.texts, Q s := by
  have hstatements : ∀ {es : List Expr}, (∀ e ∈ es, e.IsStatement (Term.OwnText Q)) →
      ∀ s ∈ Expr.textsEach es, Q s :=
    fun hes => Expr.forall_mem_textsEach fun e he t ht => ((hes e he).2 t ht).forall_mem_texts
  cases h with
  | function header _ hbody =>
      obtain ⟨hname, hparams⟩ := List.forall_mem_cons.mp header.forall_mem_texts
      exact List.forall_mem_cons.mpr ⟨hname, List.forall_mem_append.mpr ⟨hparams, hstatements hbody⟩⟩
  | statements _ hes => exact hstatements hes

theorem Program.Built.forall_mem_texts {p : Program} (h : p.Built (Term.OwnText Q)) : ∀ s ∈ p.texts, Q s := by
  induction h with
  | nil => exact List.forall_mem_nil _
  | cons hn _ _ ih =>
      rw [Program.texts, List.flatMap_cons]
      exact List.forall_mem_append.mpr ⟨hn.forall_mem_texts, ih⟩

end

/-! ### From valid text to a program -/

namespace Token
open Ascii

/-- A token ends with an ASCII byte, so cutting a text behind it cuts no character. -/
theorem IsLexeme.isUtf8_append {token : Token} (h : token.IsLexeme) (rest : Bytes) :
    (token.value ++ rest).isUtf8 = (token.value.isUtf8 && rest.isUtf8) := by
  obtain ⟨init, b, hvalue, hb, -⟩ := h.last
  rw [hvalue, List.append_assoc, List.singleton_append, Bytes.isUtf8_append_ascii hb,
    Bytes.isUtf8_append_ascii hb]
  have hnil : Bytes.isUtf8 [] = true := rfl
  rw [hnil, Bool.and_true]

theorem isUtf8_of_scan {s : Bytes} (hs : s.isUtf8 = true) :
    (∀ tokens, scan 0 s = .ok tokens → ∀ token ∈ tokens, token.value.isUtf8 = true) ∧
      ∀ e, scan 0 s = .error e → e.remainder.isUtf8 = true := by
  induction s using scan_induction with
  | nil =>
      refine ⟨fun tokens h => ?_, fun e h => ?_⟩
      · cases h
        exact List.forall_mem_nil _
      · cases h
  | blank c rest hc ih =>
      rw [Bytes.isUtf8_encodeChar_append] at hs
      rw [scan_blank hc]
      exact ih hs
  | token t rest hlexeme hends ih =>
      rw [hlexeme.isUtf8_append, Bool.and_eq_true] at hs
      obtain ⟨hok, herror⟩ := ih hs.2
      rw [scan_token hlexeme hends]
      refine ⟨fun tokens h => ?_, fun e h => ?_⟩
      · obtain ⟨more, hmore, rfl⟩ := exists_of_map_eq_ok h
        exact List.forall_mem_cons.mpr ⟨hs.1, hok more hmore⟩
      · apply herror
        cases hscan : scan 0 rest with
        | ok more =>
            rw [hscan] at h
            cases h
        | error e' =>
            rw [hscan] at h
            exact h
  | stuck s hne hblank htoken =>
      rw [scan_stuck hne hblank htoken]
      refine ⟨fun tokens h => ?_, fun e h => ?_⟩
      · cases h
      · cases h
        exact hs

theorem gives_isUtf8 {token : Token} (h : token.value.isUtf8 = true) :
    token.Gives (Term.OwnText (·.isUtf8 = true)) := by
  constructor
  · intro t hatom
    cases hatom with
    | str value =>
        apply Bytes.isUtf8_filter ?_ h
        intro b hb
        have hquotes : b ≠ singleQuote ∧ b ≠ doubleQuote := by
          constructor
          · rintro rfl
            exact absurd hb (by decide)
          · rintro rfl
            exact absurd hb (by decide)
        exact decide_eq_true hquotes
    | var name => exact h
    | _ => trivial
  · intro _ args
    exact h

end Token

theorem isUtf8_of_parse {tokens : List Token} (htokens : ∀ token ∈ tokens, token.value.isUtf8 = true)
    {p : Program} (h : parse tokens = .ok p) : ∀ s ∈ p.texts, s.isUtf8 = true :=
  ((Read.parse_sound h).built fun token hmem => Token.gives_isUtf8 (htokens token hmem)).forall_mem_texts

/-! ### From a program to valid text -/

theorem Decimal.isUtf8_ofInt_append (v : Int) (tail : Bytes) : (ofInt v ++ tail).isUtf8 = tail.isUtf8 := by
  have hdigits : ∀ n, ∀ b ∈ ofNat n, b.toNat < 128 := by
    intro n b hb
    have hword := Token.isWord_byte (b := b) (by rw [Ascii.isWord, isDigit_of_mem_ofNat b hb, Bool.or_true])
    exact hword.1
  apply Bytes.isUtf8_ascii_append
  cases v with
  | ofNat n => exact hdigits n
  | negSucc n => exact List.forall_mem_cons.mpr ⟨by decide, hdigits (n + 1)⟩

mutual

theorem Term.isUtf8_renderOnto (t : Term) (h : ∀ s ∈ t.texts, s.isUtf8 = true) (tail : Bytes) :
    (t.renderOnto tail).isUtf8 = tail.isUtf8 := by
  cases t with
  | nil => exact Bytes.isUtf8_append (by decide)
  | str value =>
      rw [Term.renderOnto, Bytes.isUtf8_cons (by decide), Bytes.isUtf8_append (h value (by simp [Term.texts])),
        Bytes.isUtf8_cons (by decide)]
  | int value => exact Decimal.isUtf8_ofInt_append value.toInt tail
  | var name => exact Bytes.isUtf8_append (h name (by simp [Term.texts]))
  | call name args =>
      rw [Term.texts, List.forall_mem_cons] at h
      rw [Term.renderOnto, Bytes.isUtf8_append h.1, Bytes.isUtf8_cons (by decide),
        Expr.isUtf8_renderEachOnto args h.2, Bytes.isUtf8_cons (by decide)]
  | missing => rfl
  | _ => exact Bytes.isUtf8_cons (by decide) tail

theorem Expr.isUtf8_renderOnto (e : List Term) (h : ∀ s ∈ Expr.texts e, s.isUtf8 = true) (tail : Bytes) :
    (Expr.renderOnto e tail).isUtf8 = tail.isUtf8 := by
  cases e with
  | nil => rfl
  | cons t ts =>
      rw [Expr.texts, List.forall_mem_append] at h
      rw [Expr.renderOnto, Term.isUtf8_renderOnto t h.1]
      split
      · rfl
      · rw [Bytes.isUtf8_cons (by decide), Expr.isUtf8_renderOnto ts h.2]

theorem Expr.isUtf8_renderEachOnto (es : List (List Term)) (h : ∀ s ∈ Expr.textsEach es, s.isUtf8 = true)
    (tail : Bytes) : (Expr.renderEachOnto es tail).isUtf8 = tail.isUtf8 := by
  cases es with
  | nil => rfl
  | cons e es =>
      rw [Expr.textsEach, List.forall_mem_append] at h
      rw [Expr.renderEachOnto, Expr.isUtf8_renderOnto e h.1]
      split
      · rfl
      · rw [Bytes.isUtf8_cons (by decide), Bytes.isUtf8_cons (by decide), Expr.isUtf8_renderEachOnto es h.2]

end

theorem Expr.isUtf8_renderStatement {e : Expr} (h : ∀ s ∈ Expr.texts e, s.isUtf8 = true) :
    e.renderStatement.isUtf8 = true := by
  rw [Expr.renderStatement, ← Expr.renderOnto_eq, Expr.isUtf8_renderOnto e h]
  decide

theorem Expr.isUtf8_renderLast {e : Expr} (h : ∀ s ∈ Expr.texts e, s.isUtf8 = true) :
    e.renderLast.isUtf8 = true := by
  rw [Expr.renderLast]
  split
  · exact Expr.isUtf8_renderStatement h
  · rw [Bytes.isUtf8_append (by decide)]
    exact Expr.isUtf8_renderStatement h

theorem Node.isUtf8_renderBody {body : List Expr} (h : ∀ s ∈ Expr.textsEach body, s.isUtf8 = true) :
    (Node.renderBody body).isUtf8 = true := by
  induction body with
  | nil => rfl
  | cons e es ih =>
      obtain ⟨hfirst, hrest⟩ := List.forall_mem_append.mp h
      cases es with
      | nil => exact Expr.isUtf8_renderLast hfirst
      | cons next more =>
          show (e.renderStatement ++ Node.renderBody (next :: more)).isUtf8 = true
          rw [Bytes.isUtf8_append (Expr.isUtf8_renderStatement hfirst)]
          exact ih hrest

theorem Node.isUtf8_render {n : Node} (h : ∀ s ∈ n.texts, s.isUtf8 = true) : n.render.isUtf8 = true := by
  cases n with
  | function name params body =>
      obtain ⟨hname, hmore⟩ := List.forall_mem_cons.mp h
      obtain ⟨hparams, hbody⟩ := List.forall_mem_append.mp hmore
      simp only [Node.render, List.append_assoc]
      rw [Bytes.isUtf8_append (by decide), Bytes.isUtf8_append hname, Bytes.isUtf8_append (by decide),
        ← Expr.renderEachOnto_eq, Expr.isUtf8_renderEachOnto params hparams, Bytes.isUtf8_append (by decide),
        Bytes.isUtf8_append (Node.isUtf8_renderBody hbody)]
      decide
  | statements es =>
      rw [Node.render]
      rw [Node.texts] at h
      induction es with
      | nil => rfl
      | cons e es ih =>
          obtain ⟨hfirst, hrest⟩ := List.forall_mem_append.mp h
          rw [List.flatMap_cons, Bytes.isUtf8_append (Expr.isUtf8_renderStatement hfirst)]
          exact ih hrest
  | missing => rfl

/-- Valid names and strings make valid script text, in every program. -/
theorem Program.isUtf8_render {p : Program} (h : ∀ s ∈ p.texts, s.isUtf8 = true) : p.render.isUtf8 = true := by
  induction p with
  | nil => rfl
  | cons n p ih =>
      rw [Program.texts, List.flatMap_cons, List.forall_mem_append] at h
      rw [Program.render, List.flatMap_cons, Bytes.isUtf8_append (Node.isUtf8_render h.1)]
      exact ih h.2

/-- All that comes of a valid source is valid: its tokens, what is left where scanning stops, the names and
strings of its program, and its script text. -/
theorem isUtf8_of_source {source : Bytes} (h : source.isUtf8 = true) :
    (∀ tokens, tokenize source = .ok tokens → ∀ token ∈ tokens, token.value.isUtf8 = true) ∧
    (∀ e, tokenize source = .error e → e.remainder.isUtf8 = true) ∧
    (∀ p, readProgram source = .ok p → ∀ s ∈ p.texts, s.isUtf8 = true) ∧
    ∀ js, translate source = .ok js → js.isUtf8 = true := by
  have htrimmed : (Token.trimSource source).isUtf8 = true := (Bytes.isUtf8_trimEnd _ source).trans h
  obtain ⟨htokens, hremainder⟩ := Token.isUtf8_of_scan htrimmed
  have hprogram : ∀ p, readProgram source = .ok p → ∀ s ∈ p.texts, s.isUtf8 = true := by
    intro p hp
    obtain ⟨tokens, hscan, hparse⟩ := readProgram_eq_ok_iff.mp hp
    exact isUtf8_of_parse (htokens tokens hscan) hparse
  refine ⟨htokens, hremainder, hprogram, fun js hjs => ?_⟩
  obtain ⟨p, hp, rfl⟩ := exists_of_map_eq_ok hjs
  exact Program.isUtf8_render (hprogram p hp)

/-- Characters of two, three and four bytes, a quote between them, and a blank of three bytes at the end. -/
theorem isUtf8_of_source_quotes :
    let source := text "puts(\"é'€𝄞\")\u3000"
    source.isUtf8 = true ∧ translate source = .ok (text "puts('é€𝄞');\n") ∧
      (text "puts('é€𝄞');\n").isUtf8 = true := by
  intro source
  have hvalid : source.isUtf8 = true := by decide
  have htranslate : translate source = .ok (text "puts('é€𝄞');\n") := eq_ok_of_toOption (by decide +kernel)
  exact ⟨hvalid, htranslate, (isUtf8_of_source hvalid).2.2.2 _ htranslate⟩

end Scriptlet
