import Scriptlet.Proofs.NormalForm

/-!
Script text can be read in one way only. The text of a term begins with a token that tells which term it is,
up to the arguments of a call; expressions end where a comma, a parenthesis, a semicolon or the brace of a
function follows; and the lines of functions and statements are told apart by how they end. So the text of a
program determines its normal form, and with it exactly what is lost in the text: how nil was spelled,
arguments that are empty and alone, and whether `return` was written.
-/

namespace Scriptlet

open Ascii

/-! ### Legible terms -/

/-- A term as normal forms have it, its arguments aside. -/
def Term.IsNormal : Term → Prop
  | .nil => False
  | .call _ args => args ≠ [[]]
  | _ => True

/-- A term that comes from a source and is in normal form. -/
def Term.Legible (t : Term) : Prop := t.Everywhere fun t => t.IsSourced ∧ t.IsNormal

theorem Term.IsNormal.ne_nil {t : Term} (h : t.IsNormal) : t ≠ .nil := by
  rintro rfl
  exact h

theorem Expr.dropLoneEmpty_ne (args : List Expr) : dropLoneEmpty args ≠ [[]] := by
  unfold dropLoneEmpty
  split
  · exact nofun
  · assumption

theorem Expr.mem_dropLoneEmpty {args : List Expr} {e : Expr} (h : e ∈ dropLoneEmpty args) : e ∈ args := by
  unfold dropLoneEmpty at h
  split at h
  · cases h
  · exact h

theorem isLexeme_null : (⟨.identifier, text "null"⟩ : Token).IsLexeme :=
  Token.isLexeme_of_isIdentifier ⟨by decide, _, _, rfl, by decide, List.all_eq_true.mp rfl⟩

theorem Term.Everywhere.normalize {t : Term} (h : t.Everywhere Term.IsSourced) : t.normalize.Legible := by
  induction h with
  | @intro t here inside ih =>
      have hleaf : t.normalize.IsSourced → t.normalize.IsNormal → (∀ name args, t.normalize ≠ .call name args) →
          t.normalize.Legible := by
        intro hsourced hnormal hcall
        exact .intro ⟨hsourced, hnormal⟩ fun name args heq => absurd heq (hcall name args)
      cases t with
      | call name args =>
          refine .intro ⟨here, Expr.dropLoneEmpty_ne _⟩ ?_
          rintro _ _ ⟨⟩ arg harg t' ht'
          have hmem := Expr.mem_dropLoneEmpty harg
          rw [Expr.normalizeEach_eq_map] at hmem
          obtain ⟨arg', harg', rfl⟩ := List.mem_map.mp hmem
          rw [Expr.normalize_eq_map] at ht'
          obtain ⟨t, ht, rfl⟩ := List.mem_map.mp ht'
          exact ih name args rfl arg' harg' t ht
      | nil => exact hleaf isLexeme_null trivial nofun
      | missing => exact here.elim
      | _ => exact hleaf here trivial nofun

/-! ### The token at the front of a term -/

/-- The token that the text of a term begins with. -/
def Term.token : Term → Token
  | .nil => ⟨.identifier, text "null"⟩
  | .str value => ⟨.string, singleQuote :: (value ++ [singleQuote])⟩
  | .int n => ⟨.integer, Decimal.ofInt n.toInt⟩
  | .var name | .call name _ => ⟨.identifier, name⟩
  | .plus => ⟨.plus, [Ascii.plus]⟩
  | .minus => ⟨.minus, [Ascii.minus]⟩
  | .star => ⟨.star, [Ascii.star]⟩
  | .slash => ⟨.slash, [Ascii.slash]⟩
  | .assign => ⟨.assign, [equals]⟩
  | .missing => .endOfInput

/-- What follows that token. -/
def Term.behindToken : Term → Bytes → Bytes
  | .call _ args, tail => openParen :: Expr.renderEachOnto args (closeParen :: tail)
  | _, tail => tail

theorem Term.renderOnto_eq_token (t : Term) (tail : Bytes) :
    t.renderOnto tail = t.token.value ++ t.behindToken tail := by
  cases t with
  | str value =>
      show singleQuote :: (value ++ singleQuote :: tail) = singleQuote :: (value ++ [singleQuote]) ++ tail
      simp
  | _ => rfl

theorem Term.behindToken_eq_self {t : Term} (h : ∀ name args, t ≠ .call name args) (tail : Bytes) :
    t.behindToken tail = tail := by
  cases t with
  | call name args => exact absurd rfl (h name args)
  | _ => rfl

theorem ofInt_nonneg {v : Int} (h : 0 ≤ v) : ∃ n, Decimal.ofInt v = Decimal.ofNat n := by
  cases v with
  | ofNat n => exact ⟨n, rfl⟩
  | negSucc n => exact absurd h (Int.not_le.mpr (Int.negSucc_lt_zero n))

theorem Term.isLexeme_token {t : Term} (h : t.IsSourced) : t.token.IsLexeme := by
  cases t with
  | nil => exact isLexeme_null
  | str value => exact .string (Or.inr rfl) fun c hc => ⟨(h c hc).1, (h c hc).2.2⟩
  | int n =>
      obtain ⟨digits, hdigits⟩ := ofInt_nonneg h
      show (⟨.integer, Decimal.ofInt n.toInt⟩ : Token).IsLexeme
      rw [hdigits]
      exact .integer (Decimal.ofNat_ne_nil digits) Decimal.isDigit_of_mem_ofNat
  | var name => exact h
  | call name args => exact h
  | missing => exact h.elim
  | _ => exact .symbol (by decide)

/-- A term is read off its token, unless it is nil or a call. -/
theorem Term.atomOf_token {t : Term} (h : t.IsWhole) (hnil : t ≠ .nil)
    (hcall : ∀ name args, t ≠ .call name args) : Grammar.AtomOf t.token t := by
  cases t with
  | nil => exact absurd rfl hnil
  | str value =>
      have hfilter : (singleQuote :: (value ++ [singleQuote])).filter
          (fun b => b ≠ singleQuote ∧ b ≠ doubleQuote) = value := by
        have hkept : value.filter (fun b => b ≠ singleQuote ∧ b ≠ doubleQuote) = value := by
          apply List.filter_eq_self.mpr
          intro b hb
          exact decide_eq_true (h b hb)
        simp only [List.filter_cons, List.filter_append, hkept]
        simp
      have hatom := Grammar.AtomOf.str (singleQuote :: (value ++ [singleQuote]))
      rw [hfilter] at hatom
      exact hatom
  | int n => exact .int (Decimal.toInt?_ofInt n.toInt)
  | call name args => exact absurd rfl (hcall name args)
  | missing => exact h.elim
  | var name => exact .var name
  | plus => exact .plus _
  | minus => exact .minus _
  | star => exact .star _
  | slash => exact .slash _
  | assign => exact .assign _

theorem Grammar.AtomOf.unique {token : Token} {a b : Term} (ha : AtomOf token a) (hb : AtomOf token b) :
    a = b := by
  cases ha with
  | int hvalue =>
      cases hb with
      | int hvalue' =>
          rw [hvalue, Option.some.injEq, Int64.toInt_inj] at hvalue'
          rw [hvalue']
  | _ =>
      cases hb
      rfl

/-! ### Where a term ends -/

/-- Nothing that goes on with a term stands at the front. -/
def Stops (s : Bytes) : Prop := ∀ b, s.head? = some b → isWord b = false ∧ b ≠ openParen

theorem Stops.cons {b : UInt8} (hb : isWord b = false ∧ b ≠ openParen) (rest : Bytes) : Stops (b :: rest) := by
  intro c hc
  cases hc
  exact hb

theorem Term.endsBefore {t : Term} {s : Bytes} (hs : Stops s) : t.token.EndsBefore (t.behindToken s) := by
  intro _ b hb
  cases t with
  | call name args =>
      cases hb
      decide
  | _ => exact (hs b hb).1

/-- Texts that are the same begin with the same token. -/
theorem Term.token_eq {a b : Term} {s t : Bytes} (ha : a.IsSourced) (hb : b.IsSourced) (hs : Stops s)
    (ht : Stops t) (h : a.renderOnto s = b.renderOnto t) :
    a.token = b.token ∧ a.behindToken s = b.behindToken t := by
  rw [a.renderOnto_eq_token, b.renderOnto_eq_token] at h
  have hleft := Token.lexeme?_of_isLexeme (isLexeme_token ha) (Term.endsBefore hs)
  have hright := Token.lexeme?_of_isLexeme (isLexeme_token hb) (Term.endsBefore ht)
  rw [h, hright, Option.some.injEq] at hleft
  rw [hleft] at h
  exact ⟨hleft.symm, List.append_cancel_left h⟩

/-- The bytes that stand between terms and behind them. -/
def marks : List UInt8 := [space, comma, closeParen, 0x3B, openBrace, closeBrace]

/-- No term begins with one of the bytes that stand behind terms. -/
theorem Term.renderOnto_ne_mark {t : Term} (h : t.IsSourced) {mark : UInt8} (hmark : mark ∈ marks)
    (s rest : Bytes) : t.renderOnto s ≠ mark :: rest := by
  let symbols : Bytes := [singleQuote, Ascii.plus, Ascii.minus, Ascii.star, Ascii.slash, equals]
  have hother : (marks.all fun b => !isWordStart b && !isDigit b && !symbols.contains b) = true := rfl
  have hapart := List.all_eq_true.mp hother mark hmark
  simp only [Bool.and_eq_true, Bool.not_eq_true'] at hapart
  obtain ⟨⟨hword, hdigit⟩, hsymbol⟩ := hapart
  have hname : ∀ {name tail : Bytes}, (⟨.identifier, name⟩ : Token).IsLexeme → name ++ tail ≠ mark :: rest := by
    intro name tail hlexeme heq
    obtain ⟨-, b, more, rfl, hfirst, -⟩ := hlexeme.isIdentifier
    rw [(List.cons.inj heq).1, hword] at hfirst
    cases hfirst
  have hfirst : ∀ {b : UInt8} {tail : Bytes}, symbols.contains b = true → b :: tail ≠ mark :: rest := by
    intro b tail hb heq
    rw [(List.cons.inj heq).1, hsymbol] at hb
    cases hb
  cases t with
  | nil => exact hname isLexeme_null
  | int n =>
      obtain ⟨digits, hdigits⟩ := ofInt_nonneg h
      obtain ⟨b, tail, heq⟩ := List.exists_cons_of_ne_nil (Decimal.ofNat_ne_nil digits)
      have hb : isDigit b = true := Decimal.isDigit_of_mem_ofNat b (by rw [heq]; exact List.mem_cons_self ..)
      show Decimal.ofInt n.toInt ++ s ≠ mark :: rest
      rw [hdigits, heq]
      rintro ⟨⟩
      rw [hb] at hdigit
      cases hdigit
  | var name => exact hname h
  | call name args => exact hname h
  | missing => exact h.elim
  | _ => exact hfirst rfl

/-! ### Expressions -/

/-- What stands behind an expression: a mark that ends it, or a space and the brace of a function. -/
inductive EndsExpr : Bytes → Prop where
  | comma (rest : Bytes) : EndsExpr (comma :: rest)
  | closeParen (rest : Bytes) : EndsExpr (closeParen :: rest)
  | semicolon (rest : Bytes) : EndsExpr (0x3B :: rest)
  | brace (rest : Bytes) : EndsExpr (space :: openBrace :: rest)

theorem EndsExpr.stops {s : Bytes} (h : EndsExpr s) : Stops s := by
  cases h <;> exact .cons (by decide) _

theorem EndsExpr.exists_mark {s : Bytes} (h : EndsExpr s) : ∃ mark rest, s = mark :: rest ∧ mark ∈ marks := by
  cases h <;> exact ⟨_, _, rfl, by decide⟩

/-- The text of a term determines it and where it ends. -/
def Term.Readable (a : Term) : Prop :=
  ∀ {b : Term} {s t : Bytes}, b.Legible → Stops s → Stops t → a.renderOnto s = b.renderOnto t → a = b ∧ s = t

theorem Term.Legible.isSourced {t : Term} (h : t.Legible) : t.IsSourced := by
  cases h with
  | intro here _ => exact here.1

theorem Expr.renderOnto_ne_mark {e : Expr} (hne : e ≠ []) (he : ∀ t ∈ e, t.Legible) {mark : UInt8}
    (hmark : mark ∈ marks) (s rest : Bytes) : Expr.renderOnto e s ≠ mark :: rest := by
  obtain ⟨t, ts, rfl⟩ := List.exists_cons_of_ne_nil hne
  exact Term.renderOnto_ne_mark (he t (List.mem_cons_self ..)).isSourced hmark _ rest

/-- What stands behind the first term of an expression. -/
def Expr.behindFirst (terms : List Term) (s : Bytes) : Bytes :=
  if terms.isEmpty then s else space :: Expr.renderOnto terms s

theorem Expr.behindFirst_stops {s : Bytes} (hs : Stops s) (terms : List Term) :
    Stops (behindFirst terms s) := by
  unfold behindFirst
  split
  · exact hs
  · exact .cons (by decide) _

/-- An expression that ends does not go on. -/
theorem Expr.eq_nil_of_behindFirst {s t : Bytes} (hs : EndsExpr s) {terms : List Term}
    (hterms : ∀ t ∈ terms, t.Legible) (h : s = behindFirst terms t) : terms = [] := by
  cases terms with
  | nil => rfl
  | cons b bs =>
      have hcons : s = space :: Expr.renderOnto (b :: bs) t := h
      cases hs with
      | brace rest =>
          have hbrace := (List.cons.inj hcons).2
          exact absurd hbrace.symm (renderOnto_ne_mark (List.cons_ne_nil b bs) hterms (by decide) t rest)
      | _ => cases hcons

/-- The text of an expression determines it and where it ends. -/
theorem Expr.renderOnto_inj {a b : Expr} {s t : Bytes} (hread : ∀ x ∈ a, x.Readable)
    (ha : ∀ x ∈ a, x.Legible) (hb : ∀ x ∈ b, x.Legible) (hs : EndsExpr s) (ht : EndsExpr t)
    (h : Expr.renderOnto a s = Expr.renderOnto b t) : a = b ∧ s = t := by
  induction a generalizing b with
  | nil =>
      cases b with
      | nil => exact ⟨rfl, h⟩
      | cons y ys =>
          obtain ⟨mark, rest, rfl, hmark⟩ := hs.exists_mark
          exact absurd h.symm (renderOnto_ne_mark (List.cons_ne_nil y ys) hb hmark t rest)
  | cons x xs ih =>
      cases b with
      | nil =>
          obtain ⟨mark, rest, rfl, hmark⟩ := ht.exists_mark
          exact absurd h (renderOnto_ne_mark (List.cons_ne_nil x xs) ha hmark s rest)
      | cons y ys =>
          rw [List.forall_mem_cons] at hread ha hb
          obtain ⟨rfl, hbehind⟩ :=
            hread.1 hb.1 (behindFirst_stops hs.stops xs) (behindFirst_stops ht.stops ys) h
          -- behind the first term both expressions end, or both go on
          cases xs with
          | nil =>
              cases eq_nil_of_behindFirst hs hb.2 hbehind
              exact ⟨rfl, hbehind⟩
          | cons x' xs =>
              cases ys with
              | nil => cases eq_nil_of_behindFirst ht ha.2 hbehind.symm
              | cons y' ys =>
                  obtain ⟨heq, hrest⟩ := ih hread.2 ha.2 hb.2 (List.cons.inj hbehind).2
                  exact ⟨congrArg (x :: ·) heq, hrest⟩

/-! ### Arguments -/

/-- What stands behind the first of some expressions in parentheses. -/
def Expr.behindEach (exprs : List Expr) (s : Bytes) : Bytes :=
  if exprs.isEmpty then closeParen :: s
  else comma :: space :: Expr.renderEachOnto exprs (closeParen :: s)

theorem Expr.behindEach_ends (exprs : List Expr) (s : Bytes) : EndsExpr (behindEach exprs s) := by
  unfold behindEach
  split
  · exact .closeParen s
  · exact .comma _

theorem Expr.renderEachOnto_cons_inj {a : Expr} {as : List Expr} {b : Expr} {bs : List Expr} {s t : Bytes}
    (hread : ∀ e ∈ a :: as, ∀ x ∈ e, x.Readable) (ha : ∀ e ∈ a :: as, ∀ x ∈ e, x.Legible)
    (hb : ∀ e ∈ b :: bs, ∀ x ∈ e, x.Legible)
    (h : Expr.renderEachOnto (a :: as) (closeParen :: s) = Expr.renderEachOnto (b :: bs) (closeParen :: t)) :
    a :: as = b :: bs ∧ s = t := by
  induction as generalizing a b bs with
  | nil =>
      rw [List.forall_mem_cons] at hread ha hb
      obtain ⟨rfl, hbehind⟩ := renderOnto_inj hread.1 ha.1 hb.1 (behindEach_ends [] s) (behindEach_ends bs t) h
      cases bs with
      | nil => exact ⟨rfl, (List.cons.inj hbehind).2⟩
      | cons b' bs => cases hbehind
  | cons a' as ih =>
      rw [List.forall_mem_cons] at hread ha hb
      obtain ⟨rfl, hbehind⟩ :=
        renderOnto_inj hread.1 ha.1 hb.1 (behindEach_ends (a' :: as) s) (behindEach_ends bs t) h
      cases bs with
      | nil => cases hbehind
      | cons b' bs =>
          obtain ⟨heq, hrest⟩ := ih hread.2 ha.2 hb.2 (List.cons.inj (List.cons.inj hbehind).2).2
          exact ⟨congrArg (a :: ·) heq, hrest⟩

/-- No arguments read like no others, unless one is empty and alone. -/
theorem Expr.renderEachOnto_cons_ne {b : Expr} {bs : List Expr} (hb : ∀ e ∈ b :: bs, ∀ x ∈ e, x.Legible)
    (hlone : b :: bs ≠ [[]]) (s t : Bytes) :
    Expr.renderEachOnto (b :: bs) (closeParen :: t) ≠ closeParen :: s := by
  intro h
  cases b with
  | nil =>
      cases bs with
      | nil => exact hlone rfl
      | cons b' bs => cases h
  | cons y ys =>
      exact renderOnto_ne_mark (List.cons_ne_nil y ys) (hb _ (List.mem_cons_self ..)) (by decide) _ s h

theorem Expr.renderEachOnto_inj {as bs : List Expr} {s t : Bytes}
    (hread : ∀ e ∈ as, ∀ x ∈ e, x.Readable) (ha : ∀ e ∈ as, ∀ x ∈ e, x.Legible)
    (hb : ∀ e ∈ bs, ∀ x ∈ e, x.Legible) (has : as ≠ [[]]) (hbs : bs ≠ [[]])
    (h : Expr.renderEachOnto as (closeParen :: s) = Expr.renderEachOnto bs (closeParen :: t)) :
    as = bs ∧ s = t := by
  cases as with
  | nil =>
      cases bs with
      | nil => exact ⟨rfl, (List.cons.inj h).2⟩
      | cons b bs => exact absurd h.symm (renderEachOnto_cons_ne hb hbs s t)
  | cons a as =>
      cases bs with
      | nil => exact absurd h (renderEachOnto_cons_ne ha has t s)
      | cons b bs => exact renderEachOnto_cons_inj hread ha hb h

/-! ### Terms -/

theorem Term.Legible.readable {a : Term} (h : a.Legible) : a.Readable := by
  induction h with
  | @intro a here inside ih =>
      rintro b s t ⟨hhere, hinside⟩ hs ht heq
      obtain ⟨htoken, hbehind⟩ := Term.token_eq here.1 hhere.1 hs ht heq
      -- the parenthesis tells a call from a name
      by_cases hcall : ∃ name args, a = .call name args
      · obtain ⟨name, args, rfl⟩ := hcall
        by_cases hcall' : ∃ name args, b = .call name args
        · obtain ⟨name', args', rfl⟩ := hcall'
          obtain ⟨-, rfl⟩ := Token.mk.inj htoken
          obtain ⟨rfl, rfl⟩ := Expr.renderEachOnto_inj (ih name args rfl) (inside name args rfl)
            (hinside name args' rfl) here.2 hhere.2 (List.cons.inj hbehind).2
          exact ⟨rfl, rfl⟩
        · rw [b.behindToken_eq_self fun name args heq => hcall' ⟨name, args, heq⟩] at hbehind
          exact absurd rfl (ht openParen (by rw [← hbehind]; rfl)).2
      · have hleaf : ∀ name args, a ≠ .call name args := fun name args heq => hcall ⟨name, args, heq⟩
        rw [a.behindToken_eq_self hleaf] at hbehind
        have hleaf' : ∀ name args, b ≠ .call name args := by
          rintro name args rfl
          exact (hs openParen (by rw [hbehind]; rfl)).2 rfl
        rw [b.behindToken_eq_self hleaf'] at hbehind
        have ha := Term.atomOf_token here.1.isWhole here.2.ne_nil hleaf
        have hb := Term.atomOf_token hhere.1.isWhole hhere.2.ne_nil hleaf'
        rw [htoken] at ha
        exact ⟨ha.unique hb, hbehind⟩

theorem Expr.renderOnto_inj_of_legible {a b : Expr} {s t : Bytes} (ha : ∀ x ∈ a, x.Legible)
    (hb : ∀ x ∈ b, x.Legible) (hs : EndsExpr s) (ht : EndsExpr t)
    (h : Expr.renderOnto a s = Expr.renderOnto b t) : a = b ∧ s = t :=
  renderOnto_inj (fun x hx => (ha x hx).readable) ha hb hs ht h

/-! ### Lines -/

def Line.Legible : Line → Prop
  | .opening name params => (Term.call name params).Legible
  | .statement expr => ∀ t ∈ expr, t.Legible
  | .closing => True

theorem legible_var {name : Bytes} (h : IsIdentifier name) : (Term.var name).Legible :=
  .intro ⟨Token.isLexeme_of_isIdentifier h, trivial⟩ nofun

/-- The expression that an opening line reads like. -/
theorem Line.legible_opening {name : Bytes} {params : List Expr} (h : (Term.call name params).Legible) :
    ∀ t ∈ [Term.var (text "function"), .call name params], t.Legible := by
  rw [List.forall_mem_cons, List.forall_mem_singleton]
  exact ⟨legible_var ⟨by decide, _, _, rfl, by decide, List.all_eq_true.mp rfl⟩, h⟩

theorem Line.renderOnto_ne_closing {l : Line} (hl : l.Legible) (hne : l ≠ .closing) (s t : Bytes) :
    l.renderOnto s ≠ Line.closing.renderOnto t := by
  cases l with
  | closing => exact absurd rfl hne
  | opening name params =>
      exact Expr.renderOnto_ne_mark (List.cons_ne_nil _ _) (legible_opening hl) (by decide) _ _
  | statement expr =>
      cases expr with
      | nil => exact fun h => by cases h
      | cons x xs => exact Expr.renderOnto_ne_mark (List.cons_ne_nil _ _) hl (by decide) _ _

/-- The text of a line determines it and where it ends. -/
theorem Line.renderOnto_inj {l m : Line} {s t : Bytes} (hl : l.Legible) (hm : m.Legible)
    (h : l.renderOnto s = m.renderOnto t) : l = m ∧ s = t := by
  by_cases hclosing : l = .closing
  · subst hclosing
    by_cases hclosing' : m = .closing
    · subst hclosing'
      exact ⟨rfl, List.append_cancel_left h⟩
    · exact absurd h.symm (renderOnto_ne_closing hm hclosing' t s)
  by_cases hclosing' : m = .closing
  · subst hclosing'
    exact absurd h (renderOnto_ne_closing hl hclosing s t)
  cases l with
  | closing => exact absurd rfl hclosing
  | opening name params =>
      cases m with
      | closing => exact absurd rfl hclosing'
      | opening name' params' =>
          obtain ⟨heq, hrest⟩ := Expr.renderOnto_inj_of_legible (legible_opening hl) (legible_opening hm)
            (.brace _) (.brace _) h
          cases heq
          exact ⟨rfl, List.append_cancel_left (show text " \x7b\n" ++ s = text " \x7b\n" ++ t from hrest)⟩
      | statement expr =>
          have hrest := (Expr.renderOnto_inj_of_legible (legible_opening hl) hm (.brace _) (.semicolon _) h).2
          cases hrest
  | statement expr =>
      cases m with
      | closing => exact absurd rfl hclosing'
      | opening name' params' =>
          have hrest := (Expr.renderOnto_inj_of_legible hl (legible_opening hm) (.semicolon _) (.brace _) h).2
          cases hrest
      | statement expr' =>
          obtain ⟨rfl, hrest⟩ := Expr.renderOnto_inj_of_legible hl hm (.semicolon _) (.semicolon _) h
          exact ⟨rfl, List.append_cancel_left (show text ";\n" ++ s = text ";\n" ++ t from hrest)⟩

theorem Line.renderOnto_ne_nil (l : Line) (s : Bytes) : l.renderOnto s ≠ [] := by
  cases l with
  | closing => exact List.cons_ne_nil _ _
  | opening name params => exact List.cons_ne_nil _ _
  | statement expr =>
      show Expr.renderOnto expr (text ";\n" ++ s) ≠ []
      rw [Expr.renderOnto_eq]
      exact List.append_ne_nil_of_right_ne_nil _ (List.cons_ne_nil _ _)

/-- A text of lines determines them. -/
theorem Line.renderAllOnto_inj {ls ms : List Line} (hls : ∀ l ∈ ls, l.Legible) (hms : ∀ m ∈ ms, m.Legible)
    (h : renderAllOnto ls [] = renderAllOnto ms []) : ls = ms := by
  induction ls generalizing ms with
  | nil =>
      cases ms with
      | nil => rfl
      | cons m ms => exact absurd h.symm (m.renderOnto_ne_nil _)
  | cons l ls ih =>
      cases ms with
      | nil => exact absurd h (l.renderOnto_ne_nil _)
      | cons m ms =>
          rw [List.forall_mem_cons] at hls hms
          obtain ⟨rfl, hrest⟩ := renderOnto_inj hls.1 hms.1 h
          rw [ih hls.2 hms.2 hrest]

/-! ### Programs -/

/-- Statements are told apart from lines that do not begin with a statement. -/
theorem map_statement_append_inj {es es' : List Expr} {ls ms : List Line}
    (hls : ∀ e, ls.head? ≠ some (.statement e)) (hms : ∀ e, ms.head? ≠ some (.statement e))
    (h : es.map Line.statement ++ ls = es'.map Line.statement ++ ms) : es = es' ∧ ls = ms := by
  induction es generalizing es' with
  | nil =>
      cases es' with
      | nil => exact ⟨rfl, h⟩
      | cons e' es' => exact absurd (congrArg List.head? h) (hls e')
  | cons e es ih =>
      cases es' with
      | nil => exact absurd (congrArg List.head? h).symm (hms e)
      | cons e' es' =>
          obtain ⟨heq, hrest⟩ := List.cons.inj h
          obtain ⟨rfl, rfl⟩ := ih hrest
          exact ⟨by rw [Line.statement.inj heq], rfl⟩

theorem Program.lines_head {P : Term → Prop} {p : Program} (h : p.Built P)
    (hbegins : Grammar.beginsWithStatements p = false) (e : Expr) : p.lines.head? ≠ some (.statement e) := by
  cases h with
  | nil => exact nofun
  | cons hn _ _ =>
      cases hn with
      | function => exact nofun
      | statements => cases hbegins

theorem Program.lines_function (name : Bytes) (params body : List Expr) (p : Program) :
    Program.lines (.function name params (some body) :: p) =
      .opening name params :: (body.map .statement ++ .closing :: p.lines) := by
  show .opening name params :: (body.map Line.statement ++ [.closing]) ++ p.lines = _
  simp

theorem Program.lines_ne_nil {P : Term → Prop} {n : Node} (h : n.Built P) (p : Program) :
    Program.lines (n :: p) ≠ [] := by
  cases h with
  | function => exact List.cons_ne_nil _ _
  | statements hne _ =>
      obtain ⟨e, es, rfl⟩ := List.exists_cons_of_ne_nil hne
      exact List.cons_ne_nil _ _

/-- A function begins with a line that no statements begin with. -/
theorem Program.lines_function_ne {name : Bytes} {params body es : List Expr} (hne : es ≠ []) (p q : Program) :
    Program.lines (.function name params (some body) :: p) ≠ Program.lines (.statements es :: q) := by
  obtain ⟨e, es, rfl⟩ := List.exists_cons_of_ne_nil hne
  intro h
  cases (List.cons.inj h).1

/-- The lines of a program determine it. -/
theorem Program.lines_inj {P : Term → Prop} {p q : Program} (hp : p.Built P) (hq : q.Built P)
    (h : p.lines = q.lines) : p = q := by
  induction hp generalizing q with
  | nil =>
      cases hq with
      | nil => rfl
      | cons hn _ _ => exact absurd h.symm (Program.lines_ne_nil hn _)
  | @cons n p hn hp hapart ih =>
      cases hq with
      | nil => exact absurd h (Program.lines_ne_nil hn _)
      | @cons m q hm hq hapart' =>
          cases hn with
          | @function name params body =>
              cases hm with
              | @function name' params' body' =>
                  rw [Program.lines_function, Program.lines_function] at h
                  obtain ⟨hopening, hrest⟩ := List.cons.inj h
                  obtain ⟨rfl, rfl⟩ := Line.opening.inj hopening
                  obtain ⟨rfl, hmore⟩ :=
                    map_statement_append_inj (fun _ h => by cases h) (fun _ h => by cases h) hrest
                  rw [ih hq (List.cons.inj hmore).2]
              | statements hne _ => exact absurd h (Program.lines_function_ne hne p q)
          | statements hne _ =>
              cases hm with
              | function => exact absurd h.symm (Program.lines_function_ne hne q p)
              | statements =>
                  -- two nodes of statements never stand side by side, so the runs end at the same line
                  obtain ⟨rfl, hrest⟩ := map_statement_append_inj (Program.lines_head hp (hapart rfl))
                    (Program.lines_head hq (hapart' rfl)) h
                  rw [ih hq hrest]

/-! ### Normal forms are legible -/

theorem Expr.IsStatement.normalize {e : Expr} (h : e.IsStatement Term.IsSourced) :
    (Expr.normalize e) ≠ [] ∧ ∀ t ∈ Expr.normalize e, t.Legible := by
  rw [Expr.normalize_eq_map]
  refine ⟨by simpa using h.1, ?_⟩
  intro _ hmem
  obtain ⟨t, ht, rfl⟩ := List.mem_map.mp hmem
  exact (h.2 t ht).normalize

theorem Expr.IsStatement.normalizeLast {e : Expr} (h : e.IsStatement Term.IsSourced) :
    e.normalizeLast ≠ [] ∧ ∀ t ∈ e.normalizeLast, t.Legible := by
  unfold Expr.normalizeLast
  split
  · exact h.normalize
  · refine ⟨List.cons_ne_nil _ _, List.forall_mem_cons.mpr ⟨?_, h.normalize.2⟩⟩
    exact legible_var ⟨by decide, _, _, rfl, by decide, List.all_eq_true.mp rfl⟩

theorem Node.normalizeBody_legible {body : List Expr} (h : ∀ e ∈ body, e.IsStatement Term.IsSourced) :
    ∀ e ∈ Node.normalizeBody body, e ≠ [] ∧ ∀ t ∈ e, t.Legible := by
  fun_induction Node.normalizeBody body with
  | case1 => exact List.forall_mem_nil _
  | case2 last => exact List.forall_mem_singleton.mpr (h last (List.mem_cons_self ..)).normalizeLast
  | case3 e es _ ih =>
      rw [List.forall_mem_cons] at h
      exact List.forall_mem_cons.mpr ⟨h.1.normalize, ih h.2⟩

theorem Expr.IsParam.normalize {e : Expr} (h : e.IsParam) : Expr.IsParam (Expr.normalize e) := by
  obtain ⟨name, rfl | ⟨value, rfl⟩⟩ := h
  · exact ⟨name, .inl rfl⟩
  · exact ⟨name, .inr ⟨Expr.normalize value, rfl⟩⟩

/-- Parameters are no lone empty argument. -/
theorem Expr.dropLoneEmpty_params {params : List Expr} (h : ∀ e ∈ params, e.IsParam) :
    dropLoneEmpty (Expr.normalizeEach params) = Expr.normalizeEach params := by
  unfold dropLoneEmpty
  split
  · rename_i hlone
    cases params with
    | nil => cases hlone
    | cons e es =>
        obtain ⟨name, rfl | ⟨value, rfl⟩⟩ := h e (List.mem_cons_self ..)
        · cases hlone
        · cases hlone
  · rfl

theorem Node.Built.normalize {n : Node} (h : n.Built Term.IsSourced) :
    n.normalize.Built fun t => t.IsSourced ∧ t.IsNormal := by
  cases h with
  | @function name params body header hparams hbody =>
      have hheader : (Term.call name (Expr.dropLoneEmpty (Expr.normalizeEach params))).Legible :=
        header.normalize
      rw [Expr.dropLoneEmpty_params hparams] at hheader
      refine .function hheader ?_ (Node.normalizeBody_legible hbody)
      rw [Expr.normalizeEach_eq_map]
      intro _ hmem
      obtain ⟨e, he, rfl⟩ := List.mem_map.mp hmem
      exact (hparams e he).normalize
  | @statements es hne hes =>
      show Node.Built _ (.statements (Expr.normalizeEach es))
      rw [Expr.normalizeEach_eq_map]
      refine .statements (by simpa using hne) ?_
      intro _ hmem
      obtain ⟨e, he, rfl⟩ := List.mem_map.mp hmem
      exact (hes e he).normalize

theorem Program.Built.normalize {p : Program} (h : p.Built Term.IsSourced) :
    p.normalize.Built fun t => t.IsSourced ∧ t.IsNormal := by
  have hbegins : ∀ q : Program, Grammar.beginsWithStatements q.normalize = Grammar.beginsWithStatements q := by
    intro q
    cases q with
    | nil => rfl
    | cons n q => cases n <;> rfl
  induction h with
  | nil => exact .nil
  | @cons n p hn _ hapart ih =>
      refine .cons hn.normalize ih ?_
      intro hstatements
      exact (hbegins p).trans (hapart ((hbegins [n]).symm.trans hstatements))

theorem Program.Built.lines_legible {p : Program} (h : p.Built fun t => t.IsSourced ∧ t.IsNormal) :
    ∀ l ∈ p.lines, l.Legible := by
  have hstatements : ∀ {es : List Expr}, (∀ e ∈ es, e.IsStatement fun t => t.IsSourced ∧ t.IsNormal) →
      ∀ l ∈ es.map Line.statement, l.Legible := by
    intro es hes l hl
    obtain ⟨e, he, rfl⟩ := List.mem_map.mp hl
    exact (hes e he).2
  induction h with
  | nil => exact nofun
  | @cons n p hn _ _ ih =>
      show ∀ l ∈ n.lines ++ p.lines, l.Legible
      rw [List.forall_mem_append]
      refine ⟨?_, ih⟩
      cases hn with
      | function header _ hbody =>
          refine List.forall_mem_cons.mpr ⟨header, List.forall_mem_append.mpr ⟨hstatements hbody, ?_⟩⟩
          exact List.forall_mem_singleton.mpr trivial
      | statements _ hes => exact hstatements hes

theorem Program.Built.render_inj {p q : Program} (hp : p.Built Term.IsSourced) (hq : q.Built Term.IsSourced)
    (h : p.render = q.render) : p.normalize = q.normalize := by
  rw [Program.render_eq_lines hp, Program.render_eq_lines hq] at h
  have hlines := Line.renderAllOnto_inj hp.normalize.lines_legible hq.normalize.lines_legible h
  exact Program.lines_inj hp.normalize hq.normalize hlines

/-- Two programs from sources have texts, and the same text exactly if they have the same normal form. -/
theorem generate_eq_iff_normalize_eq {source source' : Bytes} {p q : Program}
    (hp : readProgram source = .ok p) (hq : readProgram source' = .ok q) :
    p.generate = .ok p.render ∧ q.generate = .ok q.render ∧
      (p.generate = q.generate ↔ p.normalize = q.normalize) := by
  have hbuilt := readProgram_built hp
  have hbuilt' := readProgram_built hq
  refine ⟨hbuilt.generate_eq, hbuilt'.generate_eq, ?_⟩
  rw [hbuilt.generate_eq, hbuilt'.generate_eq, Except.ok.injEq]
  constructor
  · exact hbuilt.render_inj hbuilt'
  · intro h
    rw [Program.render_eq_lines hbuilt, Program.render_eq_lines hbuilt', h]

/-- Nil, a lone empty argument and a value without `return` are not told apart in the text. -/
theorem generate_eq_of_nil_loneEmpty_value :
    let p : Program := [.function (text "f") [] (some [[.call (text "g") [[]], .nil]])]
    let q : Program :=
      [.function (text "f") [] (some [[.var (text "return"), .call (text "g") [], .var (text "null")]])]
    readProgram (text "def f()\ng(,) nil\nend") = .ok p ∧
      readProgram (text "def f()\nreturn g() null\nend") = .ok q ∧ p.generate = q.generate := by
  intro p q
  have hp : readProgram (text "def f()\ng(,) nil\nend") = .ok p := by with_unfolding_all rfl
  have hq : readProgram (text "def f()\nreturn g() null\nend") = .ok q := by with_unfolding_all rfl
  have hnormal : p.normalize = q.normalize := by with_unfolding_all rfl
  exact ⟨hp, hq, (generate_eq_iff_normalize_eq hp hq).2.2.mpr hnormal⟩

end Scriptlet
