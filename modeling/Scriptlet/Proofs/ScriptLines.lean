import Mathlib.Data.List.Forall2
import Scriptlet.Proofs.Concatenation
import Scriptlet.Proofs.NormalForm

/-!
The lines of script text. No name, number or string that comes from a source has a newline or a quote in it, so
the only newlines in the text of a program are those behind its lines, and the only quotes are the single ones
around its strings. Cut at its newlines, the text is therefore line by line what the program says: for a function
its opening, its statements and the closing brace, for other statements one line each.
-/

namespace Scriptlet

open Ascii

/-! ### Text on one line -/

/-- Text within a line that holds so many string literals: no newline, no double quote, and two single quotes
for each literal. -/
structure OnLine (literals : Nat) (s : Bytes) : Prop where
  newline : newline ∉ s
  doubleQuote : doubleQuote ∉ s
  singleQuotes : s.count singleQuote = 2 * literals

namespace OnLine

theorem nil : OnLine 0 [] := ⟨by simp, by simp, rfl⟩

theorem append {m n : Nat} {s t : Bytes} (hs : OnLine m s) (ht : OnLine n t) : OnLine (m + n) (s ++ t) := by
  refine ⟨?_, ?_, ?_⟩
  · rw [List.mem_append]
    exact not_or_intro hs.newline ht.newline
  · rw [List.mem_append]
    exact not_or_intro hs.doubleQuote ht.doubleQuote
  · rw [List.count_append, hs.singleQuotes, ht.singleQuotes]
    omega

/-- Text with neither quotes nor newlines in it. -/
theorem plain (s : Bytes)
    (h : (s.all fun b => b != Ascii.newline && b != Ascii.doubleQuote && b != singleQuote) = true) :
    OnLine 0 s := by
  simp only [List.all_eq_true, Bool.and_eq_true, bne_iff_ne, and_assoc] at h
  refine ⟨fun hmem => (h _ hmem).1 rfl, fun hmem => (h _ hmem).2.1 rfl, ?_⟩
  exact List.count_eq_zero.mpr fun hmem => (h _ hmem).2.2 rfl

theorem of_isWord {s : Bytes} (h : ∀ b ∈ s, isWord b = true) : OnLine 0 s := by
  apply plain
  rw [List.all_eq_true]
  intro b hb
  have hword := h b hb
  simp only [Bool.and_eq_true, bne_iff_ne]
  refine ⟨⟨?_, ?_⟩, ?_⟩ <;>
  · rintro rfl
    cases hword

/-- The texts of a list, with a plain text between them; their literals add up. -/
theorem intercalate {α : Type} {literals : α → Nat} {total : List α → Nat} {write : α → Bytes}
    {separator : Bytes} (hnil : total [] = 0) (hcons : ∀ x xs, total (x :: xs) = literals x + total xs)
    (hseparator : OnLine 0 separator) {items : List α} (h : ∀ x ∈ items, OnLine (literals x) (write x)) :
    OnLine (total items) (separator.intercalate (items.map write)) := by
  induction items with
  | nil =>
      rw [hnil]
      exact nil
  | cons x xs ih =>
      rw [List.forall_mem_cons] at h
      rw [hcons]
      cases xs with
      | nil =>
          rw [hnil]
          simpa using h.1
      | cons y ys =>
          have hrest := (h.1.append hseparator).append (ih h.2)
          simp only [List.map_cons, List.intercalate_cons_cons, Nat.add_zero] at hrest ⊢
          exact hrest

end OnLine

/-! ### String literals -/

mutual

/-- The string literals in a term, at every depth. -/
def Term.literals : Term → Nat
  | .str _ => 1
  | .call _ args => Expr.literalsEach args
  | _ => 0

def Expr.literals : List Term → Nat
  | [] => 0
  | term :: terms => term.literals + Expr.literals terms

def Expr.literalsEach : List (List Term) → Nat
  | [] => 0
  | expr :: exprs => Expr.literals expr + Expr.literalsEach exprs

end

theorem Expr.onLine {e : Expr} (h : ∀ t ∈ e, OnLine t.literals t.render) : OnLine (Expr.literals e) e.render := by
  rw [Expr.render_eq_intercalate]
  exact .intercalate rfl (fun _ _ => rfl) (.plain (text " ") rfl) h

theorem Expr.onLine_list {es : List Expr} (h : ∀ e ∈ es, ∀ t ∈ e, OnLine t.literals t.render) :
    OnLine (Expr.literalsEach es) (Expr.renderList es) := by
  rw [Expr.renderList_eq_intercalate]
  exact .intercalate rfl (fun _ _ => rfl) (.plain (text ", ") rfl) fun e he => Expr.onLine (h e he)

theorem onLine_name {name : Bytes} (h : (⟨.identifier, name⟩ : Token).IsLexeme) : OnLine 0 name := by
  obtain ⟨-, b, tail, rfl, hfirst, htail⟩ := h.isIdentifier
  exact .of_isWord (List.forall_mem_cons.mpr ⟨by simp [isWord, hfirst], htail⟩)

theorem onLine_int {v : Int} (h : 0 ≤ v) : OnLine 0 (Decimal.ofInt v) := by
  obtain ⟨n, rfl⟩ := Int.eq_ofNat_of_zero_le h
  apply OnLine.of_isWord
  intro b hb
  rw [isWord, Decimal.isDigit_of_mem_ofNat b hb, Bool.or_true]

theorem onLine_string {value : Bytes}
    (h : ∀ b ∈ value, b ≠ singleQuote ∧ b ≠ doubleQuote ∧ b ≠ newline) :
    OnLine 1 (singleQuote :: (value ++ [singleQuote])) := by
  have hout : ∀ {b : UInt8}, b ≠ singleQuote → b ∉ value → b ∉ singleQuote :: (value ++ [singleQuote]) := by
    intro b hb hvalue
    simp [hb, hvalue]
  refine ⟨hout (by decide) fun hmem => (h _ hmem).2.2 rfl, hout (by decide) fun hmem => (h _ hmem).2.1 rfl, ?_⟩
  have hnone : value.count singleQuote = 0 := List.count_eq_zero.mpr fun hmem => (h _ hmem).1 rfl
  simp [hnone]

theorem onLine_call {name : Bytes} {args : List Expr} (hname : (⟨.identifier, name⟩ : Token).IsLexeme)
    (hargs : ∀ e ∈ args, ∀ t ∈ e, OnLine t.literals t.render) :
    OnLine (Expr.literalsEach args) (Term.call name args).render := by
  have hcall := (((onLine_name hname).append (.plain (text "(") rfl)).append (Expr.onLine_list hargs)).append
    (.plain (text ")") rfl)
  rw [Term.render_call]
  simpa using hcall

theorem Term.Everywhere.onLine {t : Term} (h : t.Everywhere Term.IsSourced) : OnLine t.literals t.render := by
  induction h with
  | @intro t here inside ih =>
      cases t with
      | str value => exact onLine_string here
      | int n =>
          have hdigits := onLine_int here
          rwa [← List.append_nil (Decimal.ofInt _)] at hdigits
      | var name =>
          have hname := onLine_name here
          rwa [← List.append_nil name] at hname
      | call name args => exact onLine_call here (ih name args rfl)
      | missing => exact here.elim
      | _ => exact .plain _ rfl

/-! ### Lines of a program -/

/-- The string literals on a line. -/
def Line.literals : Line → Nat
  | .opening _ params => Expr.literalsEach params
  | .statement expr => Expr.literals expr
  | .closing => 0

/-- What the text of a line is like, without the newline behind it. -/
def Line.Reads : Line → Bytes → Prop
  | .opening name params, s =>
    s = text "function " ++ name ++ text "(" ++ Expr.renderList params ++ text ") \x7b"
  | .statement expr, s => ∃ lead ∈ [[], text "return "], s = lead ++ expr.render ++ text ";"
  | .closing, s => s = text "\x7d"

/-- The text is that of the line, with no double quote in it and two single quotes for each literal. -/
structure Line.ShownAs (l : Line) (s : Bytes) : Prop extends OnLine l.literals s where
  reads : l.Reads s

/-- The text is that of the lines, each with a newline behind it. -/
inductive Line.LaidOut : List Line → Bytes → Prop where
  | nil : LaidOut [] []
  | cons {l : Line} {ls : List Line} {s rest : Bytes} (hl : l.ShownAs s) (hls : LaidOut ls rest) :
      LaidOut (l :: ls) (s ++ newline :: rest)

theorem Line.LaidOut.append {ls ms : List Line} {s t : Bytes} (hls : LaidOut ls s) (hms : LaidOut ms t) :
    LaidOut (ls ++ ms) (s ++ t) := by
  induction hls with
  | nil => exact hms
  | cons hl _ ih =>
      rw [List.append_assoc, List.cons_append, List.cons_append]
      exact .cons hl ih

theorem Line.LaidOut.single {l : Line} {s : Bytes} (h : l.ShownAs s) : LaidOut [l] (s ++ [newline]) := .cons h .nil

theorem Expr.IsStatement.laidOut {e : Expr} (h : e.IsStatement Term.IsSourced) {lead : Bytes}
    (hlead : lead ∈ [[], text "return "]) : Line.LaidOut [.statement e] (lead ++ e.renderStatement) := by
  have hplain : OnLine 0 lead := by
    simp only [List.mem_cons, List.not_mem_nil, or_false] at hlead
    rcases hlead with rfl | rfl <;> exact .plain _ rfl
  have hline := (hplain.append (Expr.onLine fun t ht => (h.2 t ht).onLine)).append (.plain (text ";") rfl)
  rw [Nat.zero_add] at hline
  have htext : lead ++ e.renderStatement = lead ++ e.render ++ text ";" ++ [newline] := by
    simp only [Expr.renderStatement, List.append_assoc]
    rfl
  rw [htext]
  exact .single ⟨hline, lead, hlead, rfl⟩

theorem Line.laidOut_statements {es : List Expr} (h : ∀ e ∈ es, e.IsStatement Term.IsSourced) :
    LaidOut (es.map .statement) (es.flatMap Expr.renderStatement) := by
  induction es with
  | nil => exact .nil
  | cons e es ih =>
      rw [List.forall_mem_cons] at h
      rw [List.flatMap_cons]
      exact (h.1.laidOut (List.mem_cons_self ..)).append (ih h.2)

theorem Line.laidOut_body {body : List Expr} (h : ∀ e ∈ body, e.IsStatement Term.IsSourced) :
    LaidOut (body.map .statement) (Node.renderBody body) := by
  fun_induction Node.renderBody body with
  | case1 => exact .nil
  | case2 last =>
      have hlast := h last (List.mem_cons_self ..)
      unfold Expr.renderLast
      split
      · exact hlast.laidOut (List.mem_cons_self ..)
      · exact hlast.laidOut (by simp)
  | case3 e es _ ih =>
      rw [List.forall_mem_cons] at h
      exact (h.1.laidOut (List.mem_cons_self ..)).append (ih h.2)

theorem Line.laidOut_opening {name : Bytes} {params : List Expr}
    (h : (Term.call name params).Everywhere Term.IsSourced) : LaidOut [.opening name params]
      (text "function " ++ name ++ text "(" ++ Expr.renderList params ++ text ") \x7b\n") := by
  cases h with
  | intro here inside =>
      have hparams := Expr.onLine_list fun e he t ht => (inside name params rfl e he t ht).onLine
      have hhead := ((OnLine.plain (text "function ") rfl).append (onLine_name here)).append (.plain (text "(") rfl)
      have hline := (hhead.append hparams).append (.plain (text ") \x7b") rfl)
      rw [Nat.zero_add] at hline
      have htext : text ") \x7b\n" = text ") \x7b" ++ [newline] := rfl
      rw [htext, ← List.append_assoc]
      exact .single ⟨hline, rfl⟩

theorem Node.Built.laidOut {n : Node} (h : n.Built Term.IsSourced) : Line.LaidOut n.lines n.render := by
  cases h with
  | function header _ hbody =>
      have hclosing : Line.LaidOut [.closing] (text "\x7d\n") := .single ⟨.plain (text "\x7d") rfl, rfl⟩
      exact ((Line.laidOut_opening header).append (Line.laidOut_body hbody)).append hclosing
  | statements _ hes => exact Line.laidOut_statements hes

theorem Program.Built.laidOut {p : Program} (h : p.Built Term.IsSourced) : Line.LaidOut p.lines p.render := by
  induction h with
  | nil => exact .nil
  | cons hn _ _ ih => exact hn.laidOut.append ih

/-! ### Cutting at newlines -/

theorem Line.LaidOut.exists_splitAt {ls : List Line} {s : Bytes} (h : LaidOut ls s) :
    ∃ parts, Bytes.splitAt newline s = parts ++ [[]] ∧ List.Forall₂ Line.ShownAs ls parts := by
  induction h with
  | nil => exact ⟨[], rfl, .nil⟩
  | @cons l ls s rest hl _ ih =>
      obtain ⟨parts, hparts, hall⟩ := ih
      refine ⟨s :: parts, ?_, .cons hl hall⟩
      rw [Bytes.splitAt_append_cons, Bytes.splitAt_eq_singleton hl.newline, hparts]
      rfl

theorem Line.LaidOut.ends {ls : List Line} {s : Bytes} (h : LaidOut ls s) :
    s = [] ∨ s.getLast? = some newline := by
  induction h with
  | nil => exact Or.inl rfl
  | @cons l ls s rest _ _ ih =>
      right
      rw [List.getLast?_append, List.getLast?_cons]
      rcases ih with rfl | hlast
      · rfl
      · rw [hlast]
        rfl

theorem Line.LaidOut.lines {ls : List Line} {s : Bytes} (h : LaidOut ls s) :
    List.Forall₂ Line.ShownAs ls (Bytes.lines s) := by
  obtain ⟨parts, hparts, hall⟩ := h.exists_splitAt
  have hlines : Bytes.lines s = parts := by simp [Bytes.lines, hparts]
  rw [hlines]
  exact hall

/-- The script text of a source is empty or ends in a newline, and cut at its newlines it is line by line what the
program says. -/
theorem translate_lines_shown {source js : Bytes} (h : translate source = .ok js) :
    ∃ p, readProgram source = .ok p ∧ (js = [] ∨ js.getLast? = some newline) ∧
      List.Forall₂ Line.ShownAs p.lines (Bytes.lines js) := by
  obtain ⟨p, hp, rfl⟩ := exists_of_map_eq_ok h
  have hlaid := (readProgram_built hp).laidOut
  exact ⟨p, hp, hlaid.ends, hlaid.lines⟩

/-- Quotes of both kinds in a default value, in an argument and at the end of a line. -/
theorem translate_lines_shown_quotes :
    let source := text "def f(a = \"it's\")\nx = 1\ng('', b(\"y\"))\nend\nz 'w'"
    let js := text "function f(a = 'its') \x7b\nx = 1;\nreturn g('', b('y'));\n\x7d\nz 'w';\n"
    translate source = .ok js ∧ ∃ p, readProgram source = .ok p ∧ (js = [] ∨ js.getLast? = some newline) ∧
      List.Forall₂ Line.ShownAs p.lines (Bytes.lines js) := by
  intro source js
  have htranslate : translate source = .ok js := eq_ok_of_toOption (by decide +kernel)
  exact ⟨htranslate, translate_lines_shown htranslate⟩

end Scriptlet
