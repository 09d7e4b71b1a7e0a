import Scriptlet.Proofs.Recognition
import Scriptlet.Proofs.Scanning
import Scriptlet.Translate

/-!
Sources one behind the other. Where a newline separates them, reading the second starts afresh: the nodes of
both come out in order, except that two lists of statements that meet are one. Such a list is written as
its parts are, so the script text of the whole is that of the first source and then that of the second, and
what is wrong with the second is wrong with the whole in the same way.
-/

namespace Scriptlet

namespace Program

/-- The program with a node in front of it. A list of statements takes in the one that it meets. -/
def prepend : Node → Program → Program
  | .statements es, .statements more :: p => .statements (es ++ more) :: p
  | n, p => n :: p

/-- The nodes of one program in front of those of another. -/
def join (p q : Program) : Program := p.foldr prepend q

theorem prepend_function {used : List Token} {n : Node} (h : Grammar.FunctionOf used n) (p : Program) :
    prepend n p = n :: p := by
  cases h
  rfl

theorem prepend_apart (es : List Expr) {p : Program} (h : Grammar.beginsWithStatements p = false) :
    prepend (.statements es) p = .statements es :: p := by
  cases p with
  | nil => rfl
  | cons n p =>
      cases n with
      | statements more => cases h
      | _ => rfl

theorem render_prepend (n : Node) (p : Program) : (prepend n p).render = n.render ++ p.render := by
  unfold prepend
  split
  · simp [render, Node.render]
  · rw [render, List.flatMap_cons]
    rfl

theorem render_join (p q : Program) : (join p q).render = p.render ++ q.render := by
  induction p with
  | nil => rfl
  | cons n p ih =>
      have hcons : join (n :: p) q = prepend n (join p q) := rfl
      rw [hcons, render_prepend, ih, ← List.append_assoc]
      rfl

end Program

/-! ### Tokens behind a program -/

namespace Read
open Grammar Program

/-- Statements that are read in front of others become part of the first node that follows. -/
theorem program_of_statements {tokens behind : List Token} {es : List Expr}
    (hsome : endsStatements tokens = false)
    (hread : statements tokens = (statements behind).map (es ++ ·)) :
    program tokens = (program behind).map (prepend (.statements es)) := by
  have hne : tokens ≠ [] := by
    rintro rfl
    cases hsome
  rw [program_eq hne, node_eq_statements hsome, hread]
  -- either the list ends here and the next node is no list, or the next node is a list and is taken in
  cases hends : endsStatements behind with
  | true =>
      rw [statements_eq_nil hends, Reading.map_ok, Reading.map_ok, Reading.andThen_ok, List.append_nil]
      cases hbehind : program behind with
      | error e left => rfl
      | ok p left =>
          have hapart := (program_sound hbehind).endsStatements_iff.mp hends
          rw [Reading.map_ok, Reading.map_ok, prepend_apart es hapart]
  | false =>
      have hbehind : behind ≠ [] := by
        rintro rfl
        cases hends
      rw [program_eq hbehind, node_eq_statements hends]
      cases statements behind with
      | error e left => rfl
      | ok more left =>
          simp only [Reading.map_ok, Reading.andThen_ok, Reading.map_map]
          rfl

/-- A program in front of tokens that do not go on with its last statement is read off, and reading goes on
behind the newlines that follow. -/
theorem program_append {front behind : List Token} {p : Program} (h : ProgramOf front p)
    (hapart : Separated front behind) :
    program (skipNewlines (front ++ behind)) = (program (skipNewlines behind)).map (join p) := by
  induction h with
  | nil =>
      rw [List.nil_append]
      cases program (skipNewlines behind) <;> rfl
  | @function first rest n p hfirst hrest ih =>
      have hstart : nextIs .newline (first ++ (rest ++ behind)) = false := by
        cases hfirst
        rfl
      rw [List.append_assoc, skipNewlines_eq_self hstart, program_eq (by simp [hfirst.ne_nil]),
        node_function hfirst, Reading.andThen_ok, ih hapart.of_append, Reading.map_map]
      congr 1
      funext q
      exact (prepend_function hfirst (join p q)).symm
  | @statements first rest es p hfirst hne hrest hbegins ih =>
      have hstart : nextIs .newline (first ++ (rest ++ behind)) = false := hfirst.nextIs_of_ne hne rfl _
      have hread := statements_append hfirst (hapart.of_programOf hrest hbegins)
      rw [skipNewlines_eq_self hstart] at hread
      rw [List.append_assoc, skipNewlines_eq_self hstart,
        program_of_statements (hfirst.endsStatements_append hne _) hread, ih hapart.of_append, Reading.map_map]
      rfl

end Read

/-- What is read behind a program does not depend on it. -/
theorem parse_append {front behind : List Token} {p : Program} (h : parse front = .ok p) (hne : front ≠ [])
    (hapart : Grammar.Separated front behind) :
    parse (front ++ behind) = (parse (Read.skipNewlines behind)).map (Program.join p) := by
  have hfront := Read.parse_sound h
  have hstart : Read.nextIs .newline (front ++ behind) = false := by
    rw [Read.nextIs_append hne, hfront.nextIs_newline]
  rw [parse, parse, ← Reading.result_map, ← Read.program_append hfront hapart,
    Read.skipNewlines_eq_self hstart]

/-! ### Sources behind a source -/

theorem eq_ok_of_toOption {ε α : Type} {r : Except ε α} {a : α} (h : r.toOption = some a) : r = .ok a := by
  cases r with
  | error e => cases h
  | ok b => exact congrArg Except.ok (Option.some.inj h)

theorem ne_ok_of_toOption {ε α : Type} {r : Except ε α} {a : α} (h : r.toOption ≠ some a) : r ≠ .ok a := by
  rintro rfl
  exact h rfl

theorem translate_eq_ok_iff {source js : Bytes} : translate source = .ok js ↔
    ∃ tokens p, tokenize source = .ok tokens ∧ parse tokens = .ok p ∧ p.render = js := by
  constructor
  · intro h
    obtain ⟨p, hp, hjs⟩ := exists_of_map_eq_ok h
    obtain ⟨tokens, htokens, hparse⟩ := readProgram_eq_ok_iff.mp hp
    exact ⟨tokens, p, htokens, hparse, hjs⟩
  · rintro ⟨tokens, p, htokens, hparse, rfl⟩
    rw [translate, readProgram_eq_ok_iff.mpr ⟨tokens, htokens, hparse⟩]
    rfl

theorem translate_of_tokenize {source : Bytes} {tokens : List Token} (h : tokenize source = .ok tokens) :
    translate source = ((parse tokens).mapError .parse).map Program.render := by
  simp only [translate, readProgram, h]
  cases parse tokens <;> rfl

/-- A source that does not begin with a newline is translated behind a newline as it is by itself, and its
text follows that of what stands before. -/
theorem translate_append_newline {a b ja : Bytes} (ha : translate a = .ok ja) (htokens : tokenize a ≠ .ok [])
    (hb : (Bytes.trimStart isHorizontalBlank b).head? ≠ some Ascii.newline) :
    translate (a ++ Ascii.newline :: b) = (translate b).map (ja ++ ·) := by
  obtain ⟨ta, p, hta, hp, rfl⟩ := translate_eq_ok_iff.mp ha
  have hne : ta ≠ [] := by
    rintro rfl
    exact htokens hta
  have hsource := tokenize_append_newline a b
  rw [scan_of_tokenize hta] at hsource
  cases htb : tokenize b with
  | error e =>
      rw [htb] at hsource
      simp [translate, readProgram, hsource, htb, Except.map]
  | ok tb =>
      rw [htb] at hsource
      have hapart : Grammar.Separated ta (Token.lineEnd :: tb) := fun _ _ _ => rfl
      have hskip : Read.skipNewlines (Token.lineEnd :: tb) = tb :=
        Read.skipNewlines_eq_self (Token.nextIs_newline_of_scan (scan_of_tokenize htb) hb)
      rw [translate_of_tokenize hsource, translate_of_tokenize htb, parse_append hp hne hapart, hskip]
      cases parse tb with
      | error e => rfl
      | ok q => exact congrArg Except.ok (Program.render_join p q)

/-- Statements on both sides of the newline, with blanks around it. -/
theorem translate_append_newline_statements :
    translate (text "x = 1\nf(x) ") = .ok (text "x = 1;\nf(x);\n") ∧
    translate (text "x = 1\nf(x) " ++ Ascii.newline :: text " g('a')\n\ndef h end") =
      (translate (text " g('a')\n\ndef h end")).map (text "x = 1;\nf(x);\n" ++ ·) := by
  have hfirst : translate (text "x = 1\nf(x) ") = .ok (text "x = 1;\nf(x);\n") :=
    eq_ok_of_toOption (by decide +kernel)
  have htokens : tokenize (text "x = 1\nf(x) ") ≠ .ok [] := ne_ok_of_toOption (by decide +kernel)
  exact ⟨hfirst, translate_append_newline hfirst htokens (by decide)⟩

end Scriptlet
