import Scriptlet.Program.Basic
import Scriptlet.Text.Decimal

/-!
Programs as script text. A function becomes a braced block, a statement a line that ends in a semicolon,
terms are separated by single spaces and expressions in a list by a comma and a space. The value of a
function is that of its last statement, so that statement is given a `return` unless its text mentions
one already. Terms are written in front of what follows them, so that the work does not grow with the depth
of calls.
-/

namespace Scriptlet

mutual

/-- A term as text in front of a text. A missing term has no text. -/
def Term.renderOnto : Term → Bytes → Bytes
  | .nil, tail => text "null" ++ tail
  | .str value, tail => Ascii.singleQuote :: (value ++ Ascii.singleQuote :: tail)
  | .int value, tail => Decimal.ofInt value.toInt ++ tail
  | .var name, tail => name ++ tail
  | .call name args, tail =>
    name ++ Ascii.openParen :: Expr.renderEachOnto args (Ascii.closeParen :: tail)
  | .plus, tail => Ascii.plus :: tail
  | .minus, tail => Ascii.minus :: tail
  | .star, tail => Ascii.star :: tail
  | .slash, tail => Ascii.slash :: tail
  | .assign, tail => Ascii.equals :: tail
  | .missing, tail => tail

def Expr.renderOnto : List Term → Bytes → Bytes
  | [], tail => tail
  | term :: terms, tail =>
    term.renderOnto
      (if terms.isEmpty then tail else Ascii.space :: Expr.renderOnto terms tail)

def Expr.renderEachOnto : List (List Term) → Bytes → Bytes
  | [], tail => tail
  | expr :: exprs, tail =>
    Expr.renderOnto expr
      (if exprs.isEmpty then tail else Ascii.comma :: Ascii.space :: Expr.renderEachOnto exprs tail)

end

def Term.render (term : Term) : Bytes := term.renderOnto []

def Expr.render (expr : Expr) : Bytes := Expr.renderOnto expr []

def Expr.renderList (exprs : List Expr) : Bytes := Expr.renderEachOnto exprs []

mutual

theorem Term.renderOnto_append (term : Term) (tail more : Bytes) :
    term.renderOnto (tail ++ more) = term.renderOnto tail ++ more := by
  cases term with
  | call name args =>
    simp only [Term.renderOnto, ← List.cons_append, Expr.renderEachOnto_append args, List.append_assoc]
  | _ => simp [Term.renderOnto]

theorem Expr.renderOnto_append (expr : List Term) (tail more : Bytes) :
    Expr.renderOnto expr (tail ++ more) = Expr.renderOnto expr tail ++ more := by
  cases expr with
  | nil => simp [Expr.renderOnto]
  | cons term terms =>
    simp only [Expr.renderOnto]
    rw [← Term.renderOnto_append term]
    split
    · rfl
    · rw [List.cons_append, ← Expr.renderOnto_append terms]

theorem Expr.renderEachOnto_append (exprs : List (List Term)) (tail more : Bytes) :
    Expr.renderEachOnto exprs (tail ++ more) = Expr.renderEachOnto exprs tail ++ more := by
  cases exprs with
  | nil => simp [Expr.renderEachOnto]
  | cons expr exprs =>
    simp only [Expr.renderEachOnto]
    rw [← Expr.renderOnto_append expr]
    split
    · rfl
    · rw [List.cons_append, List.cons_append, ← Expr.renderEachOnto_append exprs]

end

theorem Term.renderOnto_eq (term : Term) (tail : Bytes) : term.renderOnto tail = term.render ++ tail :=
  term.renderOnto_append [] tail

theorem Expr.renderOnto_eq (expr : Expr) (tail : Bytes) :
    Expr.renderOnto expr tail = expr.render ++ tail := Expr.renderOnto_append expr [] tail

theorem Expr.renderEachOnto_eq (exprs : List Expr) (tail : Bytes) :
    Expr.renderEachOnto exprs tail = Expr.renderList exprs ++ tail :=
  Expr.renderEachOnto_append exprs [] tail

/-- The terms of an expression are separated by single spaces. -/
theorem Expr.render_eq_intercalate (expr : Expr) :
    expr.render = (text " ").intercalate (expr.map Term.render) := by
  induction expr with
  | nil => rfl
  | cons term terms ih =>
    cases terms with
    | nil => simp [Expr.render, Expr.renderOnto, Term.render]
    | cons next rest =>
      have hcons : Expr.render (term :: next :: rest) =
          term.renderOnto (Ascii.space :: Expr.render (next :: rest)) := rfl
      rw [hcons, Term.renderOnto_eq, ih, List.map_cons, List.map_cons, List.map_cons,
        List.intercalate_cons_cons, List.append_assoc]
      rfl

/-- The expressions in a list are separated by a comma and a space. -/
theorem Expr.renderList_eq_intercalate (exprs : List Expr) :
    Expr.renderList exprs = (text ", ").intercalate (exprs.map Expr.render) := by
  induction exprs with
  | nil => rfl
  | cons expr exprs ih =>
    cases exprs with
    | nil => simp [Expr.renderList, Expr.renderEachOnto, Expr.render]
    | cons next rest =>
      have hcons : Expr.renderList (expr :: next :: rest) =
          Expr.renderOnto expr (Ascii.comma :: Ascii.space :: Expr.renderList (next :: rest)) := rfl
      rw [hcons, Expr.renderOnto_eq, ih, List.map_cons, List.map_cons, List.map_cons,
        List.intercalate_cons_cons, List.append_assoc]
      rfl

/-- A call is its name and its arguments in parentheses. -/
theorem Term.render_call (name : Bytes) (args : List Expr) :
    (Term.call name args).render = name ++ text "(" ++ Expr.renderList args ++ text ")" := by
  have h : (Term.call name args).render =
      name ++ Ascii.openParen :: Expr.renderEachOnto args [Ascii.closeParen] := rfl
  rw [h, Expr.renderEachOnto_eq, List.append_assoc, List.append_assoc]
  rfl

/-- A statement as a line of text. -/
def Expr.renderStatement (expr : Expr) : Bytes := expr.render ++ text ";\n"

/-- The last statement of a function as a line of text. -/
def Expr.renderLast (expr : Expr) : Bytes :=
  if Bytes.occurs (text "return") expr.renderStatement then expr.renderStatement
  else text "return " ++ expr.renderStatement

/-- The statements of a function as lines of text. -/
def Node.renderBody : List Expr → Bytes
  | [] => []
  | [last] => last.renderLast
  | expr :: exprs => expr.renderStatement ++ Node.renderBody exprs

def Node.render : Node → Bytes
  | .function name params body =>
    text "function " ++ name ++ text "(" ++ Expr.renderList params ++ text ") \x7b\n" ++
      Node.renderBody (body.getD []) ++ text "\x7d\n"
  | .statements exprs => exprs.flatMap Expr.renderStatement
  | .missing => []

def Program.render (program : Program) : Bytes := program.flatMap Node.render

end Scriptlet
