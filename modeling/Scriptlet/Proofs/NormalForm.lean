import Scriptlet.Proofs.Built

/-!
Programs up to what their script text tells. The text has one spelling for nil and for the name `null`, it
does not show an argument that is empty and alone, and it shows the value of a function as a statement that
begins with `return`. The normal form of a program makes these choices in the program itself. The text of a
program is that of the lines of its normal form, written down as they are.
-/

namespace Scriptlet

/-! ### Normal forms -/

/-- Arguments, of which one that is empty and alone does not count. -/
def Expr.dropLoneEmpty : List Expr → List Expr
  | [[]] => []
  | args => args

mutual

/-- The term with the name `null` for nil and no lone empty argument, at every depth. -/
def Term.normalize : Term → Term
  | .nil => .var (text "null")
  | .str value => .str value
  | .int value => .int value
  | .var name => .var name
  | .call name args => .call name (Expr.dropLoneEmpty (Expr.normalizeEach args))
  | .plus => .plus
  | .minus => .minus
  | .star => .star
  | .slash => .slash
  | .assign => .assign
  | .missing => .missing

def Expr.normalize : List Term → List Term
  | [] => []
  | term :: terms => term.normalize :: Expr.normalize terms

def Expr.normalizeEach : List (List Term) → List (List Term)
  | [] => []
  | expr :: exprs => Expr.normalize expr :: Expr.normalizeEach exprs

end

/-- The statement whose value a function returns: it begins with the name `return`, unless its text mentions
that already. -/
def Expr.normalizeLast (expr : Expr) : Expr :=
  if Bytes.occurs (text "return") expr.renderStatement then Expr.normalize expr
  else .var (text "return") :: Expr.normalize expr

def Node.normalizeBody : List Expr → List Expr
  | [] => []
  | [last] => [last.normalizeLast]
  | expr :: exprs => Expr.normalize expr :: Node.normalizeBody exprs

def Node.normalize : Node → Node
  | .function name params body => .function name (Expr.normalizeEach params) (body.map Node.normalizeBody)
  | .statements exprs => .statements (Expr.normalizeEach exprs)
  | .missing => .missing

def Program.normalize (p : Program) : Program := p.map Node.normalize

/-! ### Lines -/

inductive Line where
  | opening (name : Bytes) (params : List Expr)
  | statement (expr : Expr)
  | closing

/-- The opening line of a function reads like an expression: the name `function` and a call. -/
def Line.renderOnto : Line → Bytes → Bytes
  | .opening name params, tail =>
    Expr.renderOnto [.var (text "function"), .call name params] (text " \x7b\n" ++ tail)
  | .statement expr, tail => Expr.renderOnto expr (text ";\n" ++ tail)
  | .closing, tail => text "\x7d\n" ++ tail

/-- Lines one below the other. -/
def Line.renderAllOnto (ls : List Line) (tail : Bytes) : Bytes := ls.foldr Line.renderOnto tail

def Node.lines : Node → List Line
  | .function name params body => .opening name params :: ((body.getD []).map .statement ++ [.closing])
  | .statements exprs => exprs.map .statement
  | .missing => []

def Program.lines (p : Program) : List Line := p.flatMap Node.lines

theorem Line.renderAllOnto_append (ls ms : List Line) (tail : Bytes) :
    renderAllOnto (ls ++ ms) tail = renderAllOnto ls (renderAllOnto ms tail) := List.foldr_append ..

theorem Expr.normalize_eq_map (expr : Expr) : Expr.normalize expr = expr.map Term.normalize := by
  induction expr with
  | nil => rfl
  | cons t ts ih => exact congrArg (t.normalize :: ·) ih

theorem Expr.normalizeEach_eq_map (exprs : List Expr) :
    Expr.normalizeEach exprs = exprs.map Expr.normalize := by
  induction exprs with
  | nil => rfl
  | cons e es ih => exact congrArg (Expr.normalize e :: ·) ih

/-! ### The text of a normal form -/

theorem Expr.renderEachOnto_dropLoneEmpty (args : List Expr) (tail : Bytes) :
    Expr.renderEachOnto (dropLoneEmpty args) tail = Expr.renderEachOnto args tail := by
  unfold dropLoneEmpty
  split <;> rfl

mutual

theorem Term.renderOnto_normalize (t : Term) (tail : Bytes) :
    t.normalize.renderOnto tail = t.renderOnto tail := by
  cases t with
  | call name args =>
      simp only [Term.normalize, Term.renderOnto]
      rw [Expr.renderEachOnto_dropLoneEmpty, Expr.renderEachOnto_normalizeEach args]
  | _ => rfl

theorem Expr.renderOnto_normalize (expr : List Term) (tail : Bytes) :
    Expr.renderOnto (Expr.normalize expr) tail = Expr.renderOnto expr tail := by
  cases expr with
  | nil => rfl
  | cons t ts =>
      have hempty : (Expr.normalize ts).isEmpty = ts.isEmpty := by cases ts <;> rfl
      simp only [Expr.normalize, Expr.renderOnto]
      rw [hempty, Term.renderOnto_normalize t, Expr.renderOnto_normalize ts]

theorem Expr.renderEachOnto_normalizeEach (exprs : List (List Term)) (tail : Bytes) :
    Expr.renderEachOnto (Expr.normalizeEach exprs) tail = Expr.renderEachOnto exprs tail := by
  cases exprs with
  | nil => rfl
  | cons e es =>
      have hempty : (Expr.normalizeEach es).isEmpty = es.isEmpty := by cases es <;> rfl
      simp only [Expr.normalizeEach, Expr.renderEachOnto]
      rw [hempty, Expr.renderOnto_normalize e, Expr.renderEachOnto_normalizeEach es]

end

theorem Line.renderOnto_statement (expr : Expr) (tail : Bytes) :
    (Line.statement (Expr.normalize expr)).renderOnto tail = expr.renderStatement ++ tail := by
  show Expr.renderOnto (Expr.normalize expr) (text ";\n" ++ tail) = expr.renderStatement ++ tail
  rw [Expr.renderOnto_normalize, Expr.renderOnto_eq, Expr.renderStatement, List.append_assoc]

theorem Line.renderOnto_last {expr : Expr} (hne : expr ≠ []) (tail : Bytes) :
    (Line.statement expr.normalizeLast).renderOnto tail = expr.renderLast ++ tail := by
  unfold Expr.normalizeLast Expr.renderLast
  split
  · exact renderOnto_statement expr tail
  · obtain ⟨t, ts, rfl⟩ := List.exists_cons_of_ne_nil hne
    have hreturn : (Line.statement (.var (text "return") :: Expr.normalize (t :: ts))).renderOnto tail =
        text "return " ++ (Line.statement (Expr.normalize (t :: ts))).renderOnto tail := rfl
    rw [hreturn, renderOnto_statement, List.append_assoc]

theorem Line.renderAllOnto_statements (exprs : List Expr) (tail : Bytes) :
    renderAllOnto ((Expr.normalizeEach exprs).map .statement) tail =
      exprs.flatMap Expr.renderStatement ++ tail := by
  induction exprs with
  | nil => rfl
  | cons e es ih =>
      show (Line.statement (Expr.normalize e)).renderOnto
        (renderAllOnto ((Expr.normalizeEach es).map .statement) tail) = _
      rw [ih, renderOnto_statement, List.flatMap_cons, List.append_assoc]

theorem Line.renderAllOnto_body {body : List Expr} (hne : ∀ e ∈ body, e ≠ []) (tail : Bytes) :
    renderAllOnto ((Node.normalizeBody body).map .statement) tail = Node.renderBody body ++ tail := by
  fun_induction Node.normalizeBody body with
  | case1 => rfl
  | case2 last => exact renderOnto_last (hne last (List.mem_cons_self ..)) tail
  | case3 e es hmore ih =>
      rw [List.forall_mem_cons] at hne
      show (Line.statement (Expr.normalize e)).renderOnto
        (renderAllOnto ((Node.normalizeBody es).map .statement) tail) = _
      rw [ih hne.2, renderOnto_statement, ← List.append_assoc]
      congr 1
      cases es with
      | nil => exact absurd rfl hmore
      | cons e' es => rfl

theorem Line.renderOnto_opening (name : Bytes) (params : List Expr) (tail : Bytes) :
    (Line.opening name (Expr.normalizeEach params)).renderOnto tail =
      text "function " ++ name ++ text "(" ++ Expr.renderList params ++ text ") \x7b\n" ++ tail := by
  show text "function" ++ Ascii.space :: (name ++ Ascii.openParen ::
    Expr.renderEachOnto (Expr.normalizeEach params) (Ascii.closeParen :: (text " \x7b\n" ++ tail))) = _
  rw [Expr.renderEachOnto_normalizeEach, Expr.renderEachOnto_eq]
  simp only [List.append_assoc]
  rfl

theorem Node.render_append {P : Term → Prop} {n : Node} (h : n.Built P) (tail : Bytes) :
    n.render ++ tail = Line.renderAllOnto n.normalize.lines tail := by
  cases h with
  | @function name params body _ _ hbody =>
      have hlines : Line.renderAllOnto (Node.normalize (.function name params (some body))).lines tail =
          (Line.opening name (Expr.normalizeEach params)).renderOnto
            (Line.renderAllOnto ((Node.normalizeBody body).map .statement ++ [.closing]) tail) := rfl
      rw [hlines, Line.renderOnto_opening, Line.renderAllOnto_append,
        Line.renderAllOnto_body fun e he => (hbody e he).1]
      simp only [Node.render, Option.getD_some, List.append_assoc]
      rfl
  | statements hne hes => exact (Line.renderAllOnto_statements _ tail).symm

/-- The text of a program is that of the lines of its normal form. -/
theorem Program.render_eq_lines {P : Term → Prop} {p : Program} (h : p.Built P) :
    p.render = Line.renderAllOnto p.normalize.lines [] := by
  induction h with
  | nil => rfl
  | @cons n p hn _ _ ih =>
      have hlines : Program.lines (Program.normalize (n :: p)) = n.normalize.lines ++ p.normalize.lines := rfl
      calc Program.render (n :: p) = n.render ++ p.render := List.flatMap_cons ..
        _ = Line.renderAllOnto n.normalize.lines (Line.renderAllOnto p.normalize.lines []) := by
              rw [ih, Node.render_append hn]
        _ = Line.renderAllOnto (Program.lines (Program.normalize (n :: p))) [] := by
              rw [hlines, Line.renderAllOnto_append]

end Scriptlet
