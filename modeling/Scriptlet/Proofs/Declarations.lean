import Scriptlet.Outline

/-!
What an outline keeps of a program. A program announces declarations, one after the other: a function by each
definition, a global by each assignment at the top level. Of these the outline keeps the first of each
name, whatever its kind, and nothing else. That is carried through the program as an invariant of the
outline and the declarations announced so far.
-/

namespace Scriptlet

/-- What a program declares at one place. -/
inductive Declaration where
  | function (f : Signature)
  | global (name : Bytes)
  deriving DecidableEq, Repr

namespace Declaration

def name : Declaration → Bytes
  | function f => f.name
  | global name => name

def signature? : Declaration → Option Signature
  | function f => some f
  | global _ => none

def global? : Declaration → Option Bytes
  | function _ => none
  | global name => some name

/-- The declarations whose name is in none before them. -/
def firsts (events : List Declaration) : List Declaration :=
  (events.zipIdx.filter fun e => (events.take e.2).all (·.name != e.1.name)).map Prod.fst

theorem firsts_concat (events : List Declaration) (d : Declaration) :
    firsts (events ++ [d]) = firsts events ++ if ∃ e ∈ events, e.name = d.name then [] else [d] := by
  have hbefore : (events.zipIdx.filter fun e => ((events ++ [d]).take e.2).all (·.name != e.1.name)) =
      events.zipIdx.filter fun e => (events.take e.2).all (·.name != e.1.name) := by
    apply List.filter_congr
    intro e he
    rw [List.take_append_of_le_length (Nat.le_of_lt (List.snd_lt_of_mem_zipIdx he))]
  have hlast : (([d].zipIdx events.length).filter fun e =>
      ((events ++ [d]).take e.2).all (·.name != e.1.name)).map Prod.fst =
        if ∃ e ∈ events, e.name = d.name then [] else [d] := by
    rw [List.zipIdx_singleton]
    by_cases h : ∃ e ∈ events, e.name = d.name
    · obtain ⟨e, he, heq⟩ := h
      rw [if_pos ⟨e, he, heq⟩, List.filter_cons_of_neg, List.filter_nil, List.map_nil]
      simpa using ⟨e, he, heq⟩
    · rw [if_neg h, List.filter_cons_of_pos, List.filter_nil, List.map_singleton]
      simpa using h
  rw [firsts, List.zipIdx_append, List.filter_append, List.map_append, Nat.zero_add, hbefore, hlast]
  rfl

end Declaration

/-- Parameters go by these names: each by that of the variable it begins with, or else by the empty name. -/
inductive GoBy : List Expr → List Bytes → Prop where
  | nil : GoBy [] []
  | var {params : List Expr} {names : List Bytes} (name : Bytes) (terms : List Term) (h : GoBy params names) :
      GoBy ((.var name :: terms) :: params) (name :: names)
  | unnamed {param : Expr} {params : List Expr} {names : List Bytes}
      (hparam : ∀ name terms, param ≠ .var name :: terms) (h : GoBy params names) :
      GoBy (param :: params) ([] :: names)

/-- The declarations that a program announces, in its order: the definition of a function announces the function,
a statement that assigns to a variable announces a global, and nothing else announces anything. -/
inductive Program.Announces : Program → List Declaration → Prop where
  | nil : Announces [] []
  | missing {p : Program} {events : List Declaration} (h : Announces p events) : Announces (.missing :: p) events
  | function {p : Program} {events : List Declaration} (name : Bytes) {params : List Expr} {names : List Bytes}
      (body : Option (List Expr)) (hparams : GoBy params names) (h : Announces p events) :
      Announces (.function name params body :: p) (.function ⟨name, names⟩ :: events)
  | noStatement {p : Program} {events : List Declaration} (h : Announces p events) :
      Announces (.statements [] :: p) events
  | assignment {p : Program} {exprs : List Expr} {events : List Declaration} (name : Bytes) (terms : List Term)
      (h : Announces (.statements exprs :: p) events) :
      Announces (.statements ((.var name :: .assign :: terms) :: exprs) :: p) (.global name :: events)
  | other {p : Program} {expr : Expr} {exprs : List Expr} {events : List Declaration}
      (hexpr : ∀ name terms, expr ≠ .var name :: .assign :: terms)
      (h : Announces (.statements exprs :: p) events) : Announces (.statements (expr :: exprs) :: p) events

/-! ### Every program announces one list of declarations -/

theorem goBy_iff {params : List Expr} {names : List Bytes} :
    GoBy params names ↔ names = params.map Expr.paramName := by
  constructor
  · intro h
    induction h with
    | nil => rfl
    | var name terms _ ih => rw [ih]; rfl
    | unnamed hparam _ ih =>
        rw [ih, List.map_cons, Expr.paramName]
        exact hparam
  · rintro rfl
    induction params with
    | nil => exact .nil
    | cons param params ih =>
        rw [List.map_cons]
        fun_cases Expr.paramName param with
        | case1 name terms => exact .var name terms ih
        | case2 => exact .unnamed ‹_› ih

theorem assigned?_eq_none {expr : Expr} (h : ∀ name terms, expr ≠ .var name :: .assign :: terms) :
    expr.assigned? = none := by
  rw [Expr.assigned?]
  exact h

/-- The declarations that a node announces. -/
def Node.announced : Node → List Declaration
  | .function name params _ => [.function ⟨name, params.map Expr.paramName⟩]
  | .statements exprs => exprs.filterMap fun expr => expr.assigned?.map .global
  | .missing => []

theorem Program.announces_statements {p : Program} {events : List Declaration} (h : p.Announces events)
    (exprs : List Expr) : Announces (.statements exprs :: p) ((Node.statements exprs).announced ++ events) := by
  induction exprs with
  | nil => exact .noStatement h
  | cons expr exprs ih =>
      rw [Node.announced, List.filterMap_cons]
      fun_cases Expr.assigned? expr with
      | case1 name terms => exact .assignment name terms ih
      | case2 => exact .other ‹_› ih

theorem Program.announces_iff {p : Program} {events : List Declaration} :
    p.Announces events ↔ events = p.flatMap Node.announced := by
  constructor
  · intro h
    induction h with
    | nil => rfl
    | missing _ ih => exact ih
    | function name body hparams _ ih =>
        rw [ih, goBy_iff.mp hparams]
        rfl
    | noStatement _ ih => exact ih
    | assignment name terms _ ih =>
        rw [ih]
        rfl
    | other hexpr _ ih =>
        rw [ih, List.flatMap_cons, List.flatMap_cons, Node.announced, Node.announced, List.filterMap_cons,
          assigned?_eq_none hexpr]
        rfl
  · rintro rfl
    induction p with
    | nil => exact .nil
    | cons node p ih =>
        cases node with
        | function name params body => exact .function name body (goBy_iff.mpr rfl) ih
        | statements exprs => exact announces_statements ih exprs
        | missing => exact .missing ih

/-! ### What the outline keeps -/

namespace Outline

/-- Declares what is announced, unless its name is taken. -/
def declare (o : Outline) : Declaration → Outline
  | .function f => o.addFunction f
  | .global name => o.addGlobal name

/-- The outline takes in what is announced and nothing else. -/
theorem foldl_addNode {p : Program} {events : List Declaration} (h : p.Announces events) (o : Outline) :
    p.foldl addNode o = events.foldl declare o := by
  induction h generalizing o with
  | nil => rfl
  | missing _ ih => exact ih o
  | function name body hparams _ ih =>
      rw [goBy_iff.mp hparams]
      exact ih _
  | noStatement _ ih => exact ih o
  | assignment name terms _ ih => exact ih (o.addGlobal name)
  | @other p expr exprs events hexpr _ ih =>
      have hsame : o.addStatement expr = o := by simp only [addStatement, assigned?_eq_none hexpr]
      rw [← ih o, List.foldl_cons, List.foldl_cons, addNode, List.foldl_cons, hsame]
      rfl

/-- The outline after these declarations were announced. -/
structure Keeps (o : Outline) (events : List Declaration) : Prop where
  functions : o.functions = (Declaration.firsts events).filterMap Declaration.signature?
  globals : o.globals = (Declaration.firsts events).filterMap Declaration.global?
  mem_names : ∀ name, name ∈ o.names ↔ ∃ e ∈ events, e.name = name

theorem Keeps.empty : Outline.empty.Keeps [] where
  functions := rfl
  globals := rfl
  mem_names := by simp [names, Outline.empty]

/-- A declaration of a name that is taken changes nothing. -/
theorem declare_of_mem {o : Outline} {d : Declaration} (h : d.name ∈ o.names) : o.declare d = o := by
  have htaken := declares_eq_true_iff.mpr h
  cases d with
  | function f => exact if_pos htaken
  | global name => exact if_pos htaken

/-- A declaration of a name that is not taken is put behind those of its kind. -/
theorem declare_of_not_mem {o : Outline} {d : Declaration} (h : d.name ∉ o.names) :
    o.declare d = ⟨o.globals ++ d.global?.toList, o.functions ++ d.signature?.toList⟩ := by
  have hfree : ¬ o.declares d.name = true := mt declares_eq_true_iff.mp h
  cases d with
  | function f =>
      have hadd : o.addFunction f = ⟨o.globals, o.functions ++ [f]⟩ := if_neg hfree
      rw [declare, hadd, Declaration.global?, Option.toList_none, List.append_nil]
      rfl
  | global name =>
      have hadd : o.addGlobal name = ⟨o.globals ++ [name], o.functions⟩ := if_neg hfree
      rw [declare, hadd, Declaration.signature?, Option.toList_none, List.append_nil]
      rfl

theorem names_append (o : Outline) (d : Declaration) :
    (names ⟨o.globals ++ d.global?.toList, o.functions ++ d.signature?.toList⟩).Perm (d.name :: o.names) := by
  cases d with
  | function f =>
      have hlast : names ⟨o.globals ++ [], o.functions ++ [f]⟩ = o.names ++ [f.name] := by simp [names]
      exact hlast ▸ List.perm_append_singleton ..
  | global name =>
      have hmiddle : names ⟨o.globals ++ [name], o.functions ++ []⟩ =
          o.globals ++ name :: o.functions.map Signature.name := by simp [names]
      exact hmiddle ▸ List.perm_middle

theorem Keeps.declare {o : Outline} {events : List Declaration} (h : o.Keeps events) (d : Declaration) :
    (o.declare d).Keeps (events ++ [d]) := by
  have hannounced : ∀ name, (∃ e ∈ events ++ [d], e.name = name) ↔ name = d.name ∨ name ∈ o.names := by
    intro name
    rw [h.mem_names]
    simp only [List.mem_append, List.mem_singleton, or_and_right, exists_or, exists_eq_left]
    rw [or_comm, eq_comm]
  by_cases hmem : d.name ∈ o.names
  · have hfirsts : Declaration.firsts (events ++ [d]) = Declaration.firsts events := by
      rw [Declaration.firsts_concat, if_pos ((h.mem_names _).mp hmem), List.append_nil]
    rw [declare_of_mem hmem]
    refine ⟨hfirsts ▸ h.functions, hfirsts ▸ h.globals, fun name => ?_⟩
    rw [hannounced]
    exact ⟨.inr, fun hname => hname.elim (fun heq => heq ▸ hmem) id⟩
  · have hfirsts : Declaration.firsts (events ++ [d]) = Declaration.firsts events ++ [d] := by
      rw [Declaration.firsts_concat, if_neg (mt (h.mem_names _).mpr hmem)]
    have hperm := names_append o d
    rw [declare_of_not_mem hmem]
    refine ⟨?_, ?_, fun name => ?_⟩
    · rw [hfirsts, List.filterMap_append, ← h.functions]
      cases d <;> rfl
    · rw [hfirsts, List.filterMap_append, ← h.globals]
      cases d <;> rfl
    · rw [hperm.mem_iff, List.mem_cons, hannounced]

theorem Keeps.foldl_declare {o : Outline} {before : List Declaration} (h : o.Keeps before)
    (events : List Declaration) : (events.foldl Outline.declare o).Keeps (before ++ events) := by
  induction events generalizing o before with
  | nil => rwa [List.append_nil]
  | cons d events ih =>
      rw [List.append_cons]
      exact ih (h.declare d)

end Outline

/-- The outline of a program keeps, of the declarations that the program announces, exactly the first of each
name, each kind in the order of the program. So no name is declared twice, and every announced name is
declared. -/
theorem Program.outline_keeps_firsts (p : Program) :
    ∃ events, p.Announces events ∧ (∀ events', p.Announces events' → events' = events) ∧
      p.outline.functions = (Declaration.firsts events).filterMap Declaration.signature? ∧
      p.outline.globals = (Declaration.firsts events).filterMap Declaration.global? ∧
      (p.outline.globals ++ p.outline.functions.map Signature.name).Nodup ∧
      ∀ e ∈ events, e.name ∈ p.outline.globals ++ p.outline.functions.map Signature.name := by
  have hannounces : p.Announces (p.flatMap Node.announced) := announces_iff.mpr rfl
  have hkeeps : p.outline.Keeps (p.flatMap Node.announced) := by
    rw [Program.outline, Outline.foldl_addNode hannounces]
    exact Outline.Keeps.empty.foldl_declare _
  refine ⟨_, hannounces, fun _ => announces_iff.mp, hkeeps.functions, hkeeps.globals, p.nodup_names_outline, ?_⟩
  intro e he
  exact (hkeeps.mem_names _).mpr ⟨e, he, rfl⟩

example : Program.outline [.statements [[.var (text "f"), .assign, .nil], [.var (text "g")]],
      .function (text "f") [] none, .missing, .function (text "g") [[.var (text "a"), .assign, .nil], [.nil]] none,
      .statements [[.var (text "g"), .assign], [.var (text "h"), .assign]]] =
    ⟨[text "f", text "h"], [⟨text "g", [text "a", []]⟩]⟩ := by
  decide

end Scriptlet
