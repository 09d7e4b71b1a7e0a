import Scriptlet.Text.Bytes

/-!
Programs. A program is a sequence of nodes, each a function definition or a list of statements. An
expression is a flat run of terms in source order; operators are terms of their own and are not grouped
with their operands. Terms, bodies and nodes may be missing in a program that did not come from source.
-/

namespace Scriptlet

inductive Term where
  | nil
  | str (value : Bytes)
  | int (value : Int64)
  | var (name : Bytes)
  | call (name : Bytes) (args : List (List Term))
  | plus
  | minus
  | star
  | slash
  | assign
  | missing
  deriving Inhabited, Repr

/-- An expression: its terms in source order. -/
abbrev Expr := List Term

inductive Node where
  | function (name : Bytes) (params : List Expr) (body : Option (List Expr))
  | statements (exprs : List Expr)
  | missing
  deriving Repr

/-- A program: its nodes in source order. -/
abbrev Program := List Node

mutual

/-- Whether no term is missing in a term. -/
def Term.isComplete : Term → Bool
  | .call _ args => Expr.areComplete args
  | .missing => false
  | _ => true

def Expr.isComplete : List Term → Bool
  | [] => true
  | term :: terms => term.isComplete && Expr.isComplete terms

def Expr.areComplete : List (List Term) → Bool
  | [] => true
  | expr :: exprs => Expr.isComplete expr && Expr.areComplete exprs

end

/-- Whether no term is missing in a node; a node or a body as a whole may be missing. -/
def Node.isComplete : Node → Bool
  | .function _ params body => Expr.areComplete params && Expr.areComplete (body.getD [])
  | .statements exprs => Expr.areComplete exprs
  | .missing => true

def Program.isComplete (program : Program) : Bool := program.all Node.isComplete

end Scriptlet
