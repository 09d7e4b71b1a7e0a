import Scriptlet.Program.Basic
import Scriptlet.Text.Decimal

/-!
The outline of a program: the functions it defines, with the names of their parameters, and the names it
assigns to at the top level. Functions and globals share one set of names, and the first declaration of
a name is the one that counts.

As text it is a module in which every value is an opaque pointer: globals without a value, then functions
without a body. A name is written bare when it cannot be taken for anything else, in quotes with escapes when
it can, and as a number when it is empty.
-/

namespace Scriptlet

/-- A declared function: its name and the names of its parameters. -/
structure Signature where
  name : Bytes
  params : List Bytes
  deriving DecidableEq, Repr

/-- The declared globals and functions, each in the order of declaration. -/
structure Outline where
  globals : List Bytes
  functions : List Signature
  deriving DecidableEq, Repr

/-- The name of a parameter: that of the variable it begins with, or the empty name. -/
def Expr.paramName : Expr → Bytes
  | .var name :: _ => name
  | _ => []

/-- The name that a statement assigns to. -/
def Expr.assigned? : Expr → Option Bytes
  | .var name :: .assign :: _ => some name
  | _ => none

namespace Outline

def empty : Outline := ⟨[], []⟩

def declares (o : Outline) (name : Bytes) : Bool :=
  o.globals.contains name || o.functions.any (·.name == name)

/-- Declares a global unless its name is taken. -/
def addGlobal (o : Outline) (name : Bytes) : Outline :=
  if o.declares name then o else { o with globals := o.globals ++ [name] }

/-- Declares a function unless its name is taken. -/
def addFunction (o : Outline) (f : Signature) : Outline :=
  if o.declares f.name then o else { o with functions := o.functions ++ [f] }

def addStatement (o : Outline) (expr : Expr) : Outline :=
  match expr.assigned? with
  | some name => o.addGlobal name
  | none => o

def addNode (o : Outline) : Node → Outline
  | .function name params _ => o.addFunction ⟨name, params.map Expr.paramName⟩
  | .statements exprs => exprs.foldl addStatement o
  | .missing => o

end Outline

def Program.outline (program : Program) : Outline := program.foldl Outline.addNode .empty

namespace Outline

/-! ### No name is declared twice -/

/-- The names of the globals and the functions. -/
def names (o : Outline) : List Bytes := o.globals ++ o.functions.map Signature.name

theorem declares_eq_true_iff {o : Outline} {name : Bytes} : o.declares name = true ↔ name ∈ o.names := by
  simp [declares, names]

theorem nodup_addGlobal {o : Outline} (h : o.names.Nodup) (name : Bytes) : (o.addGlobal name).names.Nodup := by
  unfold addGlobal
  split
  · exact h
  · rename_i hfree
    have hnames : names { o with globals := o.globals ++ [name] } =
        o.globals ++ name :: o.functions.map Signature.name := by simp [names]
    rw [hnames, List.perm_middle.nodup_iff, List.nodup_cons]
    exact ⟨mt declares_eq_true_iff.mpr hfree, h⟩

theorem nodup_addFunction {o : Outline} (h : o.names.Nodup) (f : Signature) : (o.addFunction f).names.Nodup := by
  unfold addFunction
  split
  · exact h
  · rename_i hfree
    have hnames : names { o with functions := o.functions ++ [f] } = o.names ++ [f.name] := by simp [names]
    rw [hnames, (List.perm_append_singleton _ _).nodup_iff, List.nodup_cons]
    exact ⟨mt declares_eq_true_iff.mpr hfree, h⟩

theorem nodup_foldl_addStatement {o : Outline} (h : o.names.Nodup) (exprs : List Expr) :
    (exprs.foldl addStatement o).names.Nodup := by
  induction exprs generalizing o with
  | nil => exact h
  | cons expr exprs ih =>
      apply ih
      unfold addStatement
      split
      · exact nodup_addGlobal h _
      · exact h

theorem nodup_foldl_addNode {o : Outline} (h : o.names.Nodup) (p : Program) : (p.foldl addNode o).names.Nodup := by
  induction p generalizing o with
  | nil => exact h
  | cons node p ih =>
      apply ih
      cases node with
      | function name params body => exact nodup_addFunction h _
      | statements exprs => exact nodup_foldl_addStatement h exprs
      | missing => exact h

end Outline

theorem Program.nodup_names_outline (p : Program) : p.outline.names.Nodup :=
  Outline.nodup_foldl_addNode (o := .empty) List.nodup_nil p

namespace Outline

/-! ### Names as text -/

/-- The upper-case hexadecimal digit of a number below sixteen. -/
def hexDigit (n : Nat) : UInt8 := if n < 10 then 0x30 + n.toUInt8 else 0x37 + n.toUInt8

def isBareByte (b : UInt8) : Bool :=
  Ascii.isLetter b || Ascii.isDigit b || b == 0x24 || b == Ascii.minus || b == Ascii.dot ||
    b == Ascii.underscore

def quoteByte (b : UInt8) : Bytes :=
  if 0x20 ≤ b && b ≤ 0x7E && b != Ascii.doubleQuote && b != Ascii.backslash then [b]
  else [Ascii.backslash, hexDigit (b.toNat / 16), hexDigit (b.toNat % 16)]

def quoteName (name : Bytes) : Bytes :=
  Ascii.doubleQuote :: (name.flatMap quoteByte ++ [Ascii.doubleQuote])

/-- A name that is not empty. A number is put in quotes, since a bare number stands for an empty name. -/
def renderName (name : Bytes) : Bytes :=
  if Decimal.isUInt64 name then quoteName name
  else if name.all isBareByte then name
  else quoteName name

/-- A name, or the number that stands for it if it is empty. -/
def label (number : Nat) (name : Bytes) : Bytes :=
  if name.isEmpty then Decimal.ofNat number else renderName name

/-- Names of which the empty ones are numbered in order, from `next` on. -/
def labels : (next : Nat) → List Bytes → List Bytes
  | _, [] => []
  | next, name :: names => label next name :: labels (if name.isEmpty then next + 1 else next) names

/-- The name of a global or a function. One that is empty is number zero. -/
def globalName (name : Bytes) : Bytes := text "@" ++ label 0 name

theorem label_of_ne_nil {name : Bytes} (h : name ≠ []) (number : Nat) : label number name = renderName name :=
  if_neg (mt List.isEmpty_iff.mp h)

theorem labels_of_not_mem {names : List Bytes} (h : [] ∉ names) (next : Nat) :
    labels next names = names.map (label 0) := by
  induction names generalizing next with
  | nil => rfl
  | cons name names ih =>
      rw [List.mem_cons, not_or] at h
      rw [labels, ih h.2, List.map_cons, label_of_ne_nil (Ne.symm h.1), label_of_ne_nil (Ne.symm h.1)]

theorem labels_of_nodup {names : List Bytes} (h : names.Nodup) : labels 0 names = names.map (label 0) := by
  induction names with
  | nil => rfl
  | cons name names ih =>
      obtain ⟨hname, hnames⟩ := List.nodup_cons.mp h
      rw [labels, List.map_cons]
      cases name with
      | nil => rw [labels_of_not_mem hname]
      | cons b name => exact congrArg _ (ih hnames)

/-- Globals and functions are numbered together, but of the names of a program at most one is empty: the number
is zero wherever there is one. -/
theorem labels_names_outline (p : Program) :
    (labels 0 p.outline.names).map (text "@" ++ ·) = p.outline.names.map globalName := by
  rw [labels_of_nodup p.nodup_names_outline, List.map_map]
  rfl

/-- The parameters of a function; they are numbered from `next` on. -/
def renderParams (next : Nat) (names : List Bytes) : List Bytes := (labels next names).map (text "i8* %" ++ ·)

/-! ### Outlines as text -/

def renderGlobal (name : Bytes) : Bytes := globalName name ++ text " = global i8* null\n"

def renderFunction (f : Signature) : Bytes :=
  text "declare i8* " ++ globalName f.name ++ text "(" ++
    (text ", ").intercalate (renderParams 0 f.params) ++ text ")\n"

/-- The blank line between the two groups, if there are two. -/
def groupSeparator (o : Outline) : Bytes :=
  if o.globals.isEmpty || o.functions.isEmpty then [] else text "\n"

def render (o : Outline) : Bytes :=
  o.globals.flatMap renderGlobal ++ o.groupSeparator ++
    (text "\n").intercalate (o.functions.map renderFunction)

end Outline

end Scriptlet
