import Scriptlet.Text.Quoted

/-!
Command-line flags. A flag is written with one or two dashes and may have its value behind an equals sign.
A switch is on without a value; a setting takes the next argument if it has none. Flags end at the first
argument that is none, or behind two dashes alone.
-/

namespace Scriptlet

inductive FlagKind where
  | switch
  | setting
  deriving DecidableEq, Repr

/-- The value of a flag that was given. -/
inductive FlagValue where
  | on (value : Bool)
  | set (value : Bytes)
  deriving DecidableEq, Repr

inductive FlagError where
  | help
  | badSyntax (arg : Bytes)
  | undefined (name : Bytes)
  | needsArgument (name : Bytes)
  | badSwitch (name value : Bytes)
  deriving DecidableEq, Repr

/-- The line that tells of the error; asking for help is none. -/
def FlagError.message? : FlagError → Option Bytes
  | help => none
  | badSyntax arg => some (text "bad flag syntax: " ++ arg)
  | undefined name => some (text "flag provided but not defined: -" ++ name)
  | needsArgument name => some (text "flag needs an argument: -" ++ name)
  | badSwitch name value =>
    some (text "invalid boolean value " ++ quoted value ++ text " for -" ++ name ++ text ": parse error")

namespace Flags

/-- What an argument is. -/
inductive Argument where
  | operand
  | terminator
  | malformed
  | flag (name : Bytes) (value : Option Bytes)
  deriving DecidableEq, Repr

/-- The name and the value of a flag without its dashes. An equals sign cannot be the first byte. -/
def splitValue (flag : Bytes) : Bytes × Option Bytes :=
  match flag with
  | [] => ([], none)
  | first :: rest =>
    match rest.dropWhile (· != Ascii.equals) with
    | [] => (flag, none)
    | _ :: value => (first :: rest.takeWhile (· != Ascii.equals), some value)

/-- What follows the dashes of an argument that begins with one. -/
def flagOf (flag : Bytes) : Argument :=
  if flag = [] ∨ flag.head? = some Ascii.minus ∨ flag.head? = some Ascii.equals then .malformed
  else .flag (splitValue flag).1 (splitValue flag).2

def classify (arg : Bytes) : Argument :=
  match arg with
  | [] => .operand
  | first :: rest =>
    if first != Ascii.minus || rest = [] then .operand
    else if rest = [Ascii.minus] then .terminator
    else if rest.head? = some Ascii.minus then flagOf rest.tail
    else flagOf rest

def onWords : List Bytes := [text "1", text "t", text "T", text "true", text "TRUE", text "True"]

def offWords : List Bytes := [text "0", text "f", text "F", text "false", text "FALSE", text "False"]

/-- The state that the value of a switch means; a switch without a value is on. -/
def switchState? : Option Bytes → Option Bool
  | none => some true
  | some value =>
    if onWords.contains value then some true
    else if offWords.contains value then some false
    else none

/-- Flags with their values, in order, and the arguments behind them. -/
abbrev Parsed := List (Bytes × FlagValue) × List Bytes

def prepend (name : Bytes) (value : FlagValue) (parsed : Except FlagError Parsed) : Except FlagError Parsed :=
  parsed.map fun p => ((name, value) :: p.1, p.2)

/-- The flags and the operands of arguments. -/
def parse (known : List (Bytes × FlagKind)) : List Bytes → Except FlagError Parsed
  | [] => .ok ([], [])
  | arg :: rest =>
    match classify arg with
    | .operand => .ok ([], arg :: rest)
    | .terminator => .ok ([], rest)
    | .malformed => .error (.badSyntax arg)
    | .flag name value =>
      match known.lookup name with
      | none =>
        if name = text "help" ∨ name = text "h" then .error .help else .error (.undefined name)
      | some .switch =>
        match switchState? value with
        | some state => prepend name (.on state) (parse known rest)
        | none => .error (.badSwitch name (value.getD []))
      | some .setting =>
        match value, rest with
        | some value, rest => prepend name (.set value) (parse known rest)
        | none, value :: rest => prepend name (.set value) (parse known rest)
        | none, [] => .error (.needsArgument name)

def last? (flags : List (Bytes × FlagValue)) (name : Bytes) : Option FlagValue := flags.reverse.lookup name

/-- Whether a switch is on; it is off unless it is given. -/
def isOn (flags : List (Bytes × FlagValue)) (name : Bytes) : Bool := last? flags name == some (.on true)

/-- The value of a setting; it is empty unless it is given. -/
def valueOf (flags : List (Bytes × FlagValue)) (name : Bytes) : Bytes :=
  match last? flags name with
  | some (.set value) => value
  | _ => []

end Flags

end Scriptlet
