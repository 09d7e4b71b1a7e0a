import Scriptlet.Proofs.Grammar

/-!
Calls without the stack. While a call is read, the calls around it wait on a stack; here the stack is taken
away. Reading inside a call is reading a term and going on, whatever calls stand around it, and a call
that is closed is the one that its pieces spell.
-/

namespace Scriptlet

namespace Read
open Grammar

/-- Calls that stand further out wait for the ones inside them. -/
theorem insideCall_below (inner : OpenCall) (below : List OpenCall) (next : OpenCall)
    (outer : List OpenCall) (tokens : List Token) :
    insideCall inner (below ++ next :: outer) tokens =
      (insideCall inner below tokens).andThen fun t rest => insideCall (next.push t) outer rest := by
  fun_induction insideCall inner below tokens with
  | case1 => simp [insideCall]
  | case2 inner below value rest ih => simpa [insideCall] using ih
  | case3 inner value rest => simp [insideCall]
  | case4 inner value rest top below ih => simpa [insideCall] using ih
  | case5 inner below name value rest ih => simpa [insideCall] using ih
  | case6 inner below token rest hcomma hclose hcall t left heq ih =>
      rw [insideCall, heq]
      · exact ih
      all_goals assumption
  | case7 inner below token rest hcomma hclose hcall e left heq =>
      rw [insideCall, heq]
      · rfl
      all_goals assumption

/-- Inside a call a term is read as anywhere else, and added to the argument being read. -/
theorem insideCall_eq_term (inner : OpenCall) (outer : List OpenCall) {tokens : List Token}
    (hcomma : nextIs .comma tokens = false) (hclose : nextIs .closeParen tokens = false) :
    insideCall inner outer tokens =
      (term tokens).andThen fun t rest => insideCall (inner.push t) outer rest := by
  fun_cases insideCall inner outer tokens with
  | case1 => rfl
  | case2 value rest => cases hcomma
  | case3 value rest => cases hclose
  | case4 next rest => cases hclose
  | case5 outer name opening rest =>
      rw [term_call]
      exact insideCall_below (.start name) [] inner outer rest
  | case6 outer token rest _ _ hcall t left heq =>
      rw [term_eq_atom hcall, heq, atom_rest heq]
      rfl
  | case7 outer token rest _ _ hcall e left heq =>
      rw [term_eq_atom hcall, heq]
      rfl

/-! ### Single tokens -/

theorem stringText_eq (value : Bytes) : stringText value =
    value.filter fun b => b ≠ Ascii.singleQuote ∧ b ≠ Ascii.doubleQuote := by
  apply List.filter_congr
  intro b _
  rw [Bool.eq_iff_iff]
  simp

theorem atom_eq_ok_iff {token : Token} {rest left : List Token} {t : Term} :
    atom token rest = .ok t left ↔ AtomOf token t ∧ left = rest := by
  obtain ⟨kind, value⟩ := token
  constructor
  · intro h
    refine ⟨?_, atom_rest h⟩
    cases kind with
    | nilKeyword => cases h; exact .nil value
    | string => cases h; rw [stringText_eq]; exact .str value
    | integer =>
        simp only [atom] at h
        split at h
        · rename_i n hn
          cases h
          exact .int (Decimal.toInt64?_eq_some_iff.mp hn)
        · cases h
    | identifier => cases h; exact .var value
    | plus => cases h; exact .plus value
    | minus => cases h; exact .minus value
    | star => cases h; exact .star value
    | slash => cases h; exact .slash value
    | assign => cases h; exact .assign value
    | _ => cases h
  · rintro ⟨hatom, rfl⟩
    cases hatom with
    | str => rw [← stringText_eq]; rfl
    | int hvalue => simp only [atom, Decimal.toInt64?_eq_some_iff.mpr hvalue]
    | _ => rfl

end Read

/-! ### Closing a call -/

namespace OpenCall
open Grammar

/-- The finished call when its inside still has these pieces, the first of which goes on with the argument
being read. -/
def closeWith (c : OpenCall) : List Expr → Term
  | [] => c.close
  | piece :: pieces =>
    .call c.name (argsOfPieces (c.args.reverse ++ (c.current.reverse ++ piece) :: pieces))

theorem closeWith_nil (c : OpenCall) : c.closeWith [[]] = c.close := by
  obtain ⟨name, args, current⟩ := c
  cases current <;> simp [closeWith, close, nextArgument, argsOfPieces]

theorem nextArgument_closeWith (c : OpenCall) {pieces : List Expr} (hne : pieces ≠ []) :
    c.nextArgument.closeWith pieces = c.closeWith ([] :: pieces) := by
  cases pieces with
  | nil => exact absurd rfl hne
  | cons piece pieces => simp [closeWith, nextArgument]

theorem push_closeWith (c : OpenCall) (t : Term) (piece : Expr) (pieces : List Expr) :
    (c.push t).closeWith (piece :: pieces) = c.closeWith ((t :: piece) :: pieces) := by
  simp [closeWith, push]

theorem start_closeWith (name : Bytes) {pieces : List Expr} (hne : pieces ≠ []) :
    (start name).closeWith pieces = .call name (argsOfPieces pieces) := by
  cases pieces with
  | nil => exact absurd rfl hne
  | cons piece pieces => simp [closeWith, start]

end OpenCall

end Scriptlet
