import Mathlib.Data.List.Basic
import Mathlib.Data.List.Induction
import Mathlib.Data.Nat.Digits.Defs
import Scriptlet.Proofs.Numerals
import Scriptlet.Translate

/-!
Integer literals. A literal is one or more digits with at most one sign in front of them, of any length and
with any number of zeros at its start. It is read exactly if the number it stands for fits 64 signed bits;
the number is then written in its one canonical form, which stands for the same number again.
-/

namespace Scriptlet

namespace Decimal
open Ascii

/-! ### What literals stand for -/

/-- The number that decimal digits stand for, the last of them counting the ones. -/
def positional (digits : Bytes) : Nat := Nat.ofDigits 10 (digits.reverse.map digitValue)

/-- The text is a literal of the number. -/
inductive Literal : Bytes → Int → Prop where
  | plain {digits : Bytes} (hdigits : isDigits digits = true) : Literal digits (positional digits)
  | positive {digits : Bytes} (hdigits : isDigits digits = true) : Literal (plus :: digits) (positional digits)
  | negative {digits : Bytes} (hdigits : isDigits digits = true) :
      Literal (minus :: digits) (-(positional digits : Int))

/-- The text is the number in canonical form: without a plus sign, without zeros in front of other digits,
and without a sign in front of zero. -/
inductive Canonical : Bytes → Int → Prop where
  | nonneg {digits : Bytes} (hdigits : isDigits digits = true)
      (hzero : digits.head? = some zero → digits = [zero]) : Canonical digits (positional digits)
  | neg {digits : Bytes} (hdigits : isDigits digits = true) (hzero : digits.head? ≠ some zero) :
      Canonical (minus :: digits) (-(positional digits : Int))

theorem positional_eq_value (digits : Bytes) : positional digits = value digits := by
  induction digits using List.reverseRecOn with
  | nil => rfl
  | append_singleton digits b ih =>
      rw [value_concat, ← ih, positional, List.reverse_append, List.reverse_singleton, List.singleton_append,
        List.map_cons, Nat.ofDigits_cons]
      exact Nat.add_comm _ _

theorem toInt?_digits {digits : Bytes} (h : isDigits digits = true) :
    toInt? digits = some (positional digits : Int) := by
  rw [toInt?, splitSign_digits (isDigits_iff.mp h).2, positional_eq_value]
  exact if_pos h

/-- The literals of a number are the texts that are read as it. -/
theorem literal_iff {s : Bytes} {n : Int} : Literal s n ↔ toInt? s = some n := by
  constructor
  · intro h
    cases h with
    | plain hdigits => exact toInt?_digits hdigits
    | positive hdigits =>
        rw [positional_eq_value]
        exact if_pos hdigits
    | negative hdigits =>
        rw [positional_eq_value]
        exact if_pos hdigits
  · intro h
    rw [toInt?] at h
    split at h
    rename_i negative digits hsplit
    split at h
    · rename_i hdigits
      cases h
      cases s with
      | nil =>
          cases hsplit
          cases hdigits
      | cons b rest =>
          rw [splitSign] at hsplit
          rw [← positional_eq_value]
          split at hsplit
          · cases hsplit
            subst b
            exact .negative hdigits
          · split at hsplit
            · cases hsplit
              subst b
              exact .positive hdigits
            · cases hsplit
              exact .plain hdigits
    · cases h

/-! ### The canonical form -/

theorem digit_digitValue {b : UInt8} (h : isDigit b = true) : digit (digitValue b) = b ∧ digitValue b < 10 := by
  rw [isDigit, Bool.and_eq_true, decide_eq_true_eq, decide_eq_true_eq, UInt8.le_iff_toNat_le,
    UInt8.le_iff_toNat_le] at h
  have hlow : 48 ≤ b.toNat := h.1
  have hhigh : b.toNat ≤ 57 := h.2
  have hvalue : digitValue b = b.toNat - 48 := rfl
  have hdigit : ∀ n < 10, (digit n).toNat = 48 + n := by decide
  refine ⟨UInt8.toNat_inj.mp ?_, by omega⟩
  rw [hdigit _ (by omega)]
  omega

theorem ofNat_zero : ofNat 0 = [zero] := by
  rw [ofNat]
  rfl

theorem head?_ofNat {n : Nat} (h : n ≠ 0) : (ofNat n).head? ≠ some zero := by
  fun_induction ofNat n with
  | case1 n hn =>
      have hall : ∀ n < 10, n ≠ 0 → [digit n].head? ≠ some zero := by decide
      exact hall n hn h
  | case2 n hn ih =>
      rw [List.head?_append_of_ne_nil _ (ofNat_ne_nil _)]
      exact ih (by omega)

/-- Digits without a zero in front are those that their value is written with, and the value is not zero. -/
theorem ofNat_value {digits : Bytes} (hne : digits ≠ []) (hdigits : ∀ b ∈ digits, isDigit b = true)
    (hzero : digits.head? ≠ some zero) : ofNat (value digits) = digits ∧ value digits ≠ 0 := by
  -- digits are written from the ones on, so the last one is split off
  induction digits using List.reverseRecOn with
  | nil => exact absurd rfl hne
  | append_singleton digits b ih =>
      rw [List.forall_mem_append, List.forall_mem_singleton] at hdigits
      obtain ⟨hdigit, hlt⟩ := digit_digitValue hdigits.2
      rw [value_concat]
      cases digits with
      | nil =>
          have hvalue : value [] = 0 := rfl
          rw [hvalue, Nat.mul_zero, Nat.zero_add, ofNat, if_pos hlt, hdigit]
          refine ⟨rfl, fun h0 => hzero ?_⟩
          rw [← hdigit, h0]
          rfl
      | cons first more =>
          obtain ⟨hmore, hpos⟩ := ih (List.cons_ne_nil _ _) hdigits.1 hzero
          refine ⟨?_, by omega⟩
          have hdiv : (10 * value (first :: more) + digitValue b) / 10 = value (first :: more) := by omega
          have hmod : (10 * value (first :: more) + digitValue b) % 10 = digitValue b := by omega
          rw [ofNat, if_neg (by omega), hdiv, hmod, hmore, hdigit]

/-- Every number has one canonical form, the one it is written in. -/
theorem canonical_iff {s : Bytes} {n : Int} : Canonical s n ↔ s = ofInt n := by
  constructor
  · intro h
    cases h with
    | nonneg hdigits hzero =>
        rw [positional_eq_value]
        rw [isDigits_iff] at hdigits
        by_cases hlone : s = [zero]
        · subst hlone
          exact ofNat_zero.symm
        · exact (ofNat_value hdigits.1 hdigits.2 fun h => hlone (hzero h)).1.symm
    | @neg digits hdigits hzero =>
        rw [positional_eq_value]
        rw [isDigits_iff] at hdigits
        obtain ⟨hwritten, hpos⟩ := ofNat_value hdigits.1 hdigits.2 hzero
        obtain ⟨m, hm⟩ := Nat.exists_eq_succ_of_ne_zero hpos
        rw [hm, ← hwritten, hm]
        rfl
  · rintro rfl
    cases n with
    | ofNat n =>
        have hform := Canonical.nonneg (isDigits_ofNat n) fun hzero => ?_
        · rw [positional_eq_value, value_ofNat] at hform
          exact hform
        · by_cases hn : n = 0
          · subst hn
            exact ofNat_zero
          · exact absurd hzero (head?_ofNat hn)
    | negSucc n =>
        have hform := Canonical.neg (isDigits_ofNat (n + 1)) (head?_ofNat (Nat.succ_ne_zero n))
        rw [positional_eq_value, value_ofNat] at hform
        exact hform

theorem toInt64?_ofInt (n : Int64) : toInt64? (ofInt n.toInt) = some n :=
  toInt64?_eq_some_iff.mpr (toInt?_ofInt n.toInt)

/-- A literal is read exactly if its number fits 64 signed bits. -/
theorem exists_toInt64?_iff {s : Bytes} :
    (∃ n, toInt64? s = some n) ↔ ∃ n, Literal s n ∧ -2 ^ 63 ≤ n ∧ n ≤ 2 ^ 63 - 1 := by
  constructor
  · rintro ⟨n, hn⟩
    exact ⟨n.toInt, literal_iff.mpr (toInt64?_eq_some_iff.mp hn), n.minValue_le_toInt, n.toInt_le⟩
  · rintro ⟨n, hliteral, hmin, hmax⟩
    refine ⟨.ofInt n, toInt64?_eq_some_iff.mpr ?_⟩
    rw [Int64.toInt_ofInt_of_le hmin (Int.lt_of_le_sub_one hmax)]
    exact literal_iff.mp hliteral

end Decimal

/-! ### Reading a literal alone -/

namespace Read

theorem program_integer (v : Bytes) : program [⟨.integer, v⟩] =
    (atom ⟨.integer, v⟩ []).map fun t => [.statements [[t]]] := by
  have hterm : term [⟨.integer, v⟩] = atom ⟨.integer, v⟩ [] := term_eq_atom nofun
  have hends : endsStatements [⟨.integer, v⟩] = false := rfl
  rw [program_cons, node_eq_statements hends, statements_eq, hends, statement_eq, hterm]
  cases hatom : atom ⟨.integer, v⟩ [] with
  | error e left => rfl
  | ok t left =>
      cases atom_rest hatom
      simp [skipNewlines, statements_eq_nil, endsStatements, program]

end Read

open Decimal Read

theorem parse_integer_of_some {v : Bytes} {n : Int64} (h : toInt64? v = some n) :
    parse [⟨.integer, v⟩] = .ok [.statements [[.int n]]] := by
  simp [parse, program_integer, atom, h, Reading.result]

theorem parse_integer_of_none {v : Bytes} (h : toInt64? v = none) :
    parse [⟨.integer, v⟩] = .error (.badInteger ⟨.integer, v⟩) := by
  simp [parse, program_integer, atom, h, Reading.result]

theorem generate_integer (n : Int64) :
    Program.generate [.statements [[.int n]]] = .ok (ofInt n.toInt ++ text ";\n") := by
  have hrender : Program.render [.statements [[.int n]]] = ofInt n.toInt ++ text ";\n" := by
    simp [Program.render, Node.render, Expr.renderStatement, Expr.render, Expr.renderOnto, Term.renderOnto]
  rw [← hrender]
  rfl

/-- An integer literal is read exactly if its number fits 64 signed bits, and is itself the error otherwise.
What is read is written in canonical form, from which the same program is read. -/
theorem parse_integer_literal (v : Bytes) :
    ((∃ p, parse [⟨.integer, v⟩] = .ok p) ↔ ∃ n, Literal v n ∧ -2 ^ 63 ≤ n ∧ n ≤ 2 ^ 63 - 1) ∧
    (∀ e, parse [⟨.integer, v⟩] = .error e → e = .badInteger ⟨.integer, v⟩) ∧
    ∀ p n, parse [⟨.integer, v⟩] = .ok p → Literal v n →
      ∃ s, (∀ t, Canonical t n ↔ t = s) ∧ p.generate = .ok (s ++ text ";\n") ∧
        parse [⟨.integer, s⟩] = .ok p := by
  rw [← exists_toInt64?_iff]
  cases hread : toInt64? v with
  | none =>
      rw [parse_integer_of_none hread]
      refine ⟨by simp, fun e he => (Except.error.inj he).symm, fun p n hp => ?_⟩
      cases hp
  | some k =>
      rw [parse_integer_of_some hread]
      refine ⟨by simp, fun e he => ?_, fun p n hp hliteral => ?_⟩
      · cases he
      · cases hp
        have hn : n = k.toInt :=
          Option.some.inj ((literal_iff.mp hliteral).symm.trans (toInt64?_eq_some_iff.mp hread))
        subst hn
        exact ⟨ofInt k.toInt, fun t => canonical_iff, generate_integer k,
          parse_integer_of_some (toInt64?_ofInt k)⟩

example : toInt64? (text "-0009223372036854775808") = some Int64.minValue ∧
    toInt64? (text "9223372036854775808") = none := by decide

end Scriptlet
