import Scriptlet.Text.Decimal

/-!
Numbers that are written are read back. The digits of a number spell its value, so that two numbers with the
same text are the same, and no numeral has a sign but the minus sign of a negative number.
-/

namespace Scriptlet.Decimal
open Ascii

theorem digit_eq {n : Nat} (h : n < 10) : isDigit (digit n) = true ∧ digitValue (digit n) = n := by
  have hall : ∀ n < 10, isDigit (digit n) = true ∧ digitValue (digit n) = n := by decide
  exact hall n h

theorem value_concat (digits : Bytes) (b : UInt8) :
    value (digits ++ [b]) = 10 * value digits + digitValue b := by
  rw [value, List.foldl_append]
  rfl

theorem value_ofNat (n : Nat) : value (ofNat n) = n := by
  fun_induction ofNat n with
  | case1 n hn =>
      show 10 * 0 + digitValue (digit n) = n
      rw [(digit_eq hn).2, Nat.mul_zero, Nat.zero_add]
  | case2 n _ ih =>
      rw [value_concat, ih, (digit_eq (Nat.mod_lt n (by decide))).2]
      exact Nat.div_add_mod n 10

theorem isDigit_of_mem_ofNat {n : Nat} : ∀ b ∈ ofNat n, isDigit b = true := by
  fun_induction ofNat n with
  | case1 n hn => exact List.forall_mem_singleton.mpr (digit_eq hn).1
  | case2 n _ ih =>
      rw [List.forall_mem_append, List.forall_mem_singleton]
      exact ⟨ih, (digit_eq (Nat.mod_lt n (by decide))).1⟩

theorem ofNat_ne_nil (n : Nat) : ofNat n ≠ [] := by
  fun_induction ofNat n <;> simp

theorem isDigits_iff {s : Bytes} : isDigits s = true ↔ s ≠ [] ∧ ∀ b ∈ s, isDigit b = true := by
  rw [isDigits, Bool.and_eq_true, Bool.not_eq_true', List.isEmpty_eq_false_iff, List.all_eq_true]

theorem isDigits_ofNat (n : Nat) : isDigits (ofNat n) = true :=
  isDigits_iff.mpr ⟨ofNat_ne_nil n, isDigit_of_mem_ofNat⟩

/-- Digits have no sign in front of them. -/
theorem splitSign_digits {digits : Bytes} (h : ∀ b ∈ digits, isDigit b = true) :
    splitSign digits = (false, digits) := by
  cases digits with
  | nil => rfl
  | cons b rest =>
      have hb := h b (List.mem_cons_self ..)
      rw [splitSign, if_neg, if_neg]
      · rintro rfl
        cases hb
      · rintro rfl
        cases hb

/-- An integer is what its text spells. -/
theorem toInt?_ofInt (v : Int) : toInt? (ofInt v) = some v := by
  cases v with
  | ofNat n =>
      rw [ofInt, toInt?, splitSign_digits isDigit_of_mem_ofNat]
      simp only [isDigits_ofNat, value_ofNat, if_true]
      rfl
  | negSucc n =>
      have hsign : splitSign (minus :: ofNat (n + 1)) = (true, ofNat (n + 1)) := rfl
      rw [ofInt, toInt?, hsign]
      simp only [isDigits_ofNat, value_ofNat, if_true]
      rfl

end Scriptlet.Decimal
