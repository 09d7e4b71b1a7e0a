import Scriptlet.Text.Bytes

/-!
Whole numbers in decimal. Numbers are written with the fewest digits. Integer literals are read as one
optional sign and digits, and are accepted when their value fits 64 signed bits. Beyond a limit a value is
not counted on, since only that it is beyond matters, so literals of any length are judged right and soon.
-/

namespace Scriptlet.Decimal

open Ascii

def digit (n : Nat) : UInt8 := zero + n.toUInt8

/-- The decimal digits of a natural number, without leading zeros. -/
def ofNat (n : Nat) : Bytes :=
  if n < 10 then [digit n] else ofNat (n / 10) ++ [digit (n % 10)]

/-- The decimal text of an integer: a minus sign only in front of negative numbers. -/
def ofInt : Int → Bytes
  | .ofNat n => ofNat n
  | .negSucc n => minus :: ofNat (n + 1)

def digitValue (b : UInt8) : Nat := b.toNat - zero.toNat

/-- The number that a run of digits spells. -/
def value (digits : Bytes) : Nat := digits.foldl (fun n b => 10 * n + digitValue b) 0

/-- Whether a literal has a minus sign, and what follows its sign, if it has one. -/
def splitSign : Bytes → Bool × Bytes
  | [] => (false, [])
  | b :: rest =>
    if b = minus then (true, rest) else if b = plus then (false, rest) else (false, b :: rest)

/-- Whether the text is one or more digits and nothing else. -/
def isDigits (s : Bytes) : Bool := !s.isEmpty && s.all isDigit

/-- The number that a run of digits spells, if it is at most the limit, and else some number beyond. -/
def boundedValue (limit : Nat) (digits : Bytes) : Nat :=
  digits.foldl (fun n b => if limit < n then n else 10 * n + digitValue b) 0

private theorem le_foldl_value (digits : Bytes) (n : Nat) :
    n ≤ digits.foldl (fun n b => 10 * n + digitValue b) n := by
  induction digits generalizing n with
  | nil => exact Nat.le_refl n
  | cons b digits ih => exact Nat.le_trans (by omega) (ih (10 * n + digitValue b))

private theorem foldl_bounded (limit : Nat) (digits : Bytes) (n : Nat) :
    let bounded := digits.foldl (fun n b => if limit < n then n else 10 * n + digitValue b) n
    let exact := digits.foldl (fun n b => 10 * n + digitValue b) n
    bounded = exact ∨ limit < bounded ∧ limit < exact := by
  induction digits generalizing n with
  | nil => exact Or.inl rfl
  | cons b digits ih =>
    simp only [List.foldl_cons]
    by_cases h : limit < n
    · rw [if_pos h]
      have hexact := le_foldl_value digits (10 * n + digitValue b)
      rcases ih n with heq | hgt
      · have := le_foldl_value digits n
        refine Or.inr ⟨?_, by omega⟩
        rw [heq]
        omega
      · exact Or.inr ⟨hgt.1, by omega⟩
    · rw [if_neg h]
      exact ih (10 * n + digitValue b)

/-- The bounded value is the value, or both are beyond the limit. -/
theorem boundedValue_eq_or (limit : Nat) (digits : Bytes) :
    boundedValue limit digits = value digits ∨
      limit < boundedValue limit digits ∧ limit < value digits := foldl_bounded limit digits 0

/-- The 64-bit integer of a value; refused when out of range. -/
def int64? (v : Int) : Option Int64 :=
  if Int64.minValue.toInt ≤ v ∧ v ≤ Int64.maxValue.toInt then some (.ofInt v) else none

def signed (negative : Bool) (n : Nat) : Int := if negative then -(n : Int) else n

/-- The integer that an optional sign and digits spell. -/
def toInt? (s : Bytes) : Option Int :=
  match splitSign s with
  | (negative, digits) => if isDigits digits then some (signed negative (value digits)) else none

/-- The 64-bit integer that a literal spells; refused when out of range. -/
def toInt64? (s : Bytes) : Option Int64 :=
  match splitSign s with
  | (negative, digits) =>
    if isDigits digits then int64? (signed negative (boundedValue Int64.minValue.toInt.natAbs digits))
    else none

theorem int64?_signed_eq_none {n : Nat} (negative : Bool) (h : Int64.minValue.toInt.natAbs < n) :
    int64? (signed negative n) = none := by
  have hmin : Int64.minValue.toInt = -9223372036854775808 := rfl
  have hmax : Int64.maxValue.toInt = 9223372036854775807 := rfl
  rw [hmin] at h
  unfold int64?
  rw [hmin, hmax, if_neg]
  cases negative with
  | false =>
    simp only [signed, Bool.false_eq_true, if_false]
    omega
  | true =>
    simp only [signed, if_true]
    omega

/-- A literal is accepted when its value is in range. -/
theorem toInt64?_eq (s : Bytes) : toInt64? s = (toInt? s).bind int64? := by
  unfold toInt64? toInt?
  split
  rename_i negative digits _
  split
  · rcases boundedValue_eq_or Int64.minValue.toInt.natAbs digits with heq | hgt
    · rw [heq]
      rfl
    · rw [int64?_signed_eq_none negative hgt.1]
      exact (int64?_signed_eq_none negative hgt.2).symm
  · rfl

theorem int64?_eq_some_iff {v : Int} {n : Int64} : int64? v = some n ↔ v = n.toInt := by
  unfold int64?
  constructor
  · intro h
    split at h
    · rename_i hrange
      cases h
      exact (Int64.toInt_ofInt_of_le hrange.1 (Int.lt_add_one_of_le hrange.2)).symm
    · cases h
  · rintro rfl
    rw [if_pos ⟨n.minValue_le_toInt, n.toInt_le⟩, Int64.ofInt_toInt]

/-- A literal stands for the 64-bit integer with the value that it spells. -/
theorem toInt64?_eq_some_iff {s : Bytes} {n : Int64} :
    toInt64? s = some n ↔ toInt? s = some n.toInt := by
  rw [toInt64?_eq, Option.bind_eq_some_iff]
  constructor
  · rintro ⟨v, hv, hn⟩
    rw [hv, int64?_eq_some_iff.mp hn]
  · intro h
    exact ⟨n.toInt, h, int64?_eq_some_iff.mpr rfl⟩

/-- Whether the text is a run of digits whose value is below `2 ^ 64`. -/
def isUInt64 (s : Bytes) : Bool := isDigits s && decide (boundedValue UInt64.size s < UInt64.size)

theorem isUInt64_eq (s : Bytes) : isUInt64 s = (isDigits s && decide (value s < UInt64.size)) := by
  have h : boundedValue UInt64.size s < UInt64.size ↔ value s < UInt64.size := by
    rcases boundedValue_eq_or UInt64.size s with heq | hgt
    · rw [heq]
    · omega
  rw [isUInt64, decide_eq_decide.mpr h]

end Scriptlet.Decimal
