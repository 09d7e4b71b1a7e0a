import Scriptlet.Json
import Scriptlet.Proofs.Encoding
import Scriptlet.Sha256

/-!
JSON strings. Repairing text makes it valid and leaves valid text alone. A string that is written and read
again is what it was, and whatever a string in valid text spells, with escapes and pairs of them, is valid text.
-/

namespace Scriptlet
open Utf8 Glyph

/-! ### Repair -/

namespace Json

theorem repair_of_isUtf8 {s : Bytes} (h : s.isUtf8 = true) : repair s = s := by
  obtain ⟨cs, rfl⟩ := Bytes.isUtf8_iff.mp h
  rw [repair, ofBytes_encodeChars, List.flatMap_map]
  rfl

theorem isUtf8_repair (s : Bytes) : (repair s).isUtf8 = true := by
  induction s using text_induction with
  | nil => rfl
  | char c rest ih =>
      rw [repair, ofBytes_encodeChar_append, List.flatMap_cons, Bytes.isUtf8_encodeChar_append]
      exact ih
  | stray b rest hstray ih =>
      rw [repair, ofBytes_stray hstray, List.flatMap_cons, Bytes.isUtf8_encodeChar_append]
      exact ih

end Json

theorem hexDigit_lt {n : Nat} (h : n < 16) : (hexDigit n).toNat < 128 := by
  have hall : ∀ n < 16, (hexDigit n).toNat < 128 := by decide
  exact hall n h

theorem lt_of_mem_hexDigits {width n : Nat} {b : UInt8} (hb : b ∈ hexDigits width n) : b.toNat < 128 := by
  induction width generalizing n with
  | zero => cases hb
  | succ width ih =>
      rw [hexDigits, List.mem_append, List.mem_singleton] at hb
      rcases hb with hb | rfl
      · exact ih hb
      · exact hexDigit_lt (Nat.mod_lt _ (by decide))

theorem Sha256.isUtf8_hex (message : Bytes) : (hex message).isUtf8 = true := by
  rw [← List.append_nil (hex message), Bytes.isUtf8_ascii_append]
  · rfl
  · intro b hb
    obtain ⟨w, -, hw⟩ := List.mem_flatMap.mp hb
    exact lt_of_mem_hexDigits hw

namespace Json

/-! ### Strings that were written -/

/-- More pieces in front of those that were read. -/
def inFront (ps : List Piece) (r : Option (List Piece × Bytes)) : Option (List Piece × Bytes) :=
  r.map fun r => (ps ++ r.1, r.2)

theorem inFront_nil (r : Option (List Piece × Bytes)) : inFront [] r = r := by
  cases r <;> rfl

theorem inFront_append (ps qs : List Piece) (r : Option (List Piece × Bytes)) :
    inFront (ps ++ qs) r = inFront ps (inFront qs r) := by
  cases r with
  | none => rfl
  | some r => simp [inFront]

/-- A part of a string and the text that it stands for, whatever follows. -/
structure Spelling (part : Bytes) (ps : List Piece) (value : Bytes) : Prop where
  read : ∀ rest, pieces? (part ++ rest) = inFront ps (pieces? rest)
  spelled : ∀ more, spell (ps ++ more) = value ++ spell more

theorem Spelling.nil : Spelling [] [] [] := ⟨fun _ => (inFront_nil _).symm, fun _ => rfl⟩

theorem Spelling.append {a b v w : Bytes} {ps qs : List Piece} (ha : Spelling a ps v) (hb : Spelling b qs w) :
    Spelling (a ++ b) (ps ++ qs) (v ++ w) where
  read rest := by rw [List.append_assoc, ha.read, hb.read, inFront_append]
  spelled more := by rw [List.append_assoc, ha.spelled, hb.spelled, List.append_assoc]

theorem Spelling.byte {b : UInt8} (hquote : b ≠ 0x22) (hescape : b ≠ 0x5C) (hcontrol : ¬ b < 0x20) :
    Spelling [b] [.byte b] [b] where
  read rest := by
    show pieces? (b :: rest) = _
    rw [pieces?]
    · rw [if_neg (by simp [hcontrol, hescape])]
      cases pieces? rest <;> rfl
    all_goals simp_all
  spelled _ := rfl

theorem Spelling.letter {b v : UInt8} (h : letterEscape? b = some v) : Spelling [0x5C, b] [.byte v] [v] where
  read rest := by
    have hunit : b ≠ 0x75 := by
      rintro rfl
      cases h
    show pieces? (0x5C :: b :: rest) = _
    rw [pieces?, h]
    · cases pieces? rest <;> rfl
    all_goals simp_all
  spelled _ := rfl

theorem hexValue?_hexDigit {n : Nat} (h : n < 16) : hexValue? (hexDigit n) = some n := by
  have hall : ∀ n < 16, hexValue? (hexDigit n) = some n := by decide
  exact hall n h

theorem codeUnit?_hexDigits {n : Nat} (h : n < 65536) : codeUnit? (hexDigit (n / 16 / 16 / 16 % 16))
    (hexDigit (n / 16 / 16 % 16)) (hexDigit (n / 16 % 16)) (hexDigit (n % 16)) = some n := by
  simp only [codeUnit?, hexValue?_hexDigit (Nat.mod_lt _ (by decide : 0 < 16)), Option.some.injEq]
  omega

theorem spell_unit {code : Nat} (h : isHighHalf code = false) (ps : List Piece) :
    spell (.unit code :: ps) = encodeChar (unitChar code) ++ spell ps := by
  cases ps with
  | nil => rfl
  | cons p ps =>
      cases p with
      | byte b => rfl
      | unit low => rw [spell, h, Bool.false_and, if_neg (by decide)]

theorem unitChar_toNat (c : Char) : unitChar c.toNat = c ∧ isHighHalf c.toNat = false := by
  have hhigh : isHighHalf c.toNat = false := by
    rw [isHighHalf, Bool.and_eq_false_iff, decide_eq_false_iff_not, decide_eq_false_iff_not]
    rcases c.valid with h | h
    · exact .inl (by show ¬ 0xD800 ≤ c.toNat; exact Nat.not_le.mpr h)
    · exact .inr (by have : 0xDFFF < c.toNat := h.1; omega)
  have hlow : isLowHalf c.toNat = false := by
    rw [isLowHalf, Bool.and_eq_false_iff, decide_eq_false_iff_not, decide_eq_false_iff_not]
    rcases c.valid with h | h
    · exact .inl (by have : c.toNat < 0xD800 := h; omega)
    · exact .inr (by have : 0xDFFF < c.toNat := h.1; omega)
  rw [unitChar, hhigh, hlow]
  exact ⟨Char.ofNat_toNat c, rfl⟩

theorem Spelling.unit {c : Char} (h : c.toNat < 65536) :
    Spelling (text "\\u" ++ hexDigits 4 c.toNat) [.unit c.toNat] (encodeChar c) where
  read rest := by
    show pieces? (0x5C :: 0x75 :: _ :: _ :: _ :: _ :: rest) = _
    rw [pieces?, codeUnit?_hexDigits h]
    cases pieces? rest <;> rfl
  spelled more := by
    obtain ⟨hchar, hhigh⟩ := unitChar_toNat c
    show spell (.unit c.toNat :: more) = _
    rw [spell_unit hhigh, hchar]

/-- The bytes from 128 on stand for themselves. -/
theorem Spelling.high {bs : Bytes} (h : ∀ b ∈ bs, 128 ≤ b.toNat) : Spelling bs (bs.map .byte) bs := by
  induction bs with
  | nil => exact .nil
  | cons b bs ih =>
      rw [List.forall_mem_cons] at h
      have hne : ∀ x : UInt8, x.toNat < 128 → b ≠ x := by
        rintro x hx rfl
        omega
      have hcontrol : ¬ b < 0x20 := by
        rw [UInt8.lt_iff_toNat_lt]
        exact Nat.not_lt.mpr (Nat.le_trans (by decide) h.1)
      exact (Spelling.byte (hne _ (by decide)) (hne _ (by decide)) hcontrol).append (ih h.2)

theorem Spelling.plain {c : Char} (h : isPlain c = true) : ∃ ps, Spelling (encodeChar c) ps (encodeChar c) := by
  by_cases hc : c.toNat < 128
  · rw [encodeChar_of_lt hc]
    simp only [isPlain, Bool.and_eq_true, decide_eq_true_eq, bne_iff_ne, ne_eq] at h
    have hne : ∀ d : Char, d.toNat < 128 → c ≠ d → UInt8.ofNat c.toNat ≠ UInt8.ofNat d.toNat := by
      intro d hd hcd heq
      have hnat := congrArg UInt8.toNat heq
      rw [toNat_byte (by omega), toNat_byte (by omega)] at hnat
      exact hcd (Char.toNat_inj.mp hnat)
    have hcontrol : ¬ UInt8.ofNat c.toNat < 0x20 := by
      rw [UInt8.lt_iff_toNat_lt, toNat_byte (by omega)]
      exact Nat.not_lt.mpr h.1.1.1.1.1.1.1
    exact ⟨_, .byte (hne '"' (by decide) h.1.1.1.1.1.1.2) (hne '\\' (by decide) h.1.1.1.1.1.2) hcontrol⟩
  · exact ⟨_, .high fun b hb => le_of_mem_encodeChar (by omega) hb⟩

theorem toNat_lt_of_not_isPlain {c : Char} (h : isPlain c = false) : c.toNat < 65536 := by
  apply Nat.lt_of_not_le
  intro hle
  have hne : ∀ d : Char, d.toNat < 65536 → c ≠ d := by
    rintro d hd rfl
    omega
  have hplain : isPlain c = true := by
    simp only [isPlain, Bool.and_eq_true, decide_eq_true_eq, bne_iff_ne, ne_eq]
    refine ⟨⟨⟨⟨⟨⟨⟨?_, ?_⟩, ?_⟩, ?_⟩, ?_⟩, ?_⟩, ?_⟩, ?_⟩
    all_goals first | exact hne _ (by decide) | omega
  exact absurd (h.symm.trans hplain) (by decide)

theorem Spelling.escapeCode {c : Char} (h : isPlain c = false) :
    ∃ ps, Spelling (escapeCode c) ps (encodeChar c) := by
  have hletter : ∀ {n : Nat} {b : UInt8}, c.toNat = n → n < 128 → letterEscape? b = some (UInt8.ofNat n) →
      ∃ ps, Spelling [0x5C, b] ps (encodeChar c) := by
    rintro n b rfl hn hb
    rw [encodeChar_of_lt hn]
    exact ⟨_, .letter hb⟩
  unfold Json.escapeCode
  split
  case h_8 => exact ⟨_, .unit (toNat_lt_of_not_isPlain h)⟩
  all_goals exact hletter ‹_› (by decide) rfl

theorem Spelling.escapeChar (c : Char) : ∃ ps, Spelling (escapeChar c) ps (encodeChar c) := by
  unfold Json.escapeChar
  split
  · exact Spelling.plain ‹_›
  · exact Spelling.escapeCode (Bool.eq_false_iff.mpr ‹_›)

theorem Spelling.escaped (cs : List Char) :
    ∃ ps, Spelling (cs.flatMap Json.escapeChar) ps (encodeChars cs) := by
  induction cs with
  | nil => exact ⟨[], .nil⟩
  | cons c cs ih =>
      obtain ⟨ps, hc⟩ := Spelling.escapeChar c
      obtain ⟨qs, hcs⟩ := ih
      rw [List.flatMap_cons, encodeChars_cons]
      exact ⟨ps ++ qs, hc.append hcs⟩

theorem writeString_encodeChars (cs : List Char) :
    writeString (encodeChars cs) = Ascii.doubleQuote :: (cs.flatMap escapeChar ++ [Ascii.doubleQuote]) := by
  rw [writeString, ofBytes_encodeChars]
  congr 1
  induction cs with
  | nil => rfl
  | cons c cs ih =>
      rw [List.map_cons, List.foldr_cons, ih, List.flatMap_cons, List.append_assoc]
      rfl

/-- A string that was written is read as what it was. -/
theorem lexeme?_writeString {s : Bytes} (h : s.isUtf8 = true) (rest : Bytes) :
    lexeme? (writeString s ++ rest) = some (.string s, rest) := by
  obtain ⟨cs, rfl⟩ := Bytes.isUtf8_iff.mp h
  obtain ⟨ps, hps⟩ := Spelling.escaped cs
  have hread : pieces? (cs.flatMap escapeChar ++ [Ascii.doubleQuote] ++ rest) = some (ps, rest) := by
    rw [List.append_assoc, hps.read]
    show inFront ps (some ([], rest)) = some (ps, rest)
    simp [inFront]
  have hspelled : spell ps = encodeChars cs := by
    have h := hps.spelled []
    rwa [List.append_nil, spell, List.append_nil] at h
  rw [writeString_encodeChars, List.cons_append, ← hspelled]
  simp only [lexeme?, hread]

theorem isUtf8_escapeChar (c : Char) : (escapeChar c).isUtf8 = true := by
  have hascii : ∀ {s : Bytes}, (∀ b ∈ s, b.toNat < 128) → s.isUtf8 = true := by
    intro s hs
    rw [← List.append_nil s, Bytes.isUtf8_ascii_append hs]
    rfl
  unfold escapeChar
  split
  · rw [← List.append_nil (encodeChar c), Bytes.isUtf8_encodeChar_append]
    rfl
  · unfold escapeCode
    split
    case h_8 =>
      rw [Bytes.isUtf8_append (by decide)]
      exact hascii fun b hb => lt_of_mem_hexDigits hb
    all_goals decide

theorem isUtf8_writeString {s : Bytes} (h : s.isUtf8 = true) : (writeString s).isUtf8 = true := by
  obtain ⟨cs, rfl⟩ := Bytes.isUtf8_iff.mp h
  rw [writeString_encodeChars, Bytes.isUtf8_cons (by decide)]
  clear h
  induction cs with
  | nil => decide
  | cons c cs ih =>
      rw [List.flatMap_cons, List.append_assoc, Bytes.isUtf8_append (isUtf8_escapeChar c)]
      exact ih

/-! ### Strings of others -/

theorem spell_lowHalf {code : Nat} (h : isLowHalf code = true) (ps : List Piece) :
    spell (.unit code :: ps) = encodeChar (unitChar code) ++ spell ps := by
  apply spell_unit
  simp only [isLowHalf, isHighHalf, Bool.and_eq_true, decide_eq_true_eq, Bool.and_eq_false_iff,
    decide_eq_false_iff_not] at h ⊢
  omega

theorem isUtf8_spell_unit {ps : List Piece} (h : (spell ps).isUtf8 = true) (code : Nat) :
    (spell (.unit code :: ps)).isUtf8 = true := by
  have hchar : ∀ c, (encodeChar c ++ spell ps).isUtf8 = true := fun c => by
    rw [Bytes.isUtf8_encodeChar_append, h]
  cases ps with
  | nil => exact hchar _
  | cons p ps =>
      cases p with
      | byte b => exact hchar _
      | unit low =>
          rw [spell]
          split
          · rename_i hpair
            -- the second half of a pair would have been valid alone, so what follows it is
            rw [Bool.and_eq_true] at hpair
            rw [spell_lowHalf hpair.2, Bytes.isUtf8_encodeChar_append] at h
            rwa [Bytes.isUtf8_encodeChar_append]
          · exact hchar _

theorem hexValue?_lt {b : UInt8} {n : Nat} (h : hexValue? b = some n) : b.toNat < 128 := by
  unfold hexValue? at h
  simp only [Bool.and_eq_true, decide_eq_true_eq, UInt8.le_iff_toNat_le] at h
  split at h
  · exact Nat.lt_of_le_of_lt (And.right ‹_›) (by decide)
  · split at h
    · exact Nat.lt_of_le_of_lt (And.right ‹_›) (by decide)
    · split at h
      · exact Nat.lt_of_le_of_lt (And.right ‹_›) (by decide)
      · cases h

theorem codeUnit?_lt {a b c d : UInt8} {n : Nat} (h : codeUnit? a b c d = some n) :
    a.toNat < 128 ∧ b.toNat < 128 ∧ c.toNat < 128 ∧ d.toNat < 128 := by
  unfold codeUnit? at h
  split at h
  · exact ⟨hexValue?_lt ‹_›, hexValue?_lt ‹_›, hexValue?_lt ‹_›, hexValue?_lt ‹_›⟩
  · cases h

theorem letterEscape?_lt {b v : UInt8} (h : letterEscape? b = some v) : b.toNat < 128 ∧ v.toNat < 128 := by
  unfold letterEscape? at h
  split at h <;> cases h <;> decide

/-- What a string in valid text spells is valid, and so is what follows it. Read is from the middle of a
character on, of which the bytes so far are given. -/
theorem isUtf8_of_pieces? {s : Bytes} {ps : List Piece} {rest : Bytes} (h : pieces? s = some (ps, rest))
    (before : Bytes) (hvalid : (before ++ s).isUtf8 = true) :
    (before ++ spell ps).isUtf8 = true ∧ rest.isUtf8 = true := by
  fun_induction pieces? s generalizing ps rest before with
  | case1 => cases h
  | case2 rest' =>
      cases h
      rw [Bytes.isUtf8_append_ascii (by decide), Bool.and_eq_true] at hvalid
      rw [spell, List.append_nil]
      exact hvalid
  | case3 a b c d rest' code ps' left hread hcode ih =>
      cases h
      rw [Bytes.isUtf8_append_ascii (by decide), Bool.and_eq_true] at hvalid
      obtain ⟨ha, hb, hc, hd⟩ := codeUnit?_lt hcode
      rw [Bytes.isUtf8_cons (by decide), Bytes.isUtf8_cons ha, Bytes.isUtf8_cons hb, Bytes.isUtf8_cons hc,
        Bytes.isUtf8_cons hd] at hvalid
      obtain ⟨hspell, hleft⟩ := ih hread [] hvalid.2
      rw [Bytes.isUtf8_append hvalid.1]
      exact ⟨isUtf8_spell_unit hspell code, hleft⟩
  | case5 b rest' _ v ps' left hread hletter ih =>
      cases h
      obtain ⟨hb, hv⟩ := letterEscape?_lt hletter
      rw [Bytes.isUtf8_append_ascii (by decide), Bytes.isUtf8_cons hb, Bool.and_eq_true] at hvalid
      obtain ⟨hspell, hleft⟩ := ih hread [] hvalid.2
      rw [Bytes.isUtf8_append hvalid.1, spell, Bytes.isUtf8_cons hv]
      exact ⟨hspell, hleft⟩
  | case8 b rest' _ _ _ _ ps' left hread ih =>
      cases h
      -- a byte alone need not be valid: it joins the bytes before it
      rw [List.append_cons] at hvalid
      rw [spell, List.append_cons]
      exact ih hread _ hvalid
  | _ => cases h

end Json

end Scriptlet
