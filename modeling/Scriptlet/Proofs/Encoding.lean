import Scriptlet.Text.Glyph

/-!
Characters at the front of a text. A character is found at the front of a text exactly if its encoding
begins the text. Bytes below 0x80 are in no encoding of more than one byte, so such a byte ends what stands
before it: what a text begins with does not change when an ASCII byte and anything else follow. From this,
texts are cut at ASCII bytes glyph by glyph, and trimming takes off encoded characters and nothing else. Valid
text stays valid when it is cut at an ASCII byte, when it is trimmed and when ASCII bytes are taken out of it.
-/

namespace Scriptlet

namespace Utf8

/-! ### The bytes of a character -/

theorem toNat_byte {n : Nat} (h : n < 256) : (UInt8.ofNat n).toNat = n := UInt8.toNat_ofNat_of_lt h

theorem toNat_lt (c : Char) : c.toNat < 1114112 := by
  rcases c.valid with h | h
  · exact Nat.lt_trans h (by decide)
  · exact h.2

theorem encodeChar_eq (c : Char) : encodeChar c =
    if c.toNat ≤ 0x7F then [UInt8.ofNat c.toNat]
    else if c.toNat ≤ 0x7FF then
      [UInt8.ofNat (c.toNat / 64 % 0x20 + 0xC0), UInt8.ofNat (c.toNat % 0x40 + 0x80)]
    else if c.toNat ≤ 0xFFFF then
      [UInt8.ofNat (c.toNat / 4096 % 0x10 + 0xE0), UInt8.ofNat (c.toNat / 64 % 0x40 + 0x80),
        UInt8.ofNat (c.toNat % 0x40 + 0x80)]
    else
      [UInt8.ofNat (c.toNat / 262144 % 0x08 + 0xF0), UInt8.ofNat (c.toNat / 4096 % 0x40 + 0x80),
        UInt8.ofNat (c.toNat / 64 % 0x40 + 0x80), UInt8.ofNat (c.toNat % 0x40 + 0x80)] := rfl

theorem encodeChar_of_lt {c : Char} (h : c.toNat < 128) : encodeChar c = [UInt8.ofNat c.toNat] := by
  rw [encodeChar_eq, if_pos (Nat.le_of_lt_succ h)]

theorem length_encodeChar (c : Char) : (encodeChar c).length = c.utf8Size := String.length_utf8EncodeChar c

theorem encodeChar_ne_nil (c : Char) : encodeChar c ≠ [] := String.utf8EncodeChar_ne_nil

theorem exists_encodeChar_cons (c : Char) :
    ∃ b tail, encodeChar c = b :: tail ∧ tail.length = c.utf8Size - 1 := by
  obtain ⟨b, tail, heq⟩ := List.exists_cons_of_ne_nil (encodeChar_ne_nil c)
  refine ⟨b, tail, heq, ?_⟩
  rw [← length_encodeChar, heq]
  rfl

/-- A character beyond ASCII has no ASCII byte. -/
theorem le_of_mem_encodeChar {c : Char} (h : 128 ≤ c.toNat) {b : UInt8} (hb : b ∈ encodeChar c) :
    128 ≤ b.toNat := by
  have hbyte : ∀ {n : Nat}, 128 ≤ n → n < 256 → b = UInt8.ofNat n → 128 ≤ b.toNat := by
    rintro n hle hlt rfl
    rwa [toNat_byte hlt]
  rw [encodeChar_eq, if_neg (by omega)] at hb
  split at hb
  · simp only [List.mem_cons, List.not_mem_nil, or_false] at hb
    rcases hb with hb | hb <;> exact hbyte (by omega) (by omega) hb
  · split at hb
    · simp only [List.mem_cons, List.not_mem_nil, or_false] at hb
      rcases hb with hb | hb | hb <;> exact hbyte (by omega) (by omega) hb
    · simp only [List.mem_cons, List.not_mem_nil, or_false] at hb
      rcases hb with hb | hb | hb | hb <;> exact hbyte (by omega) (by omega) hb

theorem ofNat_of_mem_encodeChar {c : Char} {b : UInt8} (hb : b ∈ encodeChar c) (hlt : b.toNat < 128) :
    Char.ofNat b.toNat = c := by
  have hc : c.toNat < 128 := by
    apply Nat.lt_of_not_le
    intro hle
    have := le_of_mem_encodeChar hle hb
    omega
  rw [encodeChar_of_lt hc, List.mem_singleton] at hb
  rw [hb, toNat_byte (by omega), Char.ofNat_toNat]

/-- A character's first byte continues no encoding. -/
theorem first_encodeChar {c : Char} {b : UInt8} {tail : Bytes} (h : encodeChar c = b :: tail) :
    b.toNat < 128 ∨ 192 ≤ b.toNat := by
  rw [encodeChar_eq] at h
  split at h
  · obtain ⟨rfl, -⟩ := List.cons.inj h
    left
    rw [toNat_byte (by omega)]
    omega
  · right
    repeat' split at h
    all_goals
      obtain ⟨rfl, -⟩ := List.cons.inj h
      rw [toNat_byte (by omega)]
      omega

theorem mem_tail_encodeChar {c : Char} {b : UInt8} (hb : b ∈ (encodeChar c).tail) :
    128 ≤ b.toNat ∧ b.toNat < 192 := by
  have hbyte : ∀ {n : Nat}, 128 ≤ n → n < 192 → b = UInt8.ofNat n → 128 ≤ b.toNat ∧ b.toNat < 192 := by
    rintro n hle hlt rfl
    rw [toNat_byte (by omega)]
    exact ⟨hle, hlt⟩
  rw [encodeChar_eq] at hb
  repeat' split at hb
  all_goals simp only [List.tail_cons, List.mem_cons, List.not_mem_nil, or_false] at hb
  · exact hbyte (by omega) (by omega) hb
  · rcases hb with hb | hb <;> exact hbyte (by omega) (by omega) hb
  · rcases hb with hb | hb | hb <;> exact hbyte (by omega) (by omega) hb

theorem payload_two {a b : Nat} (ha : a < 32) (hb : b < 64) (rest : Bytes) :
    payload (UInt8.ofNat (a + 0xC0) :: UInt8.ofNat (b + 0x80) :: rest) = a * 64 + b := by
  have hfirst : (UInt8.ofNat (a + 0xC0)).toNat = a + 0xC0 := toNat_byte (by omega)
  have hsecond : (UInt8.ofNat (b + 0x80)).toNat = b + 0x80 := toNat_byte (by omega)
  rw [payload, if_neg, if_pos]
  · simp only [continuation, List.getD_cons_zero, hfirst, hsecond]
    omega
  all_goals
    rw [UInt8.lt_iff_toNat_lt, hfirst]
    simp
    try omega

theorem payload_three {a b d : Nat} (ha : a < 16) (hb : b < 64) (hd : d < 64) (rest : Bytes) :
    payload (UInt8.ofNat (a + 0xE0) :: UInt8.ofNat (b + 0x80) :: UInt8.ofNat (d + 0x80) :: rest) =
      a * 4096 + b * 64 + d := by
  have hfirst : (UInt8.ofNat (a + 0xE0)).toNat = a + 0xE0 := toNat_byte (by omega)
  have hsecond : (UInt8.ofNat (b + 0x80)).toNat = b + 0x80 := toNat_byte (by omega)
  have hthird : (UInt8.ofNat (d + 0x80)).toNat = d + 0x80 := toNat_byte (by omega)
  rw [payload, if_neg, if_neg, if_pos]
  · simp only [continuation, List.getD_cons_zero, List.getD_cons_succ, hfirst, hsecond, hthird]
    omega
  all_goals
    rw [UInt8.lt_iff_toNat_lt, hfirst]
    simp
    try omega

theorem payload_four {a b d f : Nat} (ha : a < 8) (hb : b < 64) (hd : d < 64) (hf : f < 64)
    (rest : Bytes) :
    payload (UInt8.ofNat (a + 0xF0) :: UInt8.ofNat (b + 0x80) :: UInt8.ofNat (d + 0x80) ::
      UInt8.ofNat (f + 0x80) :: rest) = a * 262144 + b * 4096 + d * 64 + f := by
  have hfirst : (UInt8.ofNat (a + 0xF0)).toNat = a + 0xF0 := toNat_byte (by omega)
  have hsecond : (UInt8.ofNat (b + 0x80)).toNat = b + 0x80 := toNat_byte (by omega)
  have hthird : (UInt8.ofNat (d + 0x80)).toNat = d + 0x80 := toNat_byte (by omega)
  have hfourth : (UInt8.ofNat (f + 0x80)).toNat = f + 0x80 := toNat_byte (by omega)
  rw [payload, if_neg, if_neg, if_neg]
  · simp only [continuation, List.getD_cons_zero, List.getD_cons_succ, hfirst, hsecond, hthird, hfourth]
    omega
  all_goals
    rw [UInt8.lt_iff_toNat_lt, hfirst]
    simp
    try omega

/-- The payload bits of an encoding spell the character. -/
theorem payload_encodeChar_append {c : Char} (h : 128 ≤ c.toNat) (rest : Bytes) :
    payload (encodeChar c ++ rest) = c.toNat := by
  have hlt := toNat_lt c
  rw [encodeChar_eq, if_neg (by omega)]
  split
  · refine (payload_two (by omega) (by omega) rest).trans ?_
    omega
  · split
    · refine (payload_three (by omega) (by omega) (by omega) rest).trans ?_
      omega
    · refine (payload_four (by omega) (by omega) (by omega) (by omega) rest).trans ?_
      omega

/-! ### The character at the front -/

theorem front?_encodeChar_append (c : Char) (rest : Bytes) : front? (encodeChar c ++ rest) = some c := by
  by_cases h : c.toNat < 128
  · rw [encodeChar_of_lt h, List.singleton_append, front?, if_pos, toNat_byte (by omega), Char.ofNat_toNat]
    rw [UInt8.lt_iff_toNat_lt, toNat_byte (by omega)]
    exact h
  · have hpayload := payload_encodeChar_append (Nat.le_of_not_lt h) rest
    obtain ⟨b, tail, heq⟩ := List.exists_cons_of_ne_nil (encodeChar_ne_nil c)
    have hb : 128 ≤ b.toNat := le_of_mem_encodeChar (Nat.le_of_not_lt h) (by rw [heq]; exact List.mem_cons_self ..)
    rw [heq, List.cons_append] at hpayload ⊢
    rw [front?, if_neg (by rw [UInt8.lt_iff_toNat_lt]; exact Nat.not_lt.mpr hb), hpayload, Char.ofNat_toNat,
      if_pos]
    rw [heq, List.isPrefixOf_iff_prefix]
    exact ⟨rest, rfl⟩

theorem front?_of_lt {b : UInt8} (h : b.toNat < 128) (rest : Bytes) :
    front? (b :: rest) = some (Char.ofNat b.toNat) := by
  rw [front?, if_pos (UInt8.lt_iff_toNat_lt.mpr h)]

theorem le_of_front?_eq_none {b : UInt8} {rest : Bytes} (h : front? (b :: rest) = none) : 128 ≤ b.toNat := by
  apply Nat.le_of_not_lt
  intro hlt
  rw [front?_of_lt hlt] at h
  cases h

/-- A character is at the front exactly if its encoding is. -/
theorem front?_eq_some_iff {s : Bytes} {c : Char} : front? s = some c ↔ encodeChar c <+: s := by
  constructor
  · exact encodeChar_prefix_of_front?
  · rintro ⟨rest, rfl⟩
    exact front?_encodeChar_append c rest

/-- A byte that continues no encoding is in none that begins before it. -/
theorem encodeChar_prefix_append_iff {s : Bytes} {c : Char} {b : UInt8} (hs : s ≠ [])
    (hb : b.toNat < 128 ∨ 192 ≤ b.toNat) (rest : Bytes) : encodeChar c <+: s ++ b :: rest ↔ encodeChar c <+: s := by
  constructor
  · intro h
    by_cases hlength : (encodeChar c).length ≤ s.length
    · exact List.prefix_of_prefix_length_le h (List.prefix_append s _) hlength
    · -- the encoding would reach over the byte
      exfalso
      have hmore : s ++ [b] <+: encodeChar c := by
        have hrest : s ++ [b] <+: s ++ b :: rest := ⟨rest, by simp⟩
        refine List.prefix_of_prefix_length_le hrest h ?_
        simp only [List.length_append, List.length_singleton]
        omega
      obtain ⟨first, front, rfl⟩ := List.exists_cons_of_ne_nil hs
      obtain ⟨behind, heq⟩ := hmore
      have hinside := mem_tail_encodeChar (c := c) (b := b) (by simp [← heq])
      omega
  · intro h
    exact h.trans (List.prefix_append s _)

theorem front?_append {s : Bytes} {b : UInt8} (hs : s ≠ []) (hb : b.toNat < 128 ∨ 192 ≤ b.toNat)
    (rest : Bytes) : front? (s ++ b :: rest) = front? s := by
  apply Option.ext
  intro c
  rw [front?_eq_some_iff, front?_eq_some_iff, encodeChar_prefix_append_iff hs hb]

theorem front?_append_encodeChar {s : Bytes} (hs : s ≠ []) (c : Char) (rest : Bytes) :
    front? (s ++ (encodeChar c ++ rest)) = front? s := by
  obtain ⟨b, tail, heq⟩ := List.exists_cons_of_ne_nil (encodeChar_ne_nil c)
  rw [heq]
  exact front?_append hs (first_encodeChar heq) (tail ++ rest)

/-- A text is empty, or a text with a character or with a byte of none in front of it. -/
theorem text_induction {motive : Bytes → Prop} (nil : motive [])
    (char : ∀ c rest, motive rest → motive (encodeChar c ++ rest))
    (stray : ∀ b rest, front? (b :: rest) = none → motive rest → motive (b :: rest)) (s : Bytes) :
    motive s := by
  induction hlength : s.length using Nat.strongRecOn generalizing s with
  | ind n ih =>
      subst hlength
      cases hfront : front? s with
      | some c =>
          obtain ⟨rest, rfl⟩ := encodeChar_prefix_of_front? hfront
          have hpos := List.length_pos_iff.mpr (encodeChar_ne_nil c)
          exact char c rest (ih rest.length (by rw [List.length_append]; omega) rest rfl)
      | none =>
          cases s with
          | nil => exact nil
          | cons b rest => exact stray b rest hfront (ih rest.length (Nat.lt_succ_self _) rest rfl)

end Utf8

/-! ### Glyphs -/

namespace Glyph
open Utf8

theorem scan_eq_drop (skip : Nat) (s : Bytes) : scan skip s = scan 0 (s.drop skip) := by
  induction s generalizing skip with
  | nil => cases skip <;> rfl
  | cons b rest ih =>
      cases skip with
      | zero => rfl
      | succ skip => exact ih skip

theorem ofBytes_encodeChar_append (c : Char) (rest : Bytes) :
    ofBytes (encodeChar c ++ rest) = char c :: ofBytes rest := by
  have hfront := front?_encodeChar_append c rest
  obtain ⟨b, tail, heq, htail⟩ := exists_encodeChar_cons c
  rw [heq, List.cons_append] at hfront ⊢
  rw [ofBytes, scan, hfront]
  show char c :: scan (c.utf8Size - 1) (tail ++ rest) = char c :: ofBytes rest
  rw [scan_eq_drop, ← htail, List.drop_left]
  rfl

theorem ofBytes_stray {b : UInt8} {rest : Bytes} (h : front? (b :: rest) = none) :
    ofBytes (b :: rest) = stray b :: ofBytes rest := by
  rw [ofBytes, scan, h]
  rfl

theorem toBytes_append (gs hs : List Glyph) : toBytes (gs ++ hs) = toBytes gs ++ toBytes hs :=
  List.flatMap_append

/-- The glyphs of a text spell it. -/
theorem toBytes_ofBytes (s : Bytes) : toBytes (ofBytes s) = s := by
  induction s using text_induction with
  | nil => rfl
  | char c rest ih =>
      rw [ofBytes_encodeChar_append, toBytes, List.flatMap_cons]
      exact congrArg (encodeChar c ++ ·) ih
  | stray b rest hfront ih =>
      rw [ofBytes_stray hfront, toBytes, List.flatMap_cons]
      exact congrArg (b :: ·) ih

/-- The glyphs of a text with a character in it are those before, the character and those behind. -/
theorem ofBytes_append_encodeChar (a : Bytes) (c : Char) (b : Bytes) :
    ofBytes (a ++ (encodeChar c ++ b)) = ofBytes a ++ char c :: ofBytes b := by
  induction a using text_induction with
  | nil => exact ofBytes_encodeChar_append c b
  | char d rest ih =>
      rw [List.append_assoc, ofBytes_encodeChar_append, ofBytes_encodeChar_append, ih, List.cons_append]
  | stray first rest hfront ih =>
      have hmore := front?_append_encodeChar (List.cons_ne_nil first rest) c b
      rw [hfront, List.cons_append] at hmore
      rw [ofBytes_stray hfront, List.cons_append, List.cons_append, ofBytes_stray hmore, ih]

theorem ofBytes_append_ascii {byte : UInt8} (hbyte : byte.toNat < 128) (a b : Bytes) :
    ofBytes (a ++ byte :: b) = ofBytes a ++ char (Char.ofNat byte.toNat) :: ofBytes b := by
  have hglyphs := ofBytes_append_encodeChar a (Char.ofNat byte.toNat) b
  rw [encodeChar_ofNat_toNat (UInt8.lt_iff_toNat_lt.mpr hbyte)] at hglyphs
  exact hglyphs

end Glyph

/-! ### Trimming -/

/-- The text that characters spell. -/
def encodeChars (cs : List Char) : Bytes := cs.flatMap encodeChar

theorem encodeChars_cons (c : Char) (cs : List Char) : encodeChars (c :: cs) = encodeChar c ++ encodeChars cs :=
  List.flatMap_cons ..

theorem encodeChars_append (cs ds : List Char) : encodeChars (cs ++ ds) = encodeChars cs ++ encodeChars ds :=
  List.flatMap_append

theorem Glyph.ofBytes_append_encodeChars (s : Bytes) (cs : List Char) :
    ofBytes (s ++ encodeChars cs) = ofBytes s ++ cs.map char := by
  induction cs generalizing s with
  | nil =>
      rw [List.map_nil, List.append_nil]
      exact congrArg ofBytes (List.append_nil s)
  | cons c cs ih =>
      have hchars := ih []
      rw [List.nil_append] at hchars
      rw [encodeChars_cons, ofBytes_append_encodeChar, hchars]
      rfl

theorem Glyph.ofBytes_encodeChars (cs : List Char) : ofBytes (encodeChars cs) = cs.map char :=
  ofBytes_append_encodeChars [] cs

namespace Bytes
open Utf8

theorem exists_chars_of_satisfies {p : Char → Bool} {gs : List Glyph}
    (h : ∀ g ∈ gs, g.satisfies p = true) :
    ∃ cs, (∀ c ∈ cs, p c = true) ∧ Glyph.toBytes gs = encodeChars cs := by
  induction gs with
  | nil => exact ⟨[], nofun, rfl⟩
  | cons g gs ih =>
      rw [List.forall_mem_cons] at h
      obtain ⟨cs, hcs, hbytes⟩ := ih h.2
      cases g with
      | char c =>
          refine ⟨c :: cs, List.forall_mem_cons.mpr ⟨h.1, hcs⟩, ?_⟩
          rw [encodeChars_cons, ← hbytes]
          rfl
      | stray b => cases h.1

/-- What is trimmed off the end of a text is characters with the property. -/
theorem exists_trimEnd_append (p : Char → Bool) (s : Bytes) :
    ∃ cs, (∀ c ∈ cs, p c = true) ∧ s = trimEnd p s ++ encodeChars cs := by
  let gs := (Glyph.ofBytes s).reverse
  have hall : ∀ g ∈ (gs.takeWhile (Glyph.satisfies p)).reverse, g.satisfies p = true := by
    intro g hg
    exact List.all_eq_true.mp List.all_takeWhile g (List.mem_reverse.mp hg)
  obtain ⟨cs, hcs, hbytes⟩ := exists_chars_of_satisfies hall
  refine ⟨cs, hcs, ?_⟩
  rw [trimEnd, ← hbytes, ← Glyph.toBytes_append, ← List.reverse_append, List.takeWhile_append_dropWhile,
    List.reverse_reverse, Glyph.toBytes_ofBytes]

theorem trimEnd_append_encodeChars {p : Char → Bool} {cs : List Char} (hcs : ∀ c ∈ cs, p c = true) (s : Bytes) :
    trimEnd p (s ++ encodeChars cs) = trimEnd p s := by
  have hall : ∀ g ∈ (cs.map Glyph.char).reverse, g.satisfies p = true := by
    intro g hg
    obtain ⟨c, hc, rfl⟩ := List.mem_map.mp (List.mem_reverse.mp hg)
    exact hcs c hc
  rw [trimEnd, trimEnd, Glyph.ofBytes_append_encodeChars, List.reverse_append, List.dropWhile_append_of_pos hall]

/-- A text is trimmed of all the characters with the property that it ends with, and of nothing else. -/
theorem trimEnd_eq_iff {p : Char → Bool} {s kept : Bytes} : trimEnd p s = kept ↔
    (∃ cs, (∀ c ∈ cs, p c = true) ∧ s = kept ++ encodeChars cs) ∧
      ∀ front c, kept = front ++ encodeChar c → p c = false := by
  constructor
  · rintro rfl
    obtain ⟨cs, hcs, hs⟩ := exists_trimEnd_append p s
    refine ⟨⟨cs, hcs, hs⟩, ?_⟩
    intro front c hkept
    rw [Bool.eq_false_iff]
    intro hc
    -- one more character would have been trimmed off
    have hmore : trimEnd p s = trimEnd p front := by
      rw [hs, hkept, List.append_assoc, ← encodeChars_cons]
      exact trimEnd_append_encodeChars (List.forall_mem_cons.mpr ⟨hc, hcs⟩) front
    obtain ⟨ds, -, hfront⟩ := exists_trimEnd_append p front
    have hlength := congrArg List.length hfront
    rw [← hmore, hkept] at hlength
    have hpos := List.length_pos_iff.mpr (encodeChar_ne_nil c)
    simp only [List.length_append] at hlength
    omega
  · rintro ⟨⟨cs, hcs, rfl⟩, hlast⟩
    rw [trimEnd_append_encodeChars hcs]
    obtain ⟨ds, hds, hkept⟩ := exists_trimEnd_append p kept
    rcases List.eq_nil_or_concat ds with rfl | ⟨init, d, rfl⟩
    · exact (hkept.trans (List.append_nil _)).symm
    · rw [List.concat_eq_append, encodeChars_append, ← List.append_assoc] at hkept
      have hd := hlast _ d (hkept.trans (congrArg _ (List.append_nil _)))
      rw [hds d (by simp)] at hd
      cases hd

/-- An ASCII byte that is not trimmed off keeps all that stands before it. -/
theorem trimEnd_append_ascii {p : Char → Bool} {byte : UInt8} (hbyte : byte.toNat < 128)
    (hp : p (Char.ofNat byte.toNat) = false) (a b : Bytes) :
    trimEnd p (a ++ byte :: b) = a ++ byte :: trimEnd p b := by
  let kept : Glyph := .char (Char.ofNat byte.toNat)
  have hkept : ∀ gs hs : List Glyph, (gs ++ kept :: hs).dropWhile (Glyph.satisfies p) =
      gs.dropWhile (Glyph.satisfies p) ++ kept :: hs := by
    intro gs hs
    rw [List.dropWhile_append]
    split
    · rename_i hempty
      rw [List.isEmpty_iff.mp hempty, List.dropWhile_cons_of_neg (by simp [kept, Glyph.satisfies, hp])]
      rfl
    · rfl
  have hencode : Glyph.toBytes [kept] = [byte] := by
    rw [Glyph.toBytes, List.flatMap_singleton]
    exact encodeChar_ofNat_toNat (UInt8.lt_iff_toNat_lt.mpr hbyte)
  rw [trimEnd, Glyph.ofBytes_append_ascii hbyte, List.reverse_append, List.reverse_cons, List.append_assoc,
    List.singleton_append, hkept, List.reverse_append, List.reverse_cons, List.reverse_reverse,
    Glyph.toBytes_append, Glyph.toBytes_append, Glyph.toBytes_ofBytes, hencode, List.append_assoc]
  rfl

theorem trimStartFrom_eq_drop (p : Char → Bool) (skip : Nat) (s : Bytes) :
    trimStartFrom p skip s = trimStart p (s.drop skip) := by
  induction s generalizing skip with
  | nil => cases skip <;> rfl
  | cons b rest ih =>
      cases skip with
      | zero => rfl
      | succ skip => exact ih skip

theorem trimStart_encodeChar_append {p : Char → Bool} {c : Char} (hc : p c = true) (rest : Bytes) :
    trimStart p (encodeChar c ++ rest) = trimStart p rest := by
  have hfront := front?_encodeChar_append c rest
  obtain ⟨b, tail, heq, htail⟩ := exists_encodeChar_cons c
  rw [heq, List.cons_append] at hfront ⊢
  rw [trimStart, trimStartFrom, hfront]
  show (if p c then trimStartFrom p (c.utf8Size - 1) (tail ++ rest) else _) = _
  rw [if_pos hc, trimStartFrom_eq_drop, ← htail, List.drop_left]

/-- A text is trimmed at its start up to its first character without the property. -/
theorem trimStart_eq_self {p : Char → Bool} {s : Bytes} (h : ∀ c, front? s = some c → p c = false) :
    trimStart p s = s := by
  cases s with
  | nil => rfl
  | cons b rest =>
      rw [trimStart, trimStartFrom]
      split
      · rename_i c hfront
        rw [if_neg (by simp [h c hfront])]
      · rfl

theorem trimStart_encodeChars_append {p : Char → Bool} {cs : List Char} (hcs : ∀ c ∈ cs, p c = true)
    (rest : Bytes) : trimStart p (encodeChars cs ++ rest) = trimStart p rest := by
  induction cs with
  | nil => rfl
  | cons c cs ih =>
      rw [List.forall_mem_cons] at hcs
      rw [encodeChars_cons, List.append_assoc, trimStart_encodeChar_append hcs.1, ih hcs.2]

/-- What is trimmed off the start of a text is characters with the property. -/
theorem exists_append_trimStart (p : Char → Bool) (s : Bytes) :
    ∃ cs, (∀ c ∈ cs, p c = true) ∧ s = encodeChars cs ++ trimStart p s := by
  induction s using text_induction with
  | nil => exact ⟨[], nofun, rfl⟩
  | char c rest ih =>
      by_cases hc : p c = true
      · obtain ⟨cs, hcs, hrest⟩ := ih
        refine ⟨c :: cs, List.forall_mem_cons.mpr ⟨hc, hcs⟩, ?_⟩
        rw [trimStart_encodeChar_append hc, encodeChars_cons, List.append_assoc, ← hrest]
      · refine ⟨[], nofun, (trimStart_eq_self ?_).symm⟩
        intro d hd
        rw [front?_encodeChar_append, Option.some.injEq] at hd
        rw [← hd]
        exact Bool.eq_false_iff.mpr hc
  | stray b rest hfront _ =>
      refine ⟨[], nofun, (trimStart_eq_self ?_).symm⟩
      intro d hd
      rw [hfront] at hd
      cases hd

/-- A text is its trimmed form between blank characters. -/
theorem exists_append_trim_append (s : Bytes) :
    ∃ before after, (∀ c ∈ before, Scriptlet.isBlank c = true) ∧ (∀ c ∈ after, Scriptlet.isBlank c = true) ∧
      s = encodeChars before ++ trim s ++ encodeChars after := by
  obtain ⟨before, hbefore, hstart⟩ := exists_append_trimStart Scriptlet.isBlank s
  obtain ⟨after, hafter, hend⟩ := exists_trimEnd_append Scriptlet.isBlank (trimStart Scriptlet.isBlank s)
  refine ⟨before, after, hbefore, hafter, ?_⟩
  rw [trim, List.append_assoc, ← hend]
  exact hstart

/-- A text is trimmed to nothing exactly if it is spelled by blank characters. -/
theorem trim_eq_nil_iff {s : Bytes} :
    trim s = [] ↔ ∃ cs, (∀ c ∈ cs, Scriptlet.isBlank c = true) ∧ s = encodeChars cs := by
  constructor
  · intro h
    obtain ⟨before, after, hbefore, hafter, hs⟩ := exists_append_trim_append s
    refine ⟨before ++ after, List.forall_mem_append.mpr ⟨hbefore, hafter⟩, ?_⟩
    rw [h, List.append_nil] at hs
    rw [encodeChars_append]
    exact hs
  · rintro ⟨cs, hcs, rfl⟩
    have hstart := trimStart_encodeChars_append hcs []
    rw [List.append_nil] at hstart
    rw [trim, hstart]
    rfl

/-! ### Valid text

Text is valid if it is the encoding of characters. -/

open Glyph

theorem isUtf8_iff {s : Bytes} : isUtf8 s = true ↔ ∃ cs, s = encodeChars cs := by
  constructor
  · intro h
    obtain ⟨cs, -, heq⟩ := exists_chars_of_satisfies (List.all_eq_true.mp h)
    exact ⟨cs, (toBytes_ofBytes s).symm.trans heq⟩
  · rintro ⟨cs, rfl⟩
    rw [isUtf8, ofBytes_encodeChars, List.all_map]
    exact List.all_eq_true.mpr fun _ _ => rfl

theorem isUtf8_encodeChar_append (c : Char) (s : Bytes) : isUtf8 (encodeChar c ++ s) = isUtf8 s := by
  rw [isUtf8, ofBytes_encodeChar_append]
  rfl

theorem isUtf8_append_ascii {b : UInt8} (hb : b.toNat < 128) (s t : Bytes) :
    isUtf8 (s ++ b :: t) = (isUtf8 s && isUtf8 t) := by
  rw [isUtf8, ofBytes_append_ascii hb, List.all_append]
  rfl

theorem isUtf8_cons {b : UInt8} (hb : b.toNat < 128) (s : Bytes) : isUtf8 (b :: s) = isUtf8 s :=
  isUtf8_append_ascii hb [] s

/-- Bytes below 128 in front do not matter. -/
theorem isUtf8_ascii_append {s : Bytes} (hs : ∀ b ∈ s, b.toNat < 128) (t : Bytes) :
    isUtf8 (s ++ t) = isUtf8 t := by
  induction s with
  | nil => rfl
  | cons b s ih =>
      rw [List.forall_mem_cons] at hs
      rw [List.cons_append, isUtf8_cons hs.1, ih hs.2]

theorem isUtf8_append {s t : Bytes} (hs : isUtf8 s = true) : isUtf8 (s ++ t) = isUtf8 t := by
  obtain ⟨cs, rfl⟩ := isUtf8_iff.mp hs
  clear hs
  induction cs with
  | nil => rfl
  | cons c cs ih => rw [encodeChars_cons, List.append_assoc, isUtf8_encodeChar_append, ih]

theorem isUtf8_append_encodeChars (s : Bytes) (cs : List Char) : isUtf8 (s ++ encodeChars cs) = isUtf8 s := by
  have hchars : (cs.map Glyph.char).all (Glyph.satisfies fun _ => true) = true := by
    rw [List.all_map]
    exact List.all_eq_true.mpr fun _ _ => rfl
  rw [isUtf8, ofBytes_append_encodeChars, List.all_append, hchars, Bool.and_true]
  rfl

theorem isUtf8_trimEnd (p : Char → Bool) (s : Bytes) : isUtf8 (trimEnd p s) = isUtf8 s := by
  obtain ⟨cs, -, hs⟩ := exists_trimEnd_append p s
  rw [← isUtf8_append_encodeChars (trimEnd p s) cs, ← hs]

/-- Taking ASCII bytes out of a text does not cut a character in two. -/
theorem isUtf8_filter {p : UInt8 → Bool} (hp : ∀ b : UInt8, 128 ≤ b.toNat → p b = true) {s : Bytes}
    (hs : isUtf8 s = true) : isUtf8 (s.filter p) = true := by
  obtain ⟨cs, rfl⟩ := isUtf8_iff.mp hs
  clear hs
  induction cs with
  | nil => rfl
  | cons c cs ih =>
      rw [encodeChars_cons, List.filter_append]
      by_cases hc : c.toNat < 128
      · have hbyte : ∀ b ∈ (encodeChar c).filter p, b.toNat < 128 := by
          intro b hb
          rw [encodeChar_of_lt hc] at hb
          rw [List.mem_singleton.mp (List.mem_filter.mp hb).1, toNat_byte (by omega)]
          exact hc
        rw [isUtf8_ascii_append hbyte, ih]
      · have hall : ∀ b ∈ encodeChar c, p b = true :=
          fun b hb => hp b (le_of_mem_encodeChar (Nat.le_of_not_lt hc) hb)
        rw [List.filter_eq_self.mpr hall, isUtf8_encodeChar_append, ih]

end Bytes
end Scriptlet
