import Scriptlet.Json
import Scriptlet.Proofs.JsonStrings

/-!
JSON text and its values. The lexemes of a text are found whatever the bound on their number, as long as it
is no less than the length of the text. An object of strings is built from the lexemes of its members, one
after the other. In the other direction, the strings that a value is built from are valid text, however
the text was written.
-/

namespace Scriptlet.Json

/-! ### Lexemes -/

/-- The text has these lexemes, found with any fuel that suffices. -/
def Lexes (s : Bytes) (ls : List Lexeme) : Prop := ∀ fuel, s.length ≤ fuel → lexemesFrom fuel s = some ls

theorem Lexes.nil : Lexes [] [] := by
  intro fuel _
  cases fuel <;> rfl

theorem Lexes.space {b : UInt8} {s : Bytes} {ls : List Lexeme} (hb : isSpace b = true) (h : Lexes s ls) :
    Lexes (b :: s) ls := by
  intro fuel hfuel
  rw [← h fuel (Nat.le_of_succ_le hfuel)]
  have hdrop : (b :: s).dropWhile isSpace = s.dropWhile isSpace := List.dropWhile_cons_of_pos hb
  cases fuel <;> simp only [lexemesFrom, hdrop]

theorem Lexes.cons {b : UInt8} {s rest : Bytes} {l : Lexeme} {ls : List Lexeme} (hb : isSpace b = false)
    (hl : lexeme? (b :: s) = some (l, rest)) (hrest : rest.length ≤ s.length) (h : Lexes rest ls) :
    Lexes (b :: s) (l :: ls) := by
  intro fuel hfuel
  have hdrop : (b :: s).dropWhile isSpace = b :: s := List.dropWhile_cons_of_neg (by rw [hb]; decide)
  cases fuel with
  | zero => cases hfuel
  | succ fuel =>
      have hfound := h fuel (Nat.le_trans hrest (Nat.le_of_succ_le_succ hfuel))
      simp only [lexemesFrom, hdrop, hl, hfound]

theorem Lexes.string {s rest : Bytes} {ls : List Lexeme} (hs : s.isUtf8 = true) (h : Lexes rest ls) :
    Lexes (writeString s ++ rest) (.string s :: ls) := by
  apply Lexes.cons (b := Ascii.doubleQuote) rfl (lexeme?_writeString hs rest) ?_ h
  rw [List.append_eq, List.length_append]
  exact Nat.le_add_left ..

/-- The text without some bytes below 128 at its front. -/
def SkipsAscii (s rest : Bytes) : Prop := ∃ taken, (∀ b ∈ taken, b.toNat < 128) ∧ s = taken ++ rest

theorem SkipsAscii.isUtf8_eq {s rest : Bytes} (h : SkipsAscii s rest) : s.isUtf8 = rest.isUtf8 := by
  obtain ⟨taken, htaken, rfl⟩ := h
  exact Bytes.isUtf8_ascii_append htaken rest

theorem SkipsAscii.refl (s : Bytes) : SkipsAscii s s := ⟨[], nofun, rfl⟩

theorem SkipsAscii.trans {s t u : Bytes} (h : SkipsAscii s t) (h' : SkipsAscii t u) : SkipsAscii s u := by
  obtain ⟨taken, htaken, rfl⟩ := h
  obtain ⟨taken', htaken', rfl⟩ := h'
  exact ⟨taken ++ taken', List.forall_mem_append.mpr ⟨htaken, htaken'⟩, (List.append_assoc ..).symm⟩

theorem SkipsAscii.cons {b : UInt8} (hb : b.toNat < 128) (s : Bytes) : SkipsAscii (b :: s) s :=
  ⟨[b], List.forall_mem_singleton.mpr hb, rfl⟩

theorem SkipsAscii.dropWhile {p : UInt8 → Bool} (hp : ∀ b, p b = true → b.toNat < 128) (s : Bytes) :
    SkipsAscii s (s.dropWhile p) := by
  refine ⟨s.takeWhile p, ?_, List.takeWhile_append_dropWhile.symm⟩
  intro b hb
  exact hp b (List.all_eq_true.mp List.all_takeWhile b hb)

theorem isDigit_lt {b : UInt8} (h : Ascii.isDigit b = true) : b.toNat < 128 := by
  rw [Ascii.isDigit, Bool.and_eq_true, decide_eq_true_eq, decide_eq_true_eq, UInt8.le_iff_toNat_le] at h
  exact Nat.lt_of_le_of_lt (UInt8.le_iff_toNat_le.mp h.2) (by decide)

theorem isSpace_lt {b : UInt8} (h : isSpace b = true) : b.toNat < 128 := by
  simp only [isSpace, Bool.or_eq_true, beq_iff_eq] at h
  rcases h with ((rfl | rfl) | rfl) | rfl <;> decide

theorem skipDigits?_skips {s rest : Bytes} (h : skipDigits? s = some rest) : SkipsAscii s rest := by
  unfold skipDigits? at h
  split at h
  · cases h
  · split at h
    · cases h
      exact (SkipsAscii.cons (isDigit_lt ‹_›) _).trans (.dropWhile (fun _ => isDigit_lt) _)
    · cases h

theorem skipSign_skips (s : Bytes) : SkipsAscii s (skipSign s) := by
  unfold skipSign
  split
  · exact .cons (by decide) _
  · exact .cons (by decide) _
  · exact .refl _

theorem skipWhole?_skips {s rest : Bytes} (h : skipWhole? s = some rest) : SkipsAscii s rest := by
  unfold skipWhole? at h
  split at h
  · cases h
    exact .cons (by decide) _
  · exact skipDigits?_skips h

theorem skipFraction?_skips {s rest : Bytes} (h : skipFraction? s = some rest) : SkipsAscii s rest := by
  unfold skipFraction? at h
  split at h
  · exact (SkipsAscii.cons (by decide) _).trans (skipDigits?_skips h)
  · cases h
    exact .refl _

theorem skipExponent?_skips {s rest : Bytes} (h : skipExponent? s = some rest) : SkipsAscii s rest := by
  unfold skipExponent? at h
  split at h
  · exact (SkipsAscii.cons (by decide) _).trans ((skipSign_skips _).trans (skipDigits?_skips h))
  · exact (SkipsAscii.cons (by decide) _).trans ((skipSign_skips _).trans (skipDigits?_skips h))
  · cases h
    exact .refl _

theorem skipNumber?_skips {s rest : Bytes} (h : skipNumber? s = some rest) : SkipsAscii s rest := by
  have hsign : SkipsAscii s (if s.head? = some Ascii.minus then s.tail else s) := by
    split
    · rename_i hminus
      obtain ⟨s', rfl⟩ := List.head?_eq_some_iff.mp hminus
      exact .cons (by decide) _
    · exact .refl _
  obtain ⟨fraction, hfraction, hexponent⟩ := Option.bind_eq_some_iff.mp h
  obtain ⟨whole, hwhole, hpoint⟩ := Option.bind_eq_some_iff.mp hfraction
  exact hsign.trans ((skipWhole?_skips hwhole).trans
    ((skipFraction?_skips hpoint).trans (skipExponent?_skips hexponent)))

theorem word?_eq_some {w s rest : Bytes} {l l' : Lexeme} (h : word? w l s = some (l', rest)) :
    l' = l ∧ s = w ++ rest := by
  unfold word? at h
  split at h
  · rename_i hfront
    obtain ⟨s', rfl⟩ := List.isPrefixOf_iff_prefix.mp hfront
    cases h
    rw [List.drop_left]
    exact ⟨rfl, rfl⟩
  · cases h

theorem word?_skips {w s rest : Bytes} {l l' : Lexeme} (hw : (w.all fun b => b.toNat < 128) = true)
    (h : word? w l s = some (l', rest)) : l' = l ∧ SkipsAscii s rest := by
  obtain ⟨hl, hs⟩ := word?_eq_some h
  exact ⟨hl, w, fun b hb => of_decide_eq_true (List.all_eq_true.mp hw b hb), hs⟩

/-- A lexeme of valid text leaves valid text, and if it is a string, that is valid. -/
theorem isUtf8_of_lexeme? {s rest : Bytes} {l : Lexeme} (h : lexeme? s = some (l, rest))
    (hs : s.isUtf8 = true) : rest.isUtf8 = true ∧ ∀ value, l = .string value → value.isUtf8 = true := by
  have hother : SkipsAscii s rest → (∀ value, l ≠ .string value) →
      rest.isUtf8 = true ∧ ∀ value, l = .string value → value.isUtf8 = true :=
    fun hskips hl => ⟨hskips.isUtf8_eq ▸ hs, fun value heq => absurd heq (hl value)⟩
  have hword : ∀ {w : Bytes} {l' : Lexeme}, (w.all fun b => b.toNat < 128) = true →
      word? w l' s = some (l, rest) → (∀ value, l' ≠ .string value) →
      rest.isUtf8 = true ∧ ∀ value, l = .string value → value.isUtf8 = true := by
    intro w l' hw hfound hl
    obtain ⟨rfl, hskips⟩ := word?_skips hw hfound
    exact hother hskips hl
  cases s with
  | nil => cases h
  | cons b s =>
      simp only [lexeme?] at h
      split at h
      case h_7 =>
        split at h
        · rename_i hread
          cases h
          rw [Bytes.isUtf8_cons (by decide)] at hs
          obtain ⟨hspell, hrest⟩ := isUtf8_of_pieces? hread [] hs
          exact ⟨hrest, fun value hl => Lexeme.string.inj hl ▸ hspell⟩
        · cases h
      case h_8 => exact hword rfl h fun _ heq => by cases heq
      case h_9 => exact hword rfl h fun _ heq => by cases heq
      case h_10 => exact hword rfl h fun _ heq => by cases heq
      case h_11 =>
        split at h
        · cases h
          exact hother (skipNumber?_skips ‹_›) fun _ heq => by cases heq
        · cases h
      all_goals
        cases h
        exact hother (.cons (by decide) _) fun _ heq => by cases heq

theorem dropWhile_of_lexemesFrom_nil {fuel : Nat} {s : Bytes} (h : lexemesFrom fuel s = some []) :
    s.dropWhile isSpace = [] := by
  cases fuel with
  | zero =>
      rw [lexemesFrom] at h
      split at h
      · assumption
      · cases h
  | succ fuel =>
      rw [lexemesFrom] at h
      split at h
      · assumption
      · split at h
        · cases h
        · split at h <;> cases h

theorem lexeme?_of_lexemesFrom_cons {fuel : Nat} {s : Bytes} {l : Lexeme} {ls : List Lexeme}
    (h : lexemesFrom fuel s = some (l :: ls)) :
    ∃ fuel' rest, lexeme? (s.dropWhile isSpace) = some (l, rest) ∧ lexemesFrom fuel' rest = some ls := by
  cases fuel with
  | zero =>
      rw [lexemesFrom] at h
      split at h <;> cases h
  | succ fuel =>
      rw [lexemesFrom] at h
      split at h
      · cases h
      · rename_i b rest hdrop
        split at h
        · cases h
        · rename_i l' left hl
          split at h
          · rename_i ls' hls
            cases h
            exact ⟨fuel, left, hdrop ▸ hl, hls⟩
          · cases h

/-- The strings among the lexemes of valid text are valid. -/
theorem isUtf8_of_lexemesFrom {fuel : Nat} {s : Bytes} {ls : List Lexeme}
    (h : lexemesFrom fuel s = some ls) (hs : s.isUtf8 = true) :
    ∀ value, .string value ∈ ls → value.isUtf8 = true := by
  induction ls generalizing fuel s with
  | nil => exact nofun
  | cons l ls ih =>
      obtain ⟨fuel', rest, hl, hls⟩ := lexeme?_of_lexemesFrom_cons h
      rw [(SkipsAscii.dropWhile (fun _ => isSpace_lt) s).isUtf8_eq] at hs
      obtain ⟨hrest, hstring⟩ := isUtf8_of_lexeme? hl hs
      intro value hvalue
      rcases List.mem_cons.mp hvalue with hl | hmem
      · exact hstring value hl.symm
      · exact ih hls hrest value hmem

/-! ### Values -/

/-- The strings that a value shows have the property: itself, or the names and the values of its members. -/
def Value.Shows (P : Bytes → Prop) : Value → Prop
  | .string value => P value
  | .object members => ∀ m ∈ members, P m.1 ∧ ∀ value, m.2 = .string value → P value
  | _ => True

def Frame.Shows (P : Bytes → Prop) : Frame → Prop
  | .array _ => True
  | .object members name => P name ∧ (Value.object members).Shows P

theorem Value.Shows.member {P : Bytes → Prop} {v : Value} {members : List (Bytes × Value)} {name : Bytes}
    (hv : v.Shows P) (hframe : (Frame.object members name).Shows P) :
    (Value.object ((name, v) :: members)).Shows P := by
  refine List.forall_mem_cons.mpr ⟨⟨hframe.1, ?_⟩, hframe.2⟩
  rintro value rfl
  exact hv

/-- A value shows only strings that are among the lexemes. -/
theorem build_shows {P : Bytes → Prop} {done : Option Value} {room : Nat} {stack : List Frame}
    {ls : List Lexeme} {v : Value} (h : build done room stack ls = some v)
    (hdone : ∀ d, done = some d → d.Shows P) (hstack : ∀ f ∈ stack, f.Shows P)
    (hls : ∀ value, .string value ∈ ls → P value) : v.Shows P := by
  have behind : ∀ {l : Lexeme} {ls : List Lexeme}, (∀ value, .string value ∈ l :: ls → P value) →
      ∀ value, .string value ∈ ls → P value :=
    fun hls value hvalue => hls value (List.mem_cons_of_mem _ hvalue)
  have now : ∀ {d : Value}, d.Shows P → ∀ d', some d = some d' → d'.Shows P :=
    fun hd _ heq => Option.some.inj heq ▸ hd
  fun_induction build done room stack ls with
  | case1 room stack rest ih => exact ih h (now trivial) hstack (behind hls)
  | case2 room stack b rest ih => exact ih h (now trivial) hstack (behind hls)
  | case3 room stack rest ih => exact ih h (now trivial) hstack (behind hls)
  | case4 room stack value rest ih =>
      exact ih h (now (hls value (List.mem_cons_self ..))) hstack (behind hls)
  | case5 room stack rest ih => exact ih h (now trivial) hstack (behind (behind hls))
  | case6 room stack rest _ ih =>
      exact ih h nofun (List.forall_mem_cons.mpr ⟨trivial, hstack⟩) (behind hls)
  | case7 room stack rest ih => exact ih h (now nofun) hstack (behind (behind hls))
  | case8 room stack name rest ih =>
      have hname := behind hls name (List.mem_cons_self ..)
      exact ih h nofun (List.forall_mem_cons.mpr ⟨⟨hname, nofun⟩, hstack⟩) (behind (behind (behind hls)))
  | case9 d room items stack rest ih =>
      rw [List.forall_mem_cons] at hstack
      exact ih h nofun (List.forall_mem_cons.mpr ⟨trivial, hstack.2⟩) (behind hls)
  | case10 d room items stack rest ih =>
      rw [List.forall_mem_cons] at hstack
      exact ih h (now trivial) hstack.2 (behind hls)
  | case11 d room members name stack name' rest ih =>
      rw [List.forall_mem_cons] at hstack
      have hname := behind hls name' (List.mem_cons_self ..)
      have hmembers := (hdone d rfl).member hstack.1
      exact ih h nofun (List.forall_mem_cons.mpr ⟨⟨hname, hmembers⟩, hstack.2⟩) (behind (behind (behind hls)))
  | case12 d room members name stack rest ih =>
      rw [List.forall_mem_cons] at hstack
      have hmembers := (hdone d rfl).member hstack.1
      exact ih h (now fun m hm => hmembers m (List.mem_reverse.mp hm)) hstack.2 (behind hls)
  | case13 => exact hdone v h
  | case14 => cases h

/-- The strings that a value read from a text shows are valid, whatever the text. -/
theorem parse?_shows {s : Bytes} {v : Value} (h : parse? s = some v) : v.Shows (Bytes.isUtf8 · = true) := by
  obtain ⟨ls, hls, hbuild⟩ := Option.bind_eq_some_iff.mp h
  exact build_shows hbuild nofun nofun (isUtf8_of_lexemesFrom hls (isUtf8_repair s))

/-- The lexemes behind the value of a member, up to the end of the object. -/
def membersBehind : List (Bytes × Bytes) → List Lexeme
  | [] => [.closeBrace]
  | (name, value) :: members => .comma :: .string name :: .colon :: .string value :: membersBehind members

theorem build_membersBehind (v : Value) (room : Nat) (before : List (Bytes × Value)) (name : Bytes)
    (members : List (Bytes × Bytes)) :
    build (some v) room [.object before name] (membersBehind members) =
      some (.object (before.reverse ++ (name, v) :: members.map fun m => (m.1, .string m.2))) := by
  induction members generalizing v before name with
  | nil => simp [membersBehind, build]
  | cons m members ih => simp [membersBehind, build, ih]

/-- An object of strings, from the lexemes of its members. -/
theorem build_object (m : Bytes × Bytes) (members : List (Bytes × Bytes)) :
    build none maxDepth [] (.openBrace :: .string m.1 :: .colon :: .string m.2 :: membersBehind members) =
      some (.object ((m :: members).map fun m => (m.1, .string m.2))) := by
  show build none (9999 + 1) [] _ = _
  rw [build, build, build_membersBehind]
  rfl

end Scriptlet.Json
