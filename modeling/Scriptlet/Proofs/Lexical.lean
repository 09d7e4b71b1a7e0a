import Scriptlet.Proofs.Scanning

/-!
The lexical grammar. A source is written as blanks, a token, blanks, a token and so on up to blanks at its
end, where a word or an integer does not run on into what follows it. Scanning accepts the sources that
can be written so and no others, and gives back the tokens they were written with. Since scanning is a
function, no source can be written with two lists of tokens.
-/

namespace Scriptlet

namespace Token
open Ascii Utf8

/-- A run of horizontal blanks. -/
def Blanks (s : Bytes) : Prop := ∃ cs : List Char, (∀ c ∈ cs, isHorizontalBlank c = true) ∧ s = encodeChars cs

/-- The source is written with the tokens: each in its written form, with blanks before, between and behind
them, and nothing that extends a word or an integer directly behind it. -/
inductive Written : Bytes → List Token → Prop where
  | nil {blanks : Bytes} (hblanks : Blanks blanks) : Written blanks []
  | cons {blanks rest : Bytes} {token : Token} {tokens : List Token} (hblanks : Blanks blanks)
      (hlexeme : token.IsLexeme) (hends : token.EndsBefore rest) (hrest : Written rest tokens) :
      Written (blanks ++ token.value ++ rest) (token :: tokens)

theorem Blanks.nil : Blanks [] := ⟨[], nofun, rfl⟩

theorem Blanks.cons {c : Char} (hc : isHorizontalBlank c = true) {s : Bytes} (h : Blanks s) :
    Blanks (encodeChar c ++ s) := by
  obtain ⟨cs, hcs, rfl⟩ := h
  exact ⟨c :: cs, List.forall_mem_cons.mpr ⟨hc, hcs⟩, (encodeChars_cons c cs).symm⟩

theorem Written.blank {c : Char} (hc : isHorizontalBlank c = true) {s : Bytes} {tokens : List Token}
    (h : Written s tokens) : Written (encodeChar c ++ s) tokens := by
  cases h with
  | nil hblanks => exact .nil (hblanks.cons hc)
  | cons hblanks hlexeme hends hrest =>
      rw [List.append_assoc, ← List.append_assoc, ← List.append_assoc]
      exact .cons (hblanks.cons hc) hlexeme hends hrest

theorem Written.space {s : Bytes} {tokens : List Token} (h : Written s tokens) :
    Written (Ascii.space :: s) tokens := h.blank (show isHorizontalBlank ' ' = true by decide)

theorem Written.token {token : Token} (hlexeme : token.IsLexeme) {s : Bytes} (hends : token.EndsBefore s)
    {tokens : List Token} (h : Written s tokens) : Written (token.value ++ s) (token :: tokens) :=
  .cons .nil hlexeme hends h

/-! ### Scanning what is written -/

theorem written_of_scan {s : Bytes} {tokens : List Token} (h : scan 0 s = .ok tokens) :
    Written s tokens := by
  induction s using scan_induction generalizing tokens with
  | nil =>
      cases h
      exact .nil .nil
  | blank c rest hc ih =>
      rw [scan_blank hc] at h
      exact (ih h).blank hc
  | token t rest hlexeme hends ih =>
      rw [scan_token hlexeme hends] at h
      obtain ⟨more, hmore, rfl⟩ := exists_of_map_eq_ok h
      exact .cons .nil hlexeme hends (ih hmore)
  | stuck s hs hblank htoken =>
      rw [scan_stuck hs hblank htoken] at h
      cases h

theorem Written.scan {s : Bytes} {tokens : List Token} (h : Written s tokens) : scan 0 s = .ok tokens := by
  induction h with
  | nil hblanks =>
      obtain ⟨cs, hcs, rfl⟩ := hblanks
      have hscan := scan_horizontalBlanks hcs []
      rw [List.append_nil] at hscan
      exact hscan
  | cons hblanks hlexeme hends _ ih =>
      obtain ⟨cs, hcs, rfl⟩ := hblanks
      rw [List.append_assoc, scan_horizontalBlanks hcs, scan_token hlexeme hends, ih]
      rfl

/-! ### Blanks at the end

A source is trimmed before it is scanned. Every written form ends with an ASCII byte that is no blank, so
trimming takes off the last blanks and leaves the tokens alone. -/

theorem IsLexeme.last {token : Token} (h : token.IsLexeme) : ∃ init b, token.value = init ++ [b] ∧
    b.toNat < 128 ∧ isHorizontalBlank (Char.ofNat b.toNat) = false := by
  have hword : ∀ {word : Bytes}, word ≠ [] → (∀ c ∈ word, isWord c = true) → ∃ init b, word = init ++ [b] ∧
      b.toNat < 128 ∧ isHorizontalBlank (Char.ofNat b.toNat) = false := by
    intro word hne hall
    refine ⟨word.dropLast, word.getLast hne, (List.dropLast_concat_getLast hne).symm, ?_⟩
    exact isWord_byte (hall _ (List.getLast_mem hne))
  cases h with
  | keyword hkeyword =>
      obtain ⟨b, tail, rfl, hfirst, htail⟩ := exists_word_of_mem hkeyword
      exact hword (by simp) (List.forall_mem_cons.mpr ⟨by simp [isWord, hfirst], htail⟩)
  | name hfirst htail _ =>
      exact hword (by simp) (List.forall_mem_cons.mpr ⟨by simp [isWord, hfirst], htail⟩)
  | @string quote body hquote _ =>
      refine ⟨quote :: body, quote, rfl, ?_⟩
      rcases hquote with rfl | rfl <;> decide
  | integer hne hdigits => exact hword hne fun c hc => by simp [isWord, hdigits c hc]
  | @symbol b _ hsymbol =>
      have hall : ∀ entry ∈ symbols, entry.1.toNat < 128 ∧
          isHorizontalBlank (Char.ofNat entry.1.toNat) = false := by decide
      exact ⟨[], b, rfl, hall _ hsymbol⟩

theorem trimSource_token {token : Token} (h : token.IsLexeme) (front rest : Bytes) :
    trimSource (front ++ token.value ++ rest) = front ++ token.value ++ trimSource rest := by
  obtain ⟨init, b, hvalue, hlt, hblank⟩ := h.last
  have hsplit : ∀ tail, front ++ token.value ++ tail = (front ++ init) ++ b :: tail := by simp [hvalue]
  rw [hsplit, hsplit]
  exact Bytes.trimEnd_append_ascii hlt hblank (front ++ init) rest

theorem trimSource_blanks {s : Bytes} (h : Blanks s) : trimSource s = [] := by
  obtain ⟨cs, hcs, rfl⟩ := h
  exact Bytes.trimEnd_append_encodeChars hcs []

theorem Written.trimSource {s : Bytes} {tokens : List Token} (h : Written s tokens) :
    Written (trimSource s) tokens := by
  induction h with
  | nil hblanks => exact trimSource_blanks hblanks ▸ .nil .nil
  | @cons blanks rest token tokens hblanks hlexeme hends _ ih =>
      rw [trimSource_token hlexeme]
      refine .cons hblanks hlexeme ?_ ih
      obtain ⟨cs, _, hrest⟩ := Bytes.exists_trimEnd_append isHorizontalBlank rest
      rw [hrest] at hends
      exact hends.of_append

end Token

open Token

/-- Scanning accepts exactly the sources that are written with tokens, and no source is written with two
lists of tokens. -/
theorem tokenize_eq_ok_iff_written (source : Bytes) (tokens : List Token) :
    (tokenize source = .ok tokens ↔ Written source tokens) ∧
      ∀ others, Written source tokens → Written source others → others = tokens := by
  have htokenize : ∀ {ts}, Written source ts → tokenize source = .ok ts := fun h => h.trimSource.scan
  refine ⟨⟨fun h => written_of_scan (scan_of_tokenize h), htokenize⟩, ?_⟩
  intro others htokens hothers
  have hsame := (htokenize hothers).symm.trans (htokenize htokens)
  exact Except.ok.inj hsame

end Scriptlet
