import Scriptlet.Proofs.Lexical

/-!
Where scanning fails. A text begins with no token for one of four reasons: its first character is of no use to
any rule, its first byte is part of no character, a quote is not closed on its line, or digits run on into a
word. Scanning fails at the first such place behind complete tokens and blanks, and the remainder it reports
is all of the source from there on but the blanks at its end. What follows on further lines never changes
where that is.
-/

namespace Scriptlet

namespace Token
open Ascii Utf8

/-- The characters that tokens begin with, letters and digits aside. -/
def punctuation : List Char := ['_', '"', '\'', '+', '-', '*', '/', '=', '(', ')', ',']

/-- A character that tokens neither begin with nor are separated by: it is no white space, no letter or digit
of ASCII, no underscore, no quote and no symbol. -/
def isForeign (c : Char) : Bool := !isBlank c && !c.isAlphanum && !punctuation.contains c

/-- The text begins with something that is neither a blank nor a token. -/
inductive Stuck : Bytes → Prop where
  | foreign {c : Char} (hc : isForeign c = true) (rest : Bytes) : Stuck (encodeChar c ++ rest)
  | stray {b : UInt8} {rest : Bytes} (hb : front? (b :: rest) = none) : Stuck (b :: rest)
  | unclosed {quote : UInt8} {rest : Bytes} (hquote : quote = doubleQuote ∨ quote = singleQuote)
      (hopen : quote ∉ Bytes.firstLine rest) : Stuck (quote :: rest)
  | runOn {digits : Bytes} {b : UInt8} (hne : digits ≠ []) (hdigits : ∀ c ∈ digits, isDigit c = true)
      (hb : isWordStart b = true) (rest : Bytes) : Stuck (digits ++ b :: rest)

/-! ### Why no token begins here -/

/-- No rule begins with the byte. -/
def beginsNothing (b : UInt8) : Bool :=
  !isWordStart b && !isQuote b && !isDigit b && (symbolKind? b).isNone

theorem lexeme?_of_beginsNothing {b : UInt8} (h : beginsNothing b = true) (rest : Bytes) :
    lexeme? (b :: rest) = none := by
  simp only [beginsNothing, Bool.and_eq_true, Bool.not_eq_true', Option.isNone_iff_eq_none] at h
  obtain ⟨⟨⟨hword, hquote⟩, hdigit⟩, hsymbol⟩ := h
  simp [lexeme?, hword, hquote, hdigit, hsymbol]

theorem lexeme?_of_le {b : UInt8} (h : 128 ≤ b.toNat) (rest : Bytes) : lexeme? (b :: rest) = none := by
  rw [Option.eq_none_iff_forall_ne_some]
  intro token htoken
  obtain ⟨behind, heq, hlexeme, -⟩ := exists_of_lexeme? htoken
  obtain ⟨first, tail, hvalue, hlt, -⟩ := hlexeme.first
  rw [hvalue, List.cons_append] at heq
  rw [← (List.cons.inj heq).1] at hlt
  omega

theorem isForeign_of_lt {n : Nat} (h : n < 128) :
    isForeign (Char.ofNat n) = (beginsNothing (UInt8.ofNat n) && !isHorizontalBlank (Char.ofNat n)) := by
  have hall : ∀ n < 128, isForeign (Char.ofNat n) =
      (beginsNothing (UInt8.ofNat n) && !isHorizontalBlank (Char.ofNat n)) := by decide
  exact hall n h

theorem lt_of_isAlphanum {c : Char} (h : c.isAlphanum = true) : c.toNat < 128 := by
  have hranges : (decide (c.val ≥ 'A'.val ∧ c.val ≤ 'Z'.val) ||
      (decide (c.val ≥ 'a'.val) && decide (c.val ≤ 'z'.val)) ||
      (decide (c.val ≥ '0'.val) && decide (c.val ≤ '9'.val))) = true := h
  simp only [Bool.or_eq_true, Bool.and_eq_true, decide_eq_true_eq, UInt32.le_iff_toNat_le, ge_iff_le] at hranges
  have hval : c.val.toNat = c.toNat := rfl
  have hlast : 'Z'.val.toNat = 90 ∧ 'z'.val.toNat = 122 ∧ '9'.val.toNat = 57 := ⟨rfl, rfl, rfl⟩
  omega

theorem lt_of_mem_punctuation {c : Char} (h : c ∈ punctuation) : c.toNat < 128 := by
  have hall : (punctuation.all fun d => decide (d.toNat < 128)) = true := rfl
  exact of_decide_eq_true (List.all_eq_true.mp hall c h)

theorem isForeign_of_le {c : Char} (h : 128 ≤ c.toNat) : isForeign c = !isHorizontalBlank c := by
  have hnewline : c ≠ '\n' := by
    rintro rfl
    exact absurd h (by decide)
  have halnum : c.isAlphanum = false := by
    rw [Bool.eq_false_iff]
    intro hc
    exact absurd (lt_of_isAlphanum hc) (Nat.not_lt.mpr h)
  have hpunctuation : c ∉ punctuation := by
    intro hc
    exact absurd (lt_of_mem_punctuation hc) (Nat.not_lt.mpr h)
  simp [isForeign, isHorizontalBlank, hnewline, halnum, hpunctuation]

/-- A string is closed exactly if its quote comes again on the same line. -/
theorem closed_iff {quote : UInt8} (hquote : quote ≠ newline) (rest : Bytes) :
    (rest.drop (stringBody quote rest).length).head? = some quote ↔ quote ∈ Bytes.firstLine rest := by
  induction rest with
  | nil => simp [stringBody, Bytes.firstLine]
  | cons b rest ih =>
      simp only [stringBody, Bytes.firstLine, List.head?_drop] at ih ⊢
      by_cases hline : b = newline
      · simp [hline, hquote.symm]
      · by_cases hclose : b = quote
        · simp [hclose, hquote]
        · simp [hline, hclose, Ne.symm hclose, ih]

/-- A word is more than digits exactly if digits run on into a letter or an underscore. -/
theorem runsOn_iff (rest : Bytes) : (rest.takeWhile isWord).all isDigit = false ↔
    ∃ digits b more, rest = digits ++ b :: more ∧ (∀ c ∈ digits, isDigit c = true) ∧ isWordStart b = true := by
  constructor
  · intro h
    have hall : ∀ c ∈ rest.takeWhile isWord, isWord c = true := List.all_eq_true.mp List.all_takeWhile
    have hrest := List.takeWhile_append_dropWhile (p := isWord) (l := rest)
    generalize rest.takeWhile isWord = word at h hall hrest
    have hspan := List.takeWhile_append_dropWhile (p := isDigit) (l := word)
    have hother : word.dropWhile isDigit ≠ [] := by
      intro hnil
      rw [hnil, List.append_nil] at hspan
      rw [← hspan, List.all_takeWhile] at h
      cases h
    obtain ⟨b, more, hsplit⟩ := List.exists_cons_of_ne_nil hother
    have hdigit : isDigit b = false := by
      have hhead := List.head?_dropWhile_not isDigit word
      simpa [hsplit] using hhead
    have hword : isWord b = true := hall b (by rw [← hspan, hsplit]; simp)
    refine ⟨word.takeWhile isDigit, b, more ++ rest.dropWhile isWord, ?_, List.all_eq_true.mp List.all_takeWhile,
      by simpa [isWord, hdigit] using hword⟩
    calc rest = word.takeWhile isDigit ++ word.dropWhile isDigit ++ rest.dropWhile isWord := by
          rw [hspan, hrest]
      _ = word.takeWhile isDigit ++ b :: (more ++ rest.dropWhile isWord) := by
          rw [hsplit, List.append_assoc, List.cons_append]
  · rintro ⟨digits, b, more, rfl, hdigits, hb⟩
    have hdigit : isDigit b = false := by
      rw [Bool.eq_false_iff]
      intro hdigit
      rw [(isDigit_apart hdigit).1] at hb
      cases hb
    rw [List.takeWhile_append_of_pos fun c hc => by simp [isWord, hdigits c hc],
      List.takeWhile_cons_of_pos (by simp [isWord, hb]), List.all_append, List.all_cons, hdigit, Bool.false_and,
      Bool.and_false]

theorem Stuck.ne_nil {s : Bytes} (h : Stuck s) : s ≠ [] := by
  cases h with
  | foreign hc rest => simp
  | stray hb => exact List.cons_ne_nil _ _
  | unclosed hquote hopen => exact List.cons_ne_nil _ _
  | runOn hne hdigits hb rest => simp

theorem Stuck.blank?_eq_none {s : Bytes} (h : Stuck s) : blank? s = none := by
  cases h with
  | @foreign c hc rest =>
      have hblank : isHorizontalBlank c = false := by
        simp only [isForeign, Bool.and_eq_true, Bool.not_eq_true'] at hc
        simp [isHorizontalBlank, hc.1.1]
      rw [blank?, front?_encodeChar_append, Option.filter_some, if_neg (by simp [hblank])]
  | stray hb =>
      rw [blank?, hb]
      rfl
  | unclosed hquote hopen => rcases hquote with rfl | rfl <;> exact blank?_of_lt (by decide) (by decide) _
  | runOn hne hdigits hb rest =>
      obtain ⟨d, digits, rfl⟩ := List.exists_cons_of_ne_nil hne
      obtain ⟨hlt, hblank⟩ := isWord_byte (b := d) (by simp [isWord, hdigits d (List.mem_cons_self ..)])
      exact blank?_of_lt hlt hblank _

theorem Stuck.lexeme?_eq_none {s : Bytes} (h : Stuck s) : lexeme? s = none := by
  cases h with
  | @foreign c hc rest =>
      by_cases hlt : c.toNat < 128
      · have hforeign := isForeign_of_lt hlt
        rw [Char.ofNat_toNat, hc, eq_comm, Bool.and_eq_true] at hforeign
        rw [encodeChar_of_lt hlt, List.singleton_append]
        exact lexeme?_of_beginsNothing hforeign.1 rest
      · obtain ⟨b, tail, heq⟩ := List.exists_cons_of_ne_nil (encodeChar_ne_nil c)
        have hb := le_of_mem_encodeChar (Nat.le_of_not_lt hlt) (heq ▸ List.mem_cons_self ..)
        rw [heq, List.cons_append]
        exact lexeme?_of_le hb _
  | stray hb => exact lexeme?_of_le (le_of_front?_eq_none hb) _
  | @unclosed quote rest hquote hopen =>
      have hbyte : isWordStart quote = false ∧ isQuote quote = true ∧ quote ≠ newline := by
        rcases hquote with rfl | rfl <;> decide
      obtain ⟨hword, hquoted, hline⟩ := hbyte
      rw [lexeme?, if_neg (by simp [hword]), if_pos hquoted, if_neg (mt (closed_iff hline rest).mp hopen)]
  | @runOn digits b hne hdigits hb rest =>
      obtain ⟨d, digits, rfl⟩ := List.exists_cons_of_ne_nil hne
      rw [List.forall_mem_cons] at hdigits
      obtain ⟨hword, hquote⟩ := isDigit_apart hdigits.1
      have hrun := (runsOn_iff (digits ++ b :: rest)).mpr ⟨digits, b, rest, rfl, hdigits.2, hb⟩
      rw [List.cons_append, lexeme?, if_neg (by simp [hword]), if_neg (by simp [hquote]), if_pos hdigits.1,
        if_neg (by simp [hrun])]

theorem isForeign_of_front? {b : UInt8} {rest : Bytes} {c : Char} (hfront : front? (b :: rest) = some c)
    (hb : beginsNothing b = true) (hc : isHorizontalBlank c = false) : isForeign c = true := by
  by_cases hlt : c.toNat < 128
  · obtain ⟨more, heq⟩ := encodeChar_prefix_of_front? hfront
    rw [encodeChar_of_lt hlt, List.singleton_append] at heq
    have hforeign := isForeign_of_lt hlt
    rw [Char.ofNat_toNat, (List.cons.inj heq).1, hb, hc] at hforeign
    exact hforeign
  · rw [isForeign_of_le (Nat.le_of_not_lt hlt), hc]
    rfl

/-- These are all the reasons that there are. -/
theorem stuck_of_none {s : Bytes} (hs : s ≠ []) (hblank : blank? s = none) (htoken : lexeme? s = none) :
    Stuck s := by
  obtain ⟨b, rest, rfl⟩ := List.exists_cons_of_ne_nil hs
  rw [lexeme?] at htoken
  split at htoken
  case isTrue => cases htoken
  case isFalse hword =>
    split at htoken
    case isTrue hquote =>
      have hquote : b = doubleQuote ∨ b = singleQuote := by simpa [isQuote] using hquote
      have hline : b ≠ newline := by rcases hquote with rfl | rfl <;> decide
      split at htoken
      case isTrue => cases htoken
      case isFalse hclosed => exact .unclosed hquote (mt (closed_iff hline rest).mpr hclosed)
    case isFalse hquote =>
      split at htoken
      case isTrue hdigit =>
        split at htoken
        case isTrue => cases htoken
        case isFalse hrun =>
          obtain ⟨digits, c, more, rfl, hdigits, hc⟩ := (runsOn_iff rest).mp (Bool.eq_false_iff.mpr hrun)
          exact .runOn (List.cons_ne_nil b digits) (List.forall_mem_cons.mpr ⟨hdigit, hdigits⟩) hc more
      case isFalse hdigit =>
        have hnothing : beginsNothing b = true := by
          simp [beginsNothing, hword, hquote, hdigit, Option.map_eq_none_iff.mp htoken]
        cases hfront : front? (b :: rest) with
        | none => exact .stray hfront
        | some c =>
            have hc : isHorizontalBlank c = false := by
              rw [blank?, hfront] at hblank
              simpa using hblank
            obtain ⟨more, heq⟩ := encodeChar_prefix_of_front? hfront
            rw [← heq]
            exact .foreign (isForeign_of_front? hfront hnothing hc) more

/-! ### Scanning up to where it fails -/

/-- No word goes on from the end of one text into the other. -/
def Apart (pre rest : Bytes) : Prop :=
  ∀ b c, pre.getLast? = some b → rest.head? = some c → isWord b = true → isWord c = false

theorem Apart.of_append {a pre rest : Bytes} (h : Apart (a ++ pre) rest) : Apart pre rest := by
  intro b c hb
  apply h b c
  rw [List.getLast?_append, hb]
  rfl

theorem Apart.append {a pre rest : Bytes} (ha : Apart a (pre ++ rest)) (hpre : Apart pre rest) :
    Apart (a ++ pre) rest := by
  intro b c hb hc
  rw [List.getLast?_append] at hb
  cases hlast : pre.getLast? with
  | none =>
      rw [hlast, Option.none_or] at hb
      rw [List.getLast?_eq_none_iff.mp hlast] at ha
      exact ha b c hb hc
  | some d =>
      rw [hlast, Option.some_or] at hb
      exact hpre b c (hlast.trans hb) hc

theorem Apart.append_right {pre rest : Bytes} (h : Apart pre rest) (hne : rest ≠ []) (more : Bytes) :
    Apart pre (rest ++ more) := by
  obtain ⟨c, rest, rfl⟩ := List.exists_cons_of_ne_nil hne
  exact h

/-- A token ends in a word byte exactly if it could go on behind it. -/
theorem IsLexeme.isWord_last {token : Token} (h : token.IsLexeme) {b : UInt8}
    (hb : token.value.getLast? = some b) : isWord b = isWordKind token.kind := by
  have hmem := List.mem_of_getLast? hb
  have hword : ∀ {first : UInt8} {tail : Bytes}, isWordStart first = true → (∀ c ∈ tail, isWord c = true) →
      b ∈ first :: tail → isWord b = true := by
    intro first tail hfirst htail hb
    rcases List.mem_cons.mp hb with rfl | hb
    · simp [isWord, hfirst]
    · exact htail b hb
  cases h with
  | keyword hkeyword =>
      obtain ⟨first, tail, rfl, hfirst, htail⟩ := exists_word_of_mem hkeyword
      rw [hword hfirst htail hmem, isWordKind_keyword hkeyword]
  | name hfirst htail _ => exact hword hfirst htail hmem
  | string hquote _ =>
      rw [← List.cons_append, List.getLast?_concat, Option.some.injEq] at hb
      subst hb
      rcases hquote with rfl | rfl <;> rfl
  | integer _ hdigits => simp [isWord, hdigits b hmem, isWordKind]
  | symbol hsymbol =>
      have hall : ∀ entry ∈ symbols, isWord entry.1 = false := by decide
      rw [List.getLast?_singleton, Option.some.injEq] at hb
      subst hb
      rw [hall _ hsymbol, isWordKind_symbol hsymbol]

theorem IsLexeme.endsBefore_iff {token : Token} (h : token.IsLexeme) (rest : Bytes) :
    token.EndsBefore rest ↔ Apart token.value rest := by
  constructor
  · intro hends b c hb hc hword
    rw [h.isWord_last hb] at hword
    exact hends hword c hc
  · intro hapart hkind c hc
    obtain ⟨init, b, hvalue, -, -⟩ := h.last
    have hb : token.value.getLast? = some b := by rw [hvalue, List.getLast?_concat]
    exact hapart b c hb hc (by rw [h.isWord_last hb, hkind])

theorem EndsBefore.append_apart {token : Token} {pre rest : Bytes} (hends : token.EndsBefore pre)
    (hlexeme : token.IsLexeme) (hapart : Apart (token.value ++ pre) rest) : token.EndsBefore (pre ++ rest) := by
  cases pre with
  | nil =>
      rw [List.append_nil] at hapart
      exact (hlexeme.endsBefore_iff rest).mpr hapart
  | cons b pre => exact hends

theorem isWord_of_mem_blank {c : Char} (hc : isHorizontalBlank c = true) {b : UInt8} (hb : b ∈ encodeChar c) :
    isWord b = false := by
  rw [Bool.eq_false_iff]
  intro hword
  obtain ⟨hlt, hblank⟩ := isWord_byte hword
  rw [ofNat_of_mem_encodeChar hb hlt, hc] at hblank
  cases hblank

theorem apart_blank {c : Char} (hc : isHorizontalBlank c = true) (rest : Bytes) : Apart (encodeChar c) rest := by
  intro b _ hb _ hword
  rw [isWord_of_mem_blank hc (List.mem_of_getLast? hb)] at hword
  cases hword

/-- Scanning that failed had nothing but tokens and blanks before the place. -/
theorem exists_of_scan_error {s : Bytes} {e : TokenizeError} (h : scan 0 s = .error e) :
    ∃ pre tokens, s = pre ++ e.remainder ∧ scan 0 pre = .ok tokens ∧ Apart pre e.remainder ∧ Stuck e.remainder := by
  induction s using scan_induction with
  | nil => cases h
  | blank c rest hc ih =>
      rw [scan_blank hc] at h
      obtain ⟨pre, tokens, rfl, hpre, hapart, hstuck⟩ := ih h
      refine ⟨encodeChar c ++ pre, tokens, by rw [List.append_assoc], ?_, (apart_blank hc _).append hapart, hstuck⟩
      rw [scan_blank hc, hpre]
  | token t rest hlexeme hends ih =>
      rw [scan_token hlexeme hends] at h
      cases hrest : scan 0 rest with
      | ok tokens =>
          rw [hrest] at h
          cases h
      | error e' =>
          rw [hrest] at h
          cases h
          obtain ⟨pre, tokens, rfl, hpre, hapart, hstuck⟩ := ih hrest
          refine ⟨t.value ++ pre, t :: tokens, by rw [List.append_assoc], ?_,
            ((hlexeme.endsBefore_iff _).mp hends).append hapart, hstuck⟩
          rw [scan_token hlexeme hends.of_append, hpre]
          rfl
  | stuck s hs hblank htoken =>
      rw [scan_stuck hs hblank htoken] at h
      cases h
      exact ⟨[], [], rfl, rfl, (fun b c hb => by cases hb), stuck_of_none hs hblank htoken⟩

theorem scan_append_stuck {pre rest : Bytes} {tokens : List Token} (hpre : scan 0 pre = .ok tokens)
    (hapart : Apart pre rest) (hstuck : Stuck rest) : scan 0 (pre ++ rest) = .error ⟨rest⟩ := by
  induction pre using scan_induction generalizing tokens with
  | nil => exact scan_stuck hstuck.ne_nil hstuck.blank?_eq_none hstuck.lexeme?_eq_none
  | blank c pre hc ih =>
      rw [scan_blank hc] at hpre
      rw [List.append_assoc, scan_blank hc, ih hpre hapart.of_append]
  | token t pre hlexeme hends ih =>
      rw [scan_token hlexeme hends] at hpre
      obtain ⟨more, hmore, rfl⟩ := exists_of_map_eq_ok hpre
      rw [List.append_assoc, scan_token hlexeme (hends.append_apart hlexeme hapart), ih hmore hapart.of_append]
      rfl
  | stuck s hs hblank htoken =>
      rw [scan_stuck hs hblank htoken] at hpre
      cases hpre

/-! ### What follows on further lines -/

theorem mem_firstLine_append {b : UInt8} {s more : Bytes} (h : b ∈ Bytes.firstLine (s ++ more)) :
    b ∈ Bytes.firstLine s ∨ b ∈ Bytes.firstLine more := by
  rw [Bytes.firstLine, List.takeWhile_append] at h
  split at h
  case isTrue hall =>
    rw [List.mem_append] at h
    rcases h with hs | hmore
    · left
      rw [Bytes.firstLine, (List.takeWhile_prefix _).eq_of_length hall]
      exact hs
    · exact Or.inr hmore
  case isFalse => exact Or.inl h

/-- A text that begins with no token does not begin with one when text follows that closes no string and is
part of no character before it. -/
theorem Stuck.append {s more : Bytes} (h : Stuck s)
    (hquotes : ∀ quote, quote = doubleQuote ∨ quote = singleQuote → quote ∉ Bytes.firstLine more)
    (hfront : ∀ t, t ≠ [] → front? (t ++ more) = front? t) : Stuck (s ++ more) := by
  cases h with
  | foreign hc rest =>
      rw [List.append_assoc]
      exact .foreign hc _
  | stray hb => exact .stray ((hfront _ (List.cons_ne_nil _ _)).trans hb)
  | unclosed hquote hopen =>
      refine .unclosed hquote ?_
      intro hmem
      rcases mem_firstLine_append hmem with hmem | hmem
      · exact hopen hmem
      · exact hquotes _ hquote hmem
  | runOn hne hdigits hb rest =>
      rw [List.append_assoc]
      exact .runOn hne hdigits hb _

theorem Stuck.append_line {s blanks : Bytes} (h : Stuck s) (hblanks : Blanks blanks) (more : Bytes) :
    Stuck (s ++ (blanks ++ newline :: more)) := by
  obtain ⟨cs, hcs, rfl⟩ := hblanks
  apply h.append
  · intro quote hquote hmem
    have hbyte : quote.toNat < 128 ∧ isHorizontalBlank (Char.ofNat quote.toNat) = false := by
      rcases hquote with rfl | rfl <;> decide
    rcases mem_firstLine_append hmem with hmem | hmem
    · obtain ⟨c, hc, hmem⟩ := List.mem_flatMap.mp ((List.takeWhile_sublist _).subset hmem)
      rw [ofNat_of_mem_encodeChar hmem hbyte.1, hcs c hc] at hbyte
      cases hbyte.2
    · cases hmem
  · intro t ht
    cases cs with
    | nil => exact front?_append ht (by decide) more
    | cons c cs =>
        rw [encodeChars_cons, List.append_assoc]
        exact front?_append_encodeChar ht c _

end Token

/-! ### Sources -/

open Token

/-- What is kept of a source without the horizontal blanks at its end. -/
def Token.Trimmed (source kept : Bytes) : Prop :=
  (∃ blanks, Blanks blanks ∧ source = kept ++ blanks) ∧
    ∀ front c, kept = front ++ encodeChar c → isHorizontalBlank c = false

theorem Token.trimSource_eq_iff {source kept : Bytes} : trimSource source = kept ↔ Trimmed source kept := by
  rw [trimSource, Bytes.trimEnd_eq_iff, Trimmed]
  apply and_congr_left'
  constructor
  · rintro ⟨cs, hcs, rfl⟩
    exact ⟨encodeChars cs, ⟨cs, hcs, rfl⟩, rfl⟩
  · rintro ⟨_, ⟨cs, hcs, rfl⟩, rfl⟩
    exact ⟨cs, hcs, rfl⟩

theorem tokenize_eq_ok_iff_scan {source : Bytes} {tokens : List Token} :
    tokenize source = .ok tokens ↔ scan 0 source = .ok tokens :=
  ⟨scan_of_tokenize, fun h => (written_of_scan h).trimSource.scan⟩

/-- Scanning a source fails exactly where, behind a front of it that can be scanned, no token begins and no
word goes on; and it leaves all that is there but the blanks at the end. -/
theorem tokenize_eq_error_iff (source remainder : Bytes) : tokenize source = .error ⟨remainder⟩ ↔
    ∃ pre tokens, Trimmed source (pre ++ remainder) ∧ tokenize pre = .ok tokens ∧ Apart pre remainder ∧
      Stuck remainder := by
  constructor
  · intro h
    obtain ⟨pre, tokens, hsplit, hpre, hapart, hstuck⟩ := exists_of_scan_error h
    exact ⟨pre, tokens, trimSource_eq_iff.mp hsplit, tokenize_eq_ok_iff_scan.mpr hpre, hapart, hstuck⟩
  · rintro ⟨pre, tokens, htrimmed, hpre, hapart, hstuck⟩
    rw [tokenize, trimSource_eq_iff.mpr htrimmed]
    exact scan_append_stuck (tokenize_eq_ok_iff_scan.mp hpre) hapart hstuck

/-- Lines are scanned one by one. Where both parts can be scanned, their tokens come out with a newline between
them; what the second part cannot be scanned for is left as by itself; and where the first part cannot be
scanned, the whole cannot at the same place. -/
theorem tokenize_line_by_line (a b : Bytes) :
    (∀ ta tb, tokenize a = .ok ta → tokenize b = .ok tb →
      tokenize (a ++ Ascii.newline :: b) = .ok (ta ++ [lineEnd] ++ tb)) ∧
    (∀ ta r, tokenize a = .ok ta → tokenize b = .error ⟨r⟩ →
      tokenize (a ++ Ascii.newline :: b) = .error ⟨r⟩) ∧
    ∀ r, tokenize a = .error ⟨r⟩ → ∃ pre rest, Trimmed a (pre ++ r) ∧
      Trimmed (a ++ Ascii.newline :: b) (pre ++ rest) ∧ tokenize (a ++ Ascii.newline :: b) = .error ⟨rest⟩ := by
  refine ⟨?_, ?_, ?_⟩
  · intro ta tb ha hb
    rw [tokenize_append_newline, scan_of_tokenize ha, hb]
    simp [Except.map]
  · intro ta r ha hb
    rw [tokenize_append_newline, scan_of_tokenize ha, hb]
    rfl
  · intro r ha
    obtain ⟨pre, tokens, hsplit, hpre, hapart, hstuck⟩ := exists_of_scan_error ha
    obtain ⟨⟨blanks, hblanks, hsource⟩, -⟩ := trimSource_eq_iff.mp hsplit
    have hwhole : trimSource (a ++ Ascii.newline :: b) =
        pre ++ (r ++ (blanks ++ Ascii.newline :: trimSource b)) := by
      rw [trimSource, Bytes.trimEnd_append_ascii (by decide) (by decide), hsource]
      simp [trimSource]
    refine ⟨pre, _, trimSource_eq_iff.mp hsplit, trimSource_eq_iff.mp hwhole, ?_⟩
    rw [tokenize, hwhole]
    exact scan_append_stuck hpre (hapart.append_right hstuck.ne_nil _) (hstuck.append_line hblanks _)

/-- A byte of no character stands in front of a blank and the newline; the byte, the blank and all of the next line
are left. -/
theorem tokenize_line_by_line_stray :
    tokenize (text "f(x) " ++ Ascii.newline :: text " 'a' ") =
      .ok ([⟨.identifier, text "f"⟩, ⟨.openParen, text "("⟩, ⟨.identifier, text "x"⟩, ⟨.closeParen, text ")"⟩] ++
        [lineEnd] ++ [⟨.string, text "'a'"⟩]) ∧
    tokenize (text "f(x) " ++ Ascii.newline :: text "1 2a ") = .error ⟨text "2a"⟩ ∧
    tokenize (text "x " ++ 0xC3 :: text " ") = .error ⟨[0xC3]⟩ ∧
    ∃ pre rest, Trimmed (text "x " ++ 0xC3 :: text " ") (pre ++ [0xC3]) ∧
      Trimmed (text "x " ++ 0xC3 :: text " " ++ Ascii.newline :: text "y ") (pre ++ rest) ∧
      tokenize (text "x " ++ 0xC3 :: text " " ++ Ascii.newline :: text "y ") = .error ⟨rest⟩ := by
  have hfirst : tokenize (text "f(x) ") = .ok [⟨.identifier, text "f"⟩, ⟨.openParen, text "("⟩,
      ⟨.identifier, text "x"⟩, ⟨.closeParen, text ")"⟩] := by with_unfolding_all rfl
  have hstray : tokenize (text "x " ++ 0xC3 :: text " ") = .error ⟨[0xC3]⟩ := by with_unfolding_all rfl
  exact ⟨(tokenize_line_by_line _ _).1 _ _ hfirst (by with_unfolding_all rfl),
    (tokenize_line_by_line _ _).2.1 _ _ hfirst (by with_unfolding_all rfl), hstray,
    (tokenize_line_by_line _ _).2.2 _ hstray⟩

end Scriptlet
