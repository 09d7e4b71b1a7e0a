import Scriptlet.Proofs.Encoding
import Scriptlet.Proofs.Grammar
import Scriptlet.Token.Scan

/-!
The written forms of tokens, and what a scanner makes of a text. A token is found at the front of a text
exactly if its written form is there and, for words and integers, no word byte comes directly behind. No
written form but the newline's holds a newline, so lines are scanned one by one: what a newline separates
is scanned as if it stood alone, failures included.
-/

namespace Scriptlet

theorem exists_of_map_eq_ok {ε α β : Type} {f : α → β} {r : Except ε α} {b : β} (h : r.map f = .ok b) :
    ∃ a, r = .ok a ∧ f a = b := by
  cases r with
  | error e => cases h
  | ok a =>
      cases h
      exact ⟨a, rfl, rfl⟩

namespace Token
open Ascii Utf8

/-! ### Written forms -/

/-- The tokens of one byte. -/
def symbols : List (UInt8 × TokenKind) :=
  [(plus, .plus), (minus, .minus), (star, .star), (slash, .slash), (equals, .assign),
    (openParen, .openParen), (closeParen, .closeParen), (comma, .comma), (newline, .newline)]

def keywords : List (Bytes × TokenKind) :=
  [(text "def", .defKeyword), (text "end", .endKeyword), (text "nil", .nilKeyword)]

/-- The tokens in their written forms. -/
inductive IsLexeme : Token → Prop where
  | keyword {word : Bytes} {kind : TokenKind} (hword : (word, kind) ∈ keywords) : IsLexeme ⟨kind, word⟩
  | name {b : UInt8} {tail : Bytes} (hfirst : isWordStart b = true) (htail : ∀ c ∈ tail, isWord c = true)
      (hkeyword : ∀ kind, (b :: tail, kind) ∉ keywords) : IsLexeme ⟨.identifier, b :: tail⟩
  | string {quote : UInt8} {body : Bytes} (hquote : quote = doubleQuote ∨ quote = singleQuote)
      (hbody : ∀ c ∈ body, c ≠ quote ∧ c ≠ newline) : IsLexeme ⟨.string, quote :: (body ++ [quote])⟩
  | integer {digits : Bytes} (hne : digits ≠ []) (hdigits : ∀ c ∈ digits, isDigit c = true) :
      IsLexeme ⟨.integer, digits⟩
  | symbol {b : UInt8} {kind : TokenKind} (hsymbol : (b, kind) ∈ symbols) : IsLexeme ⟨kind, [b]⟩

/-- The kinds whose written forms end where word bytes end. -/
def isWordKind : TokenKind → Bool
  | .defKeyword | .endKeyword | .nilKeyword | .identifier | .integer => true
  | _ => false

/-- Nothing extends the token into the text behind it. -/
def EndsBefore (token : Token) (rest : Bytes) : Prop :=
  isWordKind token.kind = true → ∀ b, rest.head? = some b → isWord b = false

theorem endsBefore_nil (token : Token) : token.EndsBefore [] := nofun

theorem EndsBefore.append {token : Token} {rest : Bytes} (h : token.EndsBefore rest) {more : Bytes}
    (hmore : ∀ b, more.head? = some b → isWord b = false) : token.EndsBefore (rest ++ more) := by
  intro hkind b hb
  cases rest with
  | nil => exact hmore b hb
  | cons c rest => exact h hkind b hb

theorem EndsBefore.of_append {token : Token} {rest more : Bytes} (h : token.EndsBefore (rest ++ more)) :
    token.EndsBefore rest := by
  intro hkind b hb
  apply h hkind b
  rw [List.head?_append, hb]
  rfl

theorem symbolKind?_eq_some_iff {b : UInt8} {kind : TokenKind} :
    symbolKind? b = some kind ↔ (b, kind) ∈ symbols := by
  constructor
  · intro h
    unfold symbolKind? at h
    repeat' split at h
    all_goals cases h
    all_goals
      subst b
      decide
  · intro h
    simp only [symbols, List.mem_cons, Prod.mk.injEq, List.not_mem_nil, or_false] at h
    rcases h with ⟨rfl, rfl⟩ | ⟨rfl, rfl⟩ | ⟨rfl, rfl⟩ | ⟨rfl, rfl⟩ | ⟨rfl, rfl⟩ | ⟨rfl, rfl⟩ | ⟨rfl, rfl⟩ |
      ⟨rfl, rfl⟩ | ⟨rfl, rfl⟩ <;> rfl

theorem wordKind_eq_of_mem {word : Bytes} {kind : TokenKind} (h : (word, kind) ∈ keywords) :
    wordKind word = kind := by
  simp only [keywords, List.mem_cons, Prod.mk.injEq, List.not_mem_nil, or_false] at h
  rcases h with ⟨rfl, rfl⟩ | ⟨rfl, rfl⟩ | ⟨rfl, rfl⟩ <;> decide

theorem wordKind_eq_identifier {word : Bytes} (h : ∀ kind, (word, kind) ∉ keywords) :
    wordKind word = .identifier := by
  have hne : ∀ keyword kind, (keyword, kind) ∈ keywords → word ≠ keyword := by
    intro keyword kind hmem heq
    exact h kind (heq ▸ hmem)
  rw [wordKind, if_neg (hne _ .defKeyword (by decide)), if_neg (hne _ .endKeyword (by decide)),
    if_neg (hne _ .nilKeyword (by decide))]

/-- A word is a keyword or a name. -/
theorem isLexeme_word {b : UInt8} {tail : Bytes} (hfirst : isWordStart b = true)
    (htail : ∀ c ∈ tail, isWord c = true) : IsLexeme ⟨wordKind (b :: tail), b :: tail⟩ := by
  by_cases hkeyword : ∃ kind, (b :: tail, kind) ∈ keywords
  · obtain ⟨kind, hkind⟩ := hkeyword
    rw [wordKind_eq_of_mem hkind]
    exact .keyword hkind
  · have hname : ∀ kind, (b :: tail, kind) ∉ keywords := fun kind h => hkeyword ⟨kind, h⟩
    rw [wordKind_eq_identifier hname]
    exact .name hfirst htail hname

theorem isWordKind_keyword {word : Bytes} {kind : TokenKind} (h : (word, kind) ∈ keywords) :
    isWordKind kind = true := by
  have hall : ∀ entry ∈ keywords, isWordKind entry.2 = true := by decide
  exact hall _ h

theorem isWordKind_symbol {b : UInt8} {kind : TokenKind} (h : (b, kind) ∈ symbols) :
    isWordKind kind = false := by
  have hall : ∀ entry ∈ symbols, isWordKind entry.2 = false := by decide
  exact hall _ h

theorem exists_word_of_mem {word : Bytes} {kind : TokenKind} (h : (word, kind) ∈ keywords) :
    ∃ b tail, word = b :: tail ∧ isWordStart b = true ∧ ∀ c ∈ tail, isWord c = true := by
  simp only [keywords, List.mem_cons, Prod.mk.injEq, List.not_mem_nil, or_false] at h
  rcases h with ⟨rfl, rfl⟩ | ⟨rfl, rfl⟩ | ⟨rfl, rfl⟩ <;> exact ⟨_, _, rfl, rfl, List.all_eq_true.mp rfl⟩

/-! ### The token at the front -/

theorem takeWhile_append_eq {p : UInt8 → Bool} {front rest : Bytes} (hfront : ∀ c ∈ front, p c = true)
    (hrest : ∀ c, rest.head? = some c → p c = false) : (front ++ rest).takeWhile p = front := by
  rw [List.takeWhile_append_of_pos hfront]
  cases rest with
  | nil => rw [List.takeWhile_nil, List.append_nil]
  | cons c rest => rw [List.takeWhile_cons_of_neg (by simp [hrest c rfl]), List.append_nil]

theorem isDigit_apart {b : UInt8} (h : isDigit b = true) : isWordStart b = false ∧ isQuote b = false := by
  simp only [isDigit, Bool.and_eq_true, decide_eq_true_eq, UInt8.le_iff_toNat_le] at h
  constructor
  · rw [Bool.eq_false_iff]
    intro hstart
    simp [isWordStart, isLetter, underscore, UInt8.le_iff_toNat_le, ← UInt8.toNat_inj] at h hstart
    omega
  · rw [Bool.eq_false_iff]
    intro hquote
    simp [isQuote, doubleQuote, singleQuote, ← UInt8.toNat_inj] at h hquote
    omega

theorem lexeme?_word {b : UInt8} {tail rest : Bytes} (hfirst : isWordStart b = true)
    (htail : ∀ c ∈ tail, isWord c = true) (hrest : ∀ c, rest.head? = some c → isWord c = false) :
    lexeme? (b :: (tail ++ rest)) = some ⟨wordKind (b :: tail), b :: tail⟩ := by
  rw [lexeme?, if_pos hfirst, takeWhile_append_eq htail hrest]

theorem lexeme?_string {quote : UInt8} {body : Bytes} (hquote : quote = doubleQuote ∨ quote = singleQuote)
    (hbody : ∀ c ∈ body, c ≠ quote ∧ c ≠ newline) (rest : Bytes) :
    lexeme? (quote :: (body ++ quote :: rest)) = some ⟨.string, quote :: (body ++ [quote])⟩ := by
  have hfound : stringBody quote (body ++ quote :: rest) = body := by
    apply takeWhile_append_eq
    · intro c hc
      simp [hbody c hc]
    · intro c hc
      cases hc
      simp
  rw [lexeme?, if_neg, if_pos, hfound, List.drop_left, List.head?_cons, if_pos rfl]
  · rcases hquote with rfl | rfl <;> decide
  · rcases hquote with rfl | rfl <;> decide

theorem lexeme?_integer {b : UInt8} {tail rest : Bytes} (hfirst : isDigit b = true)
    (htail : ∀ c ∈ tail, isDigit c = true) (hrest : ∀ c, rest.head? = some c → isWord c = false) :
    lexeme? (b :: (tail ++ rest)) = some ⟨.integer, b :: tail⟩ := by
  obtain ⟨hword, hquote⟩ := isDigit_apart hfirst
  have htaken : (tail ++ rest).takeWhile isWord = tail := by
    refine takeWhile_append_eq ?_ hrest
    intro c hc
    rw [isWord, htail c hc, Bool.or_true]
  rw [lexeme?, if_neg (by simp [hword]), if_neg (by simp [hquote]), if_pos hfirst, htaken,
    if_pos (List.all_eq_true.mpr htail)]

theorem lexeme?_symbol {b : UInt8} {kind : TokenKind} (hsymbol : (b, kind) ∈ symbols) (rest : Bytes) :
    lexeme? (b :: rest) = some ⟨kind, [b]⟩ := by
  have hall : ∀ entry ∈ symbols, isWordStart entry.1 = false ∧ isQuote entry.1 = false ∧
      isDigit entry.1 = false := by decide
  obtain ⟨hword, hquote, hdigit⟩ := hall _ hsymbol
  rw [lexeme?, if_neg (by simp [hword]), if_neg (by simp [hquote]), if_neg (by simp [hdigit]),
    symbolKind?_eq_some_iff.mpr hsymbol]
  rfl

theorem exists_eq_stringBody_append {quote : UInt8} {s : Bytes}
    (h : (s.drop (stringBody quote s).length).head? = some quote) :
    ∃ rest, s = stringBody quote s ++ quote :: rest := by
  obtain ⟨rest, hrest⟩ := List.head?_eq_some_iff.mp h
  have hbody : stringBody quote s = s.take (stringBody quote s).length :=
    List.prefix_iff_eq_take.mp (List.takeWhile_prefix _)
  refine ⟨rest, ?_⟩
  calc s = s.take (stringBody quote s).length ++ s.drop (stringBody quote s).length :=
        (List.take_append_drop ..).symm
    _ = stringBody quote s ++ quote :: rest := by rw [hrest, ← hbody]

theorem exists_of_lexeme? {s : Bytes} {token : Token} (h : lexeme? s = some token) :
    ∃ rest, s = token.value ++ rest ∧ token.IsLexeme ∧ token.EndsBefore rest := by
  unfold lexeme? at h
  split at h
  · cases h
  rename_i b s
  have hspan := List.takeWhile_append_dropWhile (p := isWord) (l := s)
  have hstop : ∀ c, (s.dropWhile isWord).head? = some c → isWord c = false := by
    intro c hc
    have hhead := List.head?_dropWhile_not isWord s
    simpa [hc] using hhead
  split at h
  · rename_i hfirst
    cases h
    refine ⟨s.dropWhile isWord, by rw [List.cons_append, hspan], isLexeme_word hfirst ?_, fun _ => hstop⟩
    exact List.all_eq_true.mp List.all_takeWhile
  split at h
  · rename_i hquote
    split at h
    · rename_i hclosed
      cases h
      have hquote : b = doubleQuote ∨ b = singleQuote := by simpa [isQuote] using hquote
      obtain ⟨rest, hrest⟩ := exists_eq_stringBody_append hclosed
      refine ⟨rest, ?_, .string hquote ?_, fun hkind => by cases hkind⟩
      · rw [List.cons_append, List.append_assoc, List.singleton_append, ← hrest]
      · intro c hc
        simpa using List.all_eq_true.mp List.all_takeWhile c hc
    · cases h
  split at h
  · rename_i hfirst
    split at h
    · rename_i hdigits
      cases h
      refine ⟨s.dropWhile isWord, by rw [List.cons_append, hspan], .integer (List.cons_ne_nil _ _) ?_,
        fun _ => hstop⟩
      exact List.forall_mem_cons.mpr ⟨hfirst, List.all_eq_true.mp hdigits⟩
    · cases h
  · obtain ⟨kind, hkind, rfl⟩ := Option.map_eq_some_iff.mp h
    have hsymbol := symbolKind?_eq_some_iff.mp hkind
    refine ⟨s, rfl, .symbol hsymbol, ?_⟩
    intro hword
    rw [isWordKind_symbol hsymbol] at hword
    cases hword

theorem lexeme?_of_isLexeme {token : Token} {rest : Bytes} (hlexeme : token.IsLexeme)
    (hrest : token.EndsBefore rest) : lexeme? (token.value ++ rest) = some token := by
  cases hlexeme with
  | keyword hword =>
      obtain ⟨b, tail, rfl, hfirst, htail⟩ := exists_word_of_mem hword
      rw [List.cons_append, lexeme?_word hfirst htail (hrest (isWordKind_keyword hword)),
        wordKind_eq_of_mem hword]
  | name hfirst htail hkeyword =>
      rw [List.cons_append, lexeme?_word hfirst htail (hrest rfl), wordKind_eq_identifier hkeyword]
  | string hquote hbody =>
      rw [List.cons_append, List.append_assoc]
      exact lexeme?_string hquote hbody rest
  | integer hne hdigits =>
      obtain ⟨b, tail, rfl⟩ := List.exists_cons_of_ne_nil hne
      rw [List.forall_mem_cons] at hdigits
      exact lexeme?_integer hdigits.1 hdigits.2 (hrest rfl)
  | symbol hsymbol => exact lexeme?_symbol hsymbol rest

/-- A token is at the front of a text exactly if its written form is and does not go on behind it. -/
theorem lexeme?_eq_some_iff {s : Bytes} {token : Token} :
    lexeme? s = some token ↔ ∃ rest, s = token.value ++ rest ∧ token.IsLexeme ∧ token.EndsBefore rest := by
  constructor
  · exact exists_of_lexeme?
  · rintro ⟨rest, rfl, hlexeme, hrest⟩
    exact lexeme?_of_isLexeme hlexeme hrest

/-! ### Bytes of tokens -/

theorem isWord_byte {b : UInt8} (h : isWord b = true) :
    b.toNat < 128 ∧ isHorizontalBlank (Char.ofNat b.toNat) = false := by
  have hlt : b.toNat < 128 := by
    simp [isWord, isWordStart, isLetter, isDigit, underscore, UInt8.le_iff_toNat_le, ← UInt8.toNat_inj] at h
    omega
  have hall : ∀ n < 128, isWord n.toUInt8 = true → isHorizontalBlank (Char.ofNat n) = false := by decide
  refine ⟨hlt, hall b.toNat hlt ?_⟩
  rw [show b.toNat.toUInt8 = b by simp]
  exact h

theorem IsLexeme.first {token : Token} (h : token.IsLexeme) : ∃ b tail, token.value = b :: tail ∧
    b.toNat < 128 ∧ isHorizontalBlank (Char.ofNat b.toNat) = false := by
  cases h with
  | keyword hword =>
      obtain ⟨b, tail, rfl, hfirst, -⟩ := exists_word_of_mem hword
      exact ⟨b, tail, rfl, isWord_byte (by simp [isWord, hfirst])⟩
  | name hfirst htail hkeyword => exact ⟨_, _, rfl, isWord_byte (by simp [isWord, hfirst])⟩
  | string hquote hbody =>
      refine ⟨_, _, rfl, ?_⟩
      rcases hquote with rfl | rfl <;> decide
  | integer hne hdigits =>
      obtain ⟨b, tail, rfl⟩ := List.exists_cons_of_ne_nil hne
      rw [List.forall_mem_cons] at hdigits
      exact ⟨b, tail, rfl, isWord_byte (by simp [isWord, hdigits.1])⟩
  | symbol hsymbol =>
      have hall : ∀ entry ∈ symbols, entry.1.toNat < 128 ∧
          isHorizontalBlank (Char.ofNat entry.1.toNat) = false := by decide
      exact ⟨_, _, rfl, hall _ hsymbol⟩

/-- The token of the newline. -/
def lineEnd : Token := ⟨.newline, [newline]⟩

theorem IsLexeme.eq_lineEnd {token : Token} (h : token.IsLexeme)
    (hnewline : newline ∈ token.value ∨ token.kind = .newline) : token = lineEnd := by
  have hword : isWord newline = false := by decide
  cases h with
  | keyword h =>
      have hall : ∀ entry ∈ keywords, newline ∉ entry.1 ∧ entry.2 ≠ .newline := by decide
      rcases hnewline with hmem | hkind
      · exact absurd hmem (hall _ h).1
      · exact absurd hkind (hall _ h).2
  | name hfirst htail hkeyword =>
      rcases hnewline with hmem | hkind
      · have hbyte : ∀ c ∈ _ :: _, isWord c = true :=
          List.forall_mem_cons.mpr ⟨by rw [isWord, hfirst, Bool.true_or], htail⟩
        rw [hbyte newline hmem] at hword
        cases hword
      · cases hkind
  | string hquote hbody =>
      rcases hnewline with hmem | hkind
      · simp only [List.mem_cons, List.mem_append, List.not_mem_nil, or_false] at hmem
        rcases hmem with hmem | hmem | hmem
        · rcases hquote with rfl | rfl <;> cases hmem
        · exact absurd rfl (hbody newline hmem).2
        · rcases hquote with rfl | rfl <;> cases hmem
      · cases hkind
  | integer hne hdigits =>
      rcases hnewline with hmem | hkind
      · exact absurd (hdigits newline hmem) (by decide)
      · cases hkind
  | symbol hsymbol =>
      have hall : ∀ entry ∈ symbols, newline = entry.1 ∨ entry.2 = .newline → entry = (newline, .newline) := by
        decide
      have heq := hall _ hsymbol (by simpa using hnewline)
      cases heq
      rfl

theorem isLexeme_lineEnd : lineEnd.IsLexeme := .symbol (by decide)

theorem blank?_of_lt {b : UInt8} (h : b.toNat < 128) (hblank : isHorizontalBlank (Char.ofNat b.toNat) = false)
    (rest : Bytes) : blank? (b :: rest) = none := by
  rw [blank?, front?_of_lt h, Option.filter_some, if_neg (by simp [hblank])]

theorem blank?_eq_none {token : Token} (h : token.IsLexeme) (rest : Bytes) :
    blank? (token.value ++ rest) = none := by
  obtain ⟨b, tail, hvalue, hlt, hblank⟩ := h.first
  rw [hvalue, List.cons_append, blank?_of_lt hlt hblank]

/-- What follows a token that could not extend it does not change it. -/
theorem lexeme?_append {s : Bytes} {token : Token} (h : lexeme? s = some token) {more : Bytes}
    (hmore : ∀ b, more.head? = some b → isWord b = false) : lexeme? (s ++ more) = some token := by
  obtain ⟨rest, rfl, hlexeme, hends⟩ := lexeme?_eq_some_iff.mp h
  exact lexeme?_eq_some_iff.mpr ⟨rest ++ more, List.append_assoc .., hlexeme, hends.append hmore⟩

/-- A newline ends the token before it, and mends nothing that is no token. -/
theorem lexeme?_append_newline {s : Bytes} (hs : s ≠ []) (more : Bytes) :
    lexeme? (s ++ newline :: more) = lexeme? s := by
  apply Option.ext
  intro token
  constructor
  · intro h
    obtain ⟨rest, heq, hlexeme, hends⟩ := lexeme?_eq_some_iff.mp h
    rw [lexeme?_eq_some_iff]
    rcases List.append_eq_append_iff.mp heq with ⟨beyond, hvalue, hbeyond⟩ | ⟨left, rfl, rfl⟩
    · cases beyond with
      | nil => exact ⟨[], by rw [hvalue, List.append_nil, List.append_nil], hlexeme, endsBefore_nil token⟩
      | cons b beyond =>
          -- the newline would be inside of the token
          obtain ⟨rfl, -⟩ := List.cons.inj hbeyond
          have hline := hlexeme.eq_lineEnd (Or.inl (by rw [hvalue]; simp))
          rw [hline] at hvalue
          have hlength := congrArg List.length hvalue
          have hpos := List.length_pos_iff.mpr hs
          simp only [lineEnd, List.length_append, List.length_cons, List.length_nil] at hlength
          omega
    · exact ⟨left, rfl, hlexeme, hends.of_append⟩
  · intro h
    apply lexeme?_append h
    intro b hb
    cases hb
    decide

/-! ### Steps of the scanner -/

theorem scan_eq_drop (skip : Nat) (s : Bytes) : scan skip s = scan 0 (s.drop skip) := by
  induction s generalizing skip with
  | nil => cases skip <;> simp [scan]
  | cons b rest ih =>
      cases skip with
      | zero => rfl
      | succ skip =>
          rw [scan, List.drop_succ_cons]
          exact ih skip

theorem scan_blank {c : Char} (hc : isHorizontalBlank c = true) (rest : Bytes) :
    scan 0 (encodeChar c ++ rest) = scan 0 rest := by
  have hblank : blank? (encodeChar c ++ rest) = some c := by
    rw [blank?, front?_encodeChar_append, Option.filter_some, if_pos hc]
  obtain ⟨b, tail, heq, htail⟩ := exists_encodeChar_cons c
  rw [heq, List.cons_append] at hblank ⊢
  rw [scan, hblank]
  show scan (c.utf8Size - 1) (tail ++ rest) = scan 0 rest
  rw [scan_eq_drop, ← htail, List.drop_left]

theorem scan_token {token : Token} {rest : Bytes} (hlexeme : token.IsLexeme) (hends : token.EndsBefore rest) :
    scan 0 (token.value ++ rest) = (scan 0 rest).map (token :: ·) := by
  have hblank := blank?_eq_none hlexeme rest
  have htoken := lexeme?_eq_some_iff.mpr ⟨rest, rfl, hlexeme, hends⟩
  obtain ⟨b, tail, hvalue, -⟩ := hlexeme.first
  have hlength : token.value.length - 1 = tail.length := by rw [hvalue]; rfl
  rw [hvalue, List.cons_append] at hblank htoken ⊢
  rw [scan, hblank, htoken]
  simp only [hlength]
  rw [scan_eq_drop, List.drop_left]
  cases scan 0 rest <;> rfl

theorem scan_stuck {s : Bytes} (hs : s ≠ []) (hblank : blank? s = none) (htoken : lexeme? s = none) :
    scan 0 s = .error ⟨s⟩ := by
  obtain ⟨b, rest, rfl⟩ := List.exists_cons_of_ne_nil hs
  rw [scan, hblank, htoken]

/-- A text is empty, begins with a blank or with a token, or is one that no rule applies to. -/
theorem scan_induction {motive : Bytes → Prop} (nil : motive [])
    (blank : ∀ c rest, isHorizontalBlank c = true → motive rest → motive (encodeChar c ++ rest))
    (token : ∀ (token : Token) rest, token.IsLexeme → token.EndsBefore rest → motive rest →
      motive (token.value ++ rest))
    (stuck : ∀ s, s ≠ [] → blank? s = none → lexeme? s = none → motive s) (s : Bytes) : motive s := by
  induction hlength : s.length using Nat.strongRecOn generalizing s with
  | ind n ih =>
      subst hlength
      by_cases hs : s = []
      · exact hs ▸ nil
      cases hblank : blank? s with
      | some c =>
          obtain ⟨hfront, hc⟩ := Option.filter_eq_some_iff.mp hblank
          obtain ⟨rest, rfl⟩ := encodeChar_prefix_of_front? hfront
          have hpos := List.length_pos_iff.mpr (encodeChar_ne_nil c)
          exact blank c rest hc (ih rest.length (by rw [List.length_append]; omega) rest rfl)
      | none =>
          cases htoken : lexeme? s with
          | some t =>
              obtain ⟨rest, rfl, hlexeme, hends⟩ := lexeme?_eq_some_iff.mp htoken
              obtain ⟨b, tail, hvalue, -⟩ := hlexeme.first
              refine token t rest hlexeme hends (ih rest.length ?_ rest rfl)
              rw [hvalue, List.length_append, List.length_cons]
              omega
          | none => exact stuck s hs hblank htoken

/-! ### Lines -/

/-- Lines are scanned one by one. -/
theorem scan_append_newline (a b : Bytes) : scan 0 (a ++ newline :: b) =
    match scan 0 a with
    | .ok tokens => (scan 0 b).map (tokens ++ lineEnd :: ·)
    | .error e => .error ⟨e.remainder ++ newline :: b⟩ := by
  induction a using scan_induction with
  | nil => exact scan_token isLexeme_lineEnd nofun
  | blank c rest hc ih => rw [List.append_assoc, scan_blank hc, scan_blank hc, ih]
  | token t rest hlexeme hends ih =>
      have hmore : t.EndsBefore (rest ++ newline :: b) := by
        apply hends.append
        intro c hc
        cases hc
        decide
      rw [List.append_assoc, scan_token hlexeme hmore, scan_token hlexeme hends, ih]
      cases scan 0 rest with
      | ok tokens => cases scan 0 b <;> rfl
      | error e => rfl
  | stuck s hs hblank htoken =>
      have hblankMore : blank? (s ++ newline :: b) = none := by
        rw [blank?, front?_append hs (by decide)]
        exact hblank
      rw [scan_stuck hs hblank htoken, scan_stuck (by simp) hblankMore]
      rw [lexeme?_append_newline hs]
      exact htoken

/-! ### Blanks -/

theorem scan_horizontalBlanks {cs : List Char} (hcs : ∀ c ∈ cs, isHorizontalBlank c = true) (rest : Bytes) :
    scan 0 (encodeChars cs ++ rest) = scan 0 rest := by
  induction cs with
  | nil => rfl
  | cons c cs ih =>
      rw [List.forall_mem_cons] at hcs
      rw [encodeChars_cons, List.append_assoc, scan_blank hcs.1, ih hcs.2]

theorem isWord_head?_blanks {cs : List Char} (hcs : ∀ c ∈ cs, isHorizontalBlank c = true) (b : UInt8)
    (hb : (encodeChars cs).head? = some b) : isWord b = false := by
  cases cs with
  | nil => cases hb
  | cons c cs =>
      rw [Bool.eq_false_iff]
      intro hword
      obtain ⟨hlt, hblank⟩ := isWord_byte hword
      obtain ⟨rest, hrest⟩ := List.head?_eq_some_iff.mp hb
      have hfront := front?_encodeChar_append c (encodeChars cs)
      rw [← encodeChars_cons, hrest, front?_of_lt hlt, Option.some.injEq] at hfront
      rw [hfront, (List.forall_mem_cons.mp hcs).1] at hblank
      cases hblank

/-- Blanks at the end of a text that can be scanned change nothing. -/
theorem scan_append_blanks {cs : List Char} (hcs : ∀ c ∈ cs, isHorizontalBlank c = true) {s : Bytes}
    {tokens : List Token} (h : scan 0 s = .ok tokens) : scan 0 (s ++ encodeChars cs) = .ok tokens := by
  induction s using scan_induction generalizing tokens with
  | nil =>
      have hblanks := scan_horizontalBlanks hcs []
      rw [List.append_nil] at hblanks
      exact hblanks.trans h
  | blank c rest hc ih =>
      rw [scan_blank hc] at h
      rw [List.append_assoc, scan_blank hc, ih h]
  | token t rest hlexeme hends ih =>
      rw [scan_token hlexeme hends] at h
      rw [List.append_assoc, scan_token hlexeme (hends.append (isWord_head?_blanks hcs))]
      obtain ⟨more, hmore, rfl⟩ := exists_of_map_eq_ok h
      rw [ih hmore]
      rfl
  | stuck s hs hblank htoken =>
      rw [scan_stuck hs hblank htoken] at h
      cases h

/-- The first token of a text is where its first character is that is no horizontal blank. -/
theorem first_of_scan {s : Bytes} {tokens : List Token} (h : scan 0 s = .ok tokens) :
    (tokens = [] ∧ Bytes.trimStart isHorizontalBlank s = []) ∨
    ∃ token more rest, tokens = token :: more ∧ token.IsLexeme ∧
      Bytes.trimStart isHorizontalBlank s = token.value ++ rest := by
  induction s using scan_induction with
  | nil =>
      cases h
      exact Or.inl ⟨rfl, rfl⟩
  | blank c rest hc ih =>
      rw [Bytes.trimStart_encodeChar_append hc]
      rw [scan_blank hc] at h
      exact ih h
  | token t rest hlexeme hends ih =>
      right
      rw [scan_token hlexeme hends] at h
      obtain ⟨more, -, rfl⟩ := exists_of_map_eq_ok h
      refine ⟨t, more, rest, rfl, hlexeme, Bytes.trimStart_eq_self ?_⟩
      intro c hc
      have hblank := blank?_eq_none hlexeme rest
      rw [blank?, hc] at hblank
      simpa using hblank
  | stuck s hs hblank htoken =>
      rw [scan_stuck hs hblank htoken] at h
      cases h

theorem nextIs_newline_of_scan {s : Bytes} {tokens : List Token} (h : scan 0 s = .ok tokens)
    (hstart : (Bytes.trimStart isHorizontalBlank s).head? ≠ some newline) :
    Read.nextIs .newline tokens = false := by
  rcases first_of_scan h with ⟨rfl, -⟩ | ⟨token, more, rest, rfl, hlexeme, htrim⟩
  · rfl
  · rw [Read.nextIs, beq_eq_false_iff_ne]
    intro hkind
    rw [htrim, hlexeme.eq_lineEnd (Or.inr hkind)] at hstart
    exact hstart rfl

theorem trim_of_scan_nil {s : Bytes} (h : scan 0 s = .ok []) : Bytes.trim s = [] := by
  obtain ⟨cs, hcs, hsplit⟩ := Bytes.exists_append_trimStart isHorizontalBlank s
  rcases first_of_scan h with ⟨-, htrim⟩ | ⟨token, more, rest, heq, -, -⟩
  · rw [htrim, List.append_nil] at hsplit
    refine Bytes.trim_eq_nil_iff.mpr ⟨cs, ?_, hsplit⟩
    intro c hc
    exact (Bool.and_eq_true_iff.mp (hcs c hc)).2
  · cases heq

/-- Blank text is scanned to the newlines in it. -/
theorem scan_blanks {cs : List Char} (hcs : ∀ c ∈ cs, isBlank c = true) :
    ∃ newlines, Grammar.Newlines newlines ∧
      ∀ rest, scan 0 (encodeChars cs ++ rest) = (scan 0 rest).map (newlines ++ ·) := by
  induction cs with
  | nil =>
      refine ⟨[], nofun, ?_⟩
      intro rest
      cases h : scan 0 rest <;> simp [encodeChars, h, Except.map]
  | cons c cs ih =>
      rw [List.forall_mem_cons] at hcs
      obtain ⟨newlines, hnewlines, hscan⟩ := ih hcs.2
      by_cases hc : c = '\n'
      · refine ⟨lineEnd :: newlines, List.forall_mem_cons.mpr ⟨rfl, hnewlines⟩, ?_⟩
        intro rest
        rw [hc, encodeChars_cons, List.append_assoc]
        refine (scan_token isLexeme_lineEnd nofun).trans ?_
        rw [hscan]
        cases scan 0 rest <;> rfl
      · refine ⟨newlines, hnewlines, ?_⟩
        intro rest
        rw [encodeChars_cons, List.append_assoc, scan_blank, hscan]
        simp [isHorizontalBlank, hc, hcs.1]

end Token

/-! ### Sources -/

/-- What is in front of a newline is not trimmed. -/
theorem tokenize_append_newline (a b : Bytes) : tokenize (a ++ Ascii.newline :: b) =
    match Token.scan 0 a with
    | .ok tokens => (tokenize b).map (tokens ++ Token.lineEnd :: ·)
    | .error e => .error ⟨e.remainder ++ Ascii.newline :: Token.trimSource b⟩ := by
  have htrim : Token.trimSource (a ++ Ascii.newline :: b) = a ++ Ascii.newline :: Token.trimSource b :=
    Bytes.trimEnd_append_ascii (by decide) (by decide) a b
  rw [tokenize, htrim, Token.scan_append_newline]
  rfl

theorem scan_of_tokenize {source : Bytes} {tokens : List Token} (h : tokenize source = .ok tokens) :
    Token.scan 0 source = .ok tokens := by
  obtain ⟨cs, hcs, hsource⟩ := Bytes.exists_trimEnd_append isHorizontalBlank source
  rw [hsource]
  exact Token.scan_append_blanks hcs h

theorem tokenize_concat_newline (line : Bytes) :
    tokenize (line ++ [Ascii.newline]) = Token.scan 0 (line ++ [Ascii.newline]) := by
  rw [tokenize_append_newline, Token.scan_append_newline]
  rfl

theorem tokenize_line {line : Bytes} {tokens : List Token}
    (h : tokenize (line ++ [Ascii.newline]) = .ok tokens) :
    ∃ before, tokens = before ++ [Token.lineEnd] ∧ Token.scan 0 line = .ok before ∧
      ∀ rest, tokenize (line ++ Ascii.newline :: rest) = (tokenize rest).map (tokens ++ ·) := by
  rw [tokenize_append_newline] at h
  cases hline : Token.scan 0 line with
  | error e =>
      rw [hline] at h
      cases h
  | ok before =>
      rw [hline] at h
      have htokens : before ++ [Token.lineEnd] = tokens := Except.ok.inj h
      refine ⟨before, htokens.symm, rfl, ?_⟩
      intro rest
      rw [tokenize_append_newline, hline, ← htokens]
      simp only [List.append_assoc, List.singleton_append]

theorem tokenize_split {line rest : Bytes} {tokens : List Token}
    (h : tokenize (line ++ Ascii.newline :: rest) = .ok tokens) :
    ∃ first more, tokenize (line ++ [Ascii.newline]) = .ok first ∧ tokenize rest = .ok more ∧
      tokens = first ++ more := by
  rw [tokenize_append_newline] at h
  cases hline : Token.scan 0 line with
  | error e =>
      rw [hline] at h
      cases h
  | ok before =>
      rw [hline] at h
      obtain ⟨more, hmore, rfl⟩ := exists_of_map_eq_ok h
      refine ⟨before ++ [Token.lineEnd], more, ?_, hmore, ?_⟩
      · rw [tokenize_append_newline, hline]
        rfl
      · rw [List.append_assoc, List.singleton_append]

end Scriptlet
