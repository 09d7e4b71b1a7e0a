import Scriptlet.Outline
import Scriptlet.Proofs.Numerals

/-!
The text of an outline determines it. A name is spelled as a run of bare bytes or in quotes, and what follows
a name is never a bare byte, so it is clear where the name ends; a name that a number could be taken for is
in quotes, so numbers stand for empty names only. Lines and parameters are then told apart by the bytes they
begin with. The empty names of parameters are numbered, and numbers of more than 64 bits are bare names, so
all this holds as long as no list of parameters is so long that its length needs more than 64 bits.
-/

namespace Scriptlet

open Ascii

namespace Outline

/-! ### Bare names and names in quotes -/

/-- Text in front of which a bare name ends. -/
def Ends (s : Bytes) : Prop := ∀ b rest, s = b :: rest → isBareByte b = false

theorem Ends.cons {b : UInt8} (hb : isBareByte b = false) (rest : Bytes) : Ends (b :: rest) := by
  intro b' rest' heq
  rwa [← (List.cons.inj heq).1]

theorem Ends.ne_bare {s : Bytes} (hs : Ends s) {b : UInt8} (hb : isBareByte b = true) (rest : Bytes) :
    s ≠ b :: rest := by
  intro heq
  rw [hs b rest heq] at hb
  cases hb

theorem bare_append_inj {a b s t : Bytes} (ha : ∀ c ∈ a, isBareByte c = true) (hb : ∀ c ∈ b, isBareByte c = true)
    (hs : Ends s) (ht : Ends t) (h : a ++ s = b ++ t) : a = b ∧ s = t := by
  induction a generalizing b with
  | nil =>
      cases b with
      | nil => exact ⟨rfl, h⟩
      | cons c b => exact absurd h (hs.ne_bare (hb c (List.mem_cons_self ..)) _)
  | cons c a ih =>
      cases b with
      | nil => exact absurd h.symm (ht.ne_bare (ha c (List.mem_cons_self ..)) _)
      | cons c' b =>
          rw [List.forall_mem_cons] at ha hb
          obtain ⟨rfl, hrest⟩ := List.cons.inj h
          obtain ⟨rfl, heq⟩ := ih ha.2 hb.2 hrest
          exact ⟨rfl, heq⟩

theorem hexDigit_inj {m n : Nat} (hm : m < 16) (hn : n < 16) (h : hexDigit m = hexDigit n) : m = n := by
  have hall : ∀ m < 16, ∀ n < 16, hexDigit m = hexDigit n → m = n := by decide
  exact hall m hm n hn h

theorem quoteByte_cases (b : UInt8) :
    quoteByte b = [b] ∧ b ≠ doubleQuote ∧ b ≠ backslash ∨
      quoteByte b = [backslash, hexDigit (b.toNat / 16), hexDigit (b.toNat % 16)] := by
  unfold quoteByte
  split
  · rename_i hplain
    simp only [Bool.and_eq_true, bne_iff_ne] at hplain
    exact .inl ⟨rfl, hplain.1.2, hplain.2⟩
  · exact .inr rfl

theorem quoteByte_append_ne (b : UInt8) (s t : Bytes) : quoteByte b ++ s ≠ doubleQuote :: t := by
  intro h
  rcases quoteByte_cases b with ⟨hb, hquote, -⟩ | hb
  · rw [hb] at h
    exact hquote (List.cons.inj h).1
  · rw [hb] at h
    exact absurd (List.cons.inj h).1 (by decide)

theorem quoteByte_append_inj {b c : UInt8} {s t : Bytes} (h : quoteByte b ++ s = quoteByte c ++ t) :
    b = c ∧ s = t := by
  rcases quoteByte_cases b with ⟨hb, -, hb'⟩ | hb <;> rcases quoteByte_cases c with ⟨hc, -, hc'⟩ | hc <;>
    rw [hb, hc] at h
  · exact List.cons.inj h
  · exact absurd (List.cons.inj h).1 hb'
  · exact absurd (List.cons.inj h).1.symm hc'
  · simp only [List.cons_append, List.nil_append, List.cons.injEq, true_and] at h
    obtain ⟨hhigh, hlow, heq⟩ := h
    have hb := b.toNat_lt
    have hc := c.toNat_lt
    have hdiv := hexDigit_inj (by omega) (by omega) hhigh
    have hmod := hexDigit_inj (by omega) (by omega) hlow
    exact ⟨UInt8.toNat_inj.mp (by omega), heq⟩

theorem quoteName_append_inj {a b s t : Bytes} (h : quoteName a ++ s = quoteName b ++ t) : a = b ∧ s = t := by
  simp only [quoteName, List.cons_append, List.append_assoc, List.nil_append, List.cons.injEq, true_and] at h
  induction a generalizing b with
  | nil =>
      cases b with
      | nil => exact ⟨rfl, (List.cons.inj h).2⟩
      | cons c b =>
          rw [List.flatMap_cons, List.append_assoc] at h
          exact absurd h.symm (quoteByte_append_ne c _ _)
  | cons c a ih =>
      rw [List.flatMap_cons, List.append_assoc] at h
      cases b with
      | nil => exact absurd h (quoteByte_append_ne c _ _)
      | cons c' b =>
          rw [List.flatMap_cons, List.append_assoc] at h
          obtain ⟨rfl, hrest⟩ := quoteByte_append_inj h
          obtain ⟨rfl, heq⟩ := ih hrest
          exact ⟨rfl, heq⟩

theorem quoteName_append_ne {l : Bytes} (hne : l ≠ []) (hl : ∀ b ∈ l, isBareByte b = true) (name s t : Bytes) :
    quoteName name ++ s ≠ l ++ t := by
  obtain ⟨b, l, rfl⟩ := List.exists_cons_of_ne_nil hne
  intro h
  have hb := hl b (List.mem_cons_self ..)
  rw [← (List.cons.inj h).1] at hb
  exact absurd hb (by decide)

/-! ### Labels -/

theorem isBareByte_of_mem_ofNat {n : Nat} : ∀ b ∈ Decimal.ofNat n, isBareByte b = true := by
  intro b hb
  simp [isBareByte, Decimal.isDigit_of_mem_ofNat b hb]

/-- A name is spelled in quotes, or bare as itself or as a number. -/
theorem label_cases (number : Nat) (name : Bytes) :
    label number name = quoteName name ∨
      (label number name ≠ [] ∧ ∀ b ∈ label number name, isBareByte b = true) ∧
        (name = [] ∧ label number name = Decimal.ofNat number ∨
          label number name = name ∧ Decimal.isUInt64 name = false) := by
  by_cases hname : name = []
  · have hlabel : label number name = Decimal.ofNat number := if_pos (List.isEmpty_iff.mpr hname)
    rw [hlabel]
    exact .inr ⟨⟨Decimal.ofNat_ne_nil number, isBareByte_of_mem_ofNat⟩, .inl ⟨hname, rfl⟩⟩
  · rw [label_of_ne_nil hname, renderName]
    split
    · exact .inl rfl
    · rename_i hnumber
      split
      · rename_i hbare
        exact .inr ⟨⟨hname, List.all_eq_true.mp hbare⟩, .inr ⟨rfl, Bool.eq_false_iff.mpr hnumber⟩⟩
      · exact .inl rfl

theorem isUInt64_ofNat (n : Nat) : Decimal.isUInt64 (Decimal.ofNat n) = decide (n < UInt64.size) := by
  rw [Decimal.isUInt64_eq, Decimal.isDigits_ofNat, Decimal.value_ofNat, Bool.true_and]

/-- The number of an empty name is no name as long as it has 64 bits. -/
theorem ofNat_ne_name {number : Nat} (hnumber : number < UInt64.size) {name : Bytes}
    (hname : Decimal.isUInt64 name = false) : Decimal.ofNat number ≠ name := by
  rintro rfl
  rw [isUInt64_ofNat, decide_eq_true hnumber] at hname
  cases hname

/-- The spelling of a name determines it and where it ends. -/
theorem label_append_inj {number : Nat} (hnumber : number < UInt64.size) {a b s t : Bytes} (hs : Ends s)
    (ht : Ends t) (h : label number a ++ s = label number b ++ t) : a = b ∧ s = t := by
  rcases label_cases number a with ha | ⟨⟨hane, habare⟩, ha⟩ <;>
    rcases label_cases number b with hb | ⟨⟨hbne, hbbare⟩, hb⟩
  · rw [ha, hb] at h
    exact quoteName_append_inj h
  · rw [ha] at h
    exact absurd h (quoteName_append_ne hbne hbbare a s t)
  · rw [hb] at h
    exact absurd h.symm (quoteName_append_ne hane habare b t s)
  · obtain ⟨heq, hrest⟩ := bare_append_inj habare hbbare hs ht h
    refine ⟨?_, hrest⟩
    rcases ha with ⟨ha, ha'⟩ | ⟨ha, ha'⟩ <;> rcases hb with ⟨hb, hb'⟩ | ⟨hb, hb'⟩
    · rw [ha, hb]
    · exact absurd (ha'.symm.trans (heq.trans hb)) (ofNat_ne_name hnumber hb')
    · exact absurd (hb'.symm.trans (heq.symm.trans ha)) (ofNat_ne_name hnumber ha')
    · rw [← ha, heq, hb]

/-! ### Parameters -/

theorem intercalate_cons (separator part : Bytes) (parts : List Bytes) :
    separator.intercalate (part :: parts) = part ++ parts.flatMap (separator ++ ·) := by
  induction parts generalizing part with
  | nil => simp
  | cons next parts ih =>
      rw [List.intercalate_cons_cons, ih next, List.flatMap_cons]
      simp only [List.append_assoc]

theorem renderParams_cons (number : Nat) (name : Bytes) (names : List Bytes) :
    renderParams number (name :: names) = (text "i8* %" ++ label number name) ::
      renderParams (if name.isEmpty then number + 1 else number) names := rfl

/-- The parameters behind one of them, up to the end of the line and with what follows. -/
def paramsBehind (number : Nat) (names : List Bytes) (s : Bytes) : Bytes :=
  (renderParams number names).flatMap (text ", " ++ ·) ++ (text ")\n" ++ s)

theorem paramsBehind_cons (number : Nat) (name : Bytes) (names : List Bytes) (s : Bytes) :
    paramsBehind number (name :: names) s = text ", i8* %" ++ (label number name ++
      paramsBehind (if name.isEmpty then number + 1 else number) names s) := by
  have htext : text ", i8* %" = text ", " ++ text "i8* %" := rfl
  rw [paramsBehind, renderParams_cons, List.flatMap_cons, htext, paramsBehind]
  simp only [List.append_assoc]

theorem ends_paramsBehind (number : Nat) (names : List Bytes) (s : Bytes) : Ends (paramsBehind number names s) := by
  cases names with
  | nil => exact .cons (b := closeParen) (by decide) _
  | cons name names =>
      rw [paramsBehind_cons]
      exact .cons (b := comma) (by decide) _

/-- The parameters behind one are determined with where they end, as long as there are so few that their
numbers have 64 bits. -/
theorem paramsBehind_inj {number : Nat} {names names' : List Bytes} {s t : Bytes}
    (hfew : number + names.length ≤ UInt64.size)
    (h : paramsBehind number names s = paramsBehind number names' t) : names = names' ∧ s = t := by
  induction names generalizing number names' with
  | nil =>
      cases names' with
      | nil => exact ⟨rfl, List.append_cancel_left h⟩
      | cons name names' =>
          rw [paramsBehind_cons] at h
          exact absurd (List.cons.inj h).1 (by decide)
  | cons name names ih =>
      rw [paramsBehind_cons] at h
      cases names' with
      | nil => exact absurd (List.cons.inj h).1 (by decide)
      | cons name' names' =>
          rw [paramsBehind_cons] at h
          rw [List.length_cons] at hfew
          obtain ⟨rfl, hrest⟩ := label_append_inj (by omega) (ends_paramsBehind _ _ _)
            (ends_paramsBehind _ _ _) (List.append_cancel_left h)
          have hfew' : (if name.isEmpty then number + 1 else number) + names.length ≤ UInt64.size := by
            split <;> omega
          obtain ⟨rfl, heq⟩ := ih hfew' hrest
          exact ⟨rfl, heq⟩

/-- The parameters of a function, up to the end of the line and with what follows. -/
def paramsOnto (names : List Bytes) (s : Bytes) : Bytes :=
  (text ", ").intercalate (renderParams 0 names) ++ (text ")\n" ++ s)

theorem paramsBehind_cons_eq (name : Bytes) (names : List Bytes) (s : Bytes) :
    paramsBehind 0 (name :: names) s = text ", " ++ paramsOnto (name :: names) s := by
  rw [paramsBehind, paramsOnto, renderParams_cons, intercalate_cons, List.flatMap_cons]
  simp only [List.append_assoc]

theorem paramsOnto_cons_ne (name : Bytes) (names : List Bytes) (s t : Bytes) :
    paramsOnto (name :: names) s ≠ paramsOnto [] t := by
  intro h
  have hbehind := paramsBehind_cons_eq name names s
  rw [h, paramsBehind_cons] at hbehind
  exact absurd (List.cons.inj (List.cons.inj (List.cons.inj hbehind).2).2).1 (by decide)

/-- The parameters of a function are determined with where they end. -/
theorem paramsOnto_inj {names names' : List Bytes} {s t : Bytes} (hfew : names.length ≤ UInt64.size)
    (h : paramsOnto names s = paramsOnto names' t) : names = names' ∧ s = t := by
  cases names with
  | nil =>
      cases names' with
      | nil => exact ⟨rfl, List.append_cancel_left h⟩
      | cons name' names' => exact absurd h.symm (paramsOnto_cons_ne name' names' t s)
  | cons name names =>
      cases names' with
      | nil => exact absurd h (paramsOnto_cons_ne name names s t)
      | cons name' names' =>
          apply paramsBehind_inj (by rwa [Nat.zero_add])
          rw [paramsBehind_cons_eq, paramsBehind_cons_eq, h]

/-! ### Lines -/

theorem renderFunction_append (f : Signature) (s : Bytes) : renderFunction f ++ s =
    text "declare i8* @" ++ (label 0 f.name ++ (openParen :: paramsOnto f.params s)) := by
  have htext : text "declare i8* @" = text "declare i8* " ++ text "@" := rfl
  rw [renderFunction, globalName, htext, paramsOnto]
  simp only [List.append_assoc]
  rfl

theorem renderFunction_append_inj {f g : Signature} {s t : Bytes} (hfew : f.params.length ≤ UInt64.size)
    (h : renderFunction f ++ s = renderFunction g ++ t) : f = g ∧ s = t := by
  rw [renderFunction_append, renderFunction_append] at h
  obtain ⟨hname, hrest⟩ := label_append_inj (by decide) (.cons (by decide) _) (.cons (by decide) _)
    (List.append_cancel_left h)
  obtain ⟨hparams, heq⟩ := paramsOnto_inj hfew (List.cons.inj hrest).2
  obtain ⟨name, params⟩ := f
  obtain ⟨name', params'⟩ := g
  exact ⟨congr (congrArg Signature.mk hname) hparams, heq⟩

/-- The lines of functions with the blank lines in front of them. -/
def functionsBehind (functions : List Signature) : Bytes :=
  (functions.map renderFunction).flatMap (text "\n" ++ ·)

theorem functionsBehind_cons (f : Signature) (functions : List Signature) :
    functionsBehind (f :: functions) = text "\n" ++ (renderFunction f ++ functionsBehind functions) := by
  rw [functionsBehind, List.map_cons, List.flatMap_cons, List.append_assoc]
  rfl

theorem functionsBehind_inj {fs gs : List Signature} (hfew : ∀ f ∈ fs, f.params.length ≤ UInt64.size)
    (h : functionsBehind fs = functionsBehind gs) : fs = gs := by
  induction fs generalizing gs with
  | nil =>
      cases gs with
      | nil => rfl
      | cons g gs => cases h
  | cons f fs ih =>
      cases gs with
      | nil => cases h
      | cons g gs =>
          rw [List.forall_mem_cons] at hfew
          rw [functionsBehind_cons, functionsBehind_cons] at h
          obtain ⟨rfl, hrest⟩ := renderFunction_append_inj hfew.1 (List.append_cancel_left h)
          rw [ih hfew.2 hrest]

theorem renderGlobal_append (name s : Bytes) :
    renderGlobal name ++ s = text "@" ++ (label 0 name ++ (text " = global i8* null\n" ++ s)) := by
  rw [renderGlobal, globalName]
  simp only [List.append_assoc]

theorem renderGlobal_append_inj {a b s t : Bytes} (h : renderGlobal a ++ s = renderGlobal b ++ t) :
    a = b ∧ s = t := by
  have hends : ∀ s, Ends (text " = global i8* null\n" ++ s) := fun s => .cons (b := space) (by decide) _
  rw [renderGlobal_append, renderGlobal_append] at h
  obtain ⟨rfl, hrest⟩ := label_append_inj (by decide) (hends s) (hends t) (List.append_cancel_left h)
  exact ⟨rfl, List.append_cancel_left hrest⟩

/-- The globals are determined with where they end, if no other global follows. -/
theorem globals_append_inj {globals globals' : List Bytes} {s t : Bytes} (hs : ∀ rest, s ≠ text "@" ++ rest)
    (ht : ∀ rest, t ≠ text "@" ++ rest)
    (h : globals.flatMap renderGlobal ++ s = globals'.flatMap renderGlobal ++ t) : globals = globals' ∧ s = t := by
  induction globals generalizing globals' with
  | nil =>
      cases globals' with
      | nil => exact ⟨rfl, h⟩
      | cons name globals' =>
          rw [List.flatMap_cons, List.append_assoc, renderGlobal_append] at h
          exact absurd h (hs _)
  | cons name globals ih =>
      rw [List.flatMap_cons, List.append_assoc] at h
      cases globals' with
      | nil =>
          rw [renderGlobal_append] at h
          exact absurd h.symm (ht _)
      | cons name' globals' =>
          rw [List.flatMap_cons, List.append_assoc] at h
          obtain ⟨rfl, hrest⟩ := renderGlobal_append_inj h
          obtain ⟨rfl, heq⟩ := ih hrest
          exact ⟨rfl, heq⟩

/-! ### Outlines -/

/-- What stands behind the globals. -/
def behindGlobals (o : Outline) : Bytes :=
  o.groupSeparator ++ (text "\n").intercalate (o.functions.map renderFunction)

theorem behindGlobals_nil (globals : List Bytes) : behindGlobals ⟨globals, []⟩ = [] := by
  have hseparator : groupSeparator ⟨globals, []⟩ = [] := if_pos (Bool.or_true _)
  rw [behindGlobals, hseparator]
  rfl

theorem behindGlobals_cons (globals : List Bytes) (f : Signature) (functions : List Signature) :
    behindGlobals ⟨globals, f :: functions⟩ =
      (if globals.isEmpty then [] else text "\n") ++ (renderFunction f ++ functionsBehind functions) := by
  rw [behindGlobals, List.map_cons, intercalate_cons, groupSeparator, functionsBehind]
  simp only [List.isEmpty_cons, Bool.or_false]

theorem behindGlobals_ne (o : Outline) (rest : Bytes) : o.behindGlobals ≠ text "@" ++ rest := by
  obtain ⟨globals, functions⟩ := o
  cases functions with
  | nil =>
      rw [behindGlobals_nil]
      exact (List.cons_ne_nil _ _).symm
  | cons f functions =>
      rw [behindGlobals_cons, renderFunction_append]
      intro h
      split at h
      · exact absurd (List.cons.inj h).1 (by decide)
      · exact absurd (List.cons.inj h).1 (by decide)

theorem behindGlobals_inj {globals : List Bytes} {fs gs : List Signature}
    (hfew : ∀ f ∈ fs, f.params.length ≤ UInt64.size)
    (h : behindGlobals ⟨globals, fs⟩ = behindGlobals ⟨globals, gs⟩) : fs = gs := by
  have hne : ∀ f functions, behindGlobals ⟨globals, f :: functions⟩ ≠ [] := by
    intro f functions
    rw [behindGlobals_cons, renderFunction_append]
    exact List.append_ne_nil_of_right_ne_nil _ (List.cons_ne_nil _ _)
  cases fs with
  | nil =>
      cases gs with
      | nil => rfl
      | cons g gs => exact absurd (h.symm.trans (behindGlobals_nil globals)) (hne g gs)
  | cons f fs =>
      cases gs with
      | nil => exact absurd (h.trans (behindGlobals_nil globals)) (hne f fs)
      | cons g gs =>
          rw [List.forall_mem_cons] at hfew
          rw [behindGlobals_cons, behindGlobals_cons] at h
          obtain ⟨rfl, hrest⟩ := renderFunction_append_inj hfew.1 (List.append_cancel_left h)
          rw [functionsBehind_inj hfew.2 hrest]

theorem render_inj {o o' : Outline} (hfew : ∀ f ∈ o.functions, f.params.length ≤ UInt64.size)
    (h : o.render = o'.render) : o = o' := by
  have hrender : ∀ o : Outline, o.render = o.globals.flatMap renderGlobal ++ o.behindGlobals :=
    fun o => List.append_assoc ..
  rw [hrender, hrender] at h
  obtain ⟨hglobals, hbehind⟩ := globals_append_inj o.behindGlobals_ne o'.behindGlobals_ne h
  obtain ⟨globals, fs⟩ := o
  obtain ⟨globals', gs⟩ := o'
  cases hglobals
  exact congrArg (Outline.mk globals) (behindGlobals_inj hfew hbehind)

theorem renderParams_replicate_append (number n : Nat) (names : List Bytes) :
    renderParams number (List.replicate n [] ++ names) =
      renderParams number (List.replicate n []) ++ renderParams (number + n) names := by
  induction n generalizing number with
  | zero => rfl
  | succ n ih =>
      rw [List.replicate_succ, List.cons_append, renderParams_cons, renderParams_cons]
      simp only [List.isEmpty_nil, if_true, ih, List.cons_append, Nat.add_comm n, Nat.add_assoc]

/-- Behind more empty names than 64 bits count, the next empty name is spelled as a name that is not empty. -/
theorem renderParams_replicate_ambiguous {n : Nat} (hn : UInt64.size ≤ n) :
    renderParams 0 (List.replicate n [] ++ [[]]) = renderParams 0 (List.replicate n [] ++ [Decimal.ofNat n]) := by
  have hbare : label n (Decimal.ofNat n) = Decimal.ofNat n := by
    have hnumber : ¬ Decimal.isUInt64 (Decimal.ofNat n) = true := by
      rw [isUInt64_ofNat, decide_eq_true_eq]
      exact Nat.not_lt.mpr hn
    rw [label_of_ne_nil (Decimal.ofNat_ne_nil n), renderName, if_neg hnumber,
      if_pos (List.all_eq_true.mpr isBareByte_of_mem_ofNat)]
  rw [renderParams_replicate_append, renderParams_replicate_append, renderParams_cons, renderParams_cons,
    Nat.zero_add, hbare]
  rfl

end Outline

/-- Two programs whose outlines have the same text declare the same globals and the same functions with the same
parameters. The length of a list of parameters is taken to have 64 bits; that one of the programs has no longer
lists is enough. -/
theorem Program.outline_eq_of_render_eq {p q : Program}
    (hfew : ∀ f ∈ p.outline.functions, f.params.length ≤ UInt64.size) (h : p.outline.render = q.outline.render) :
    p.outline.globals = q.outline.globals ∧ p.outline.functions = q.outline.functions := by
  rw [Outline.render_inj hfew h]
  exact ⟨rfl, rfl⟩

/-- Names of all spellings: empty ones, a number, one beyond 64 bits and one in quotes. Terms behind names, bodies
and what is declared again leave no trace in the text. -/
theorem Program.outline_eq_of_render_eq_spellings :
    let huge := text "18446744073709551616"
    let p : Program := [.function (text "0") [[], [.var (text "0")], [.nil], [.var huge]] none,
      .statements [[.var [], .assign], [.var (text "a\"\n"), .assign, .nil]]]
    let q : Program := [.statements [[.var [], .assign, .nil], [.var huge]],
      .function (text "0") [[.nil], [.var (text "0"), .assign], [], [.var huge, .plus]] (some [[.nil]]),
      .function [] [] none, .statements [[.var (text "a\"\n"), .assign], [.var (text "0"), .assign]]]
    p.outline.render = q.outline.render ∧ p.outline.functions.map (·.params.length) = [4] ∧
      p.outline.globals = q.outline.globals ∧ p.outline.functions = q.outline.functions := by
  intro huge p q
  have hrender : p.outline.render = q.outline.render := by with_unfolding_all rfl
  have hlengths : p.outline.functions.map (·.params.length) = [4] := by with_unfolding_all rfl
  have hfew : ∀ f ∈ p.outline.functions, f.params.length ≤ UInt64.size := by
    intro f hf
    have hlength : f.params.length ∈ [4] := hlengths ▸ List.mem_map_of_mem hf
    rw [List.mem_singleton.mp hlength]
    decide
  exact ⟨hrender, hlengths, Program.outline_eq_of_render_eq hfew hrender⟩

end Scriptlet
