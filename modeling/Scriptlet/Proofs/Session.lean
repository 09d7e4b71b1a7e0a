import Scriptlet.Command.Repl
import Scriptlet.Proofs.Concatenation
import Scriptlet.Proofs.Locality

/-!
A session and the translation of all its lines at once. A session cuts the lines into chunks, each as short
as it can be, and translates every chunk by itself. What more lines cannot mend stays wrong whatever comes
behind it, and a chunk that is a program is separated by its newline from all that follows. So a session on
the lines of a program shows the script text of the program piece by piece and no error; and the lines of a
session that showed no error and waits for nothing are a program, up to blank lines in front.
-/

namespace Scriptlet

namespace Repl

/-- The script text that is shown with an event. -/
def Event.output : Event → Bytes
  | .script js => js
  | _ => []

/-- All the script text that a session shows. -/
def Session.output (s : Session) : Bytes := s.events.flatMap Event.output

/-- A session that shows this script text and no error, and at the end of the input waits for nothing. -/
structure Session.Shows (s : Session) (js : Bytes) : Prop where
  clean : ∀ e, Event.failure e ∉ s.events
  output_eq : s.output = js
  ending_eq : s.ending = .endOfInput []

/-- The text that lines make up. -/
def sourceOf (lines : List Bytes) : Bytes := lines.flatMap (· ++ [Ascii.newline])

theorem sourceOf_cons (line : Bytes) (lines : List Bytes) :
    sourceOf (line :: lines) = line ++ Ascii.newline :: sourceOf lines := by
  simp [sourceOf]

/-! ### One line -/

theorem shows_after_prompt {isContinuation : Bool} {s : Session} {js : Bytes} :
    (s.after [.prompt isContinuation]).Shows js ↔ s.Shows js := by
  constructor
  · intro h
    exact ⟨fun e he => h.clean e (List.mem_cons_of_mem _ he), h.output_eq, h.ending_eq⟩
  · intro h
    refine ⟨?_, h.output_eq, h.ending_eq⟩
    intro e he
    rcases List.mem_cons.mp he with heq | he
    · cases heq
    · exact h.clean e he

theorem shows_after_script {isContinuation : Bool} {s : Session} {first js : Bytes} :
    (s.after [.prompt isContinuation, .script first]).Shows js ↔ ∃ more, s.Shows more ∧ js = first ++ more := by
  constructor
  · intro h
    refine ⟨s.output, ⟨?_, rfl, h.ending_eq⟩, h.output_eq.symm⟩
    intro e he
    exact h.clean e (List.mem_append_right _ he)
  · rintro ⟨more, h, rfl⟩
    refine ⟨?_, congrArg (first ++ ·) h.output_eq, h.ending_eq⟩
    intro e he
    rcases List.mem_append.mp he with he | he
    · simp at he
    · exact h.clean e he

theorem not_shows_after_failure {isContinuation : Bool} {s : Session} {e : SourceError} {js : Bytes} :
    ¬ (s.after [.prompt isContinuation, .failure e]).Shows js := by
  intro h
  exact h.clean e (List.mem_append_left _ (by simp))

/-- What a session does with a line, by what it makes a chunk of. -/
theorem run_cons_cases (history : List Bytes) (pending line : Bytes) (lines : List Bytes) :
    ∃ isContinuation chunk, chunk = pending ++ line ++ [Ascii.newline] ∧
    ((Bytes.trim chunk = quitWord ∧
        run history pending (line :: lines) = ⟨[.prompt isContinuation], history, .quit⟩) ∨
      (needsMore (translate chunk) = true ∧
        run history pending (line :: lines) = (run history chunk lines).after [.prompt isContinuation]) ∨
      (Bytes.trim chunk = [] ∧
        run history pending (line :: lines) = (run history [] lines).after [.prompt isContinuation]) ∨
      (Bytes.trim chunk ≠ [] ∧ needsMore (translate chunk) = false ∧
        ∃ history', run history pending (line :: lines) =
          (run history' [] lines).after [.prompt isContinuation, respond (translate chunk)])) := by
  refine ⟨!pending.isEmpty, _, rfl, ?_⟩
  rw [run]
  by_cases hquit : Bytes.trim (pending ++ line ++ [Ascii.newline]) = quitWord
  · exact Or.inl ⟨hquit, if_pos hquit⟩
  rw [if_neg hquit]
  right
  cases hmore : needsMore (translate (pending ++ line ++ [Ascii.newline])) with
  | true => exact Or.inl ⟨rfl, if_pos rfl⟩
  | false =>
      right
      by_cases hblank : Bytes.trim (pending ++ line ++ [Ascii.newline]) = []
      · exact Or.inl ⟨hblank, by rw [if_neg (by decide), if_pos hblank]⟩
      · exact Or.inr ⟨hblank, rfl, _, by rw [if_neg (by decide), if_neg hblank]⟩

/-! ### Chunks -/

theorem tokenize_quit {chunk : Bytes} (h : Bytes.trim chunk = quitWord) (tokens : List Token) :
    tokenize chunk ≠ .ok tokens := by
  intro htokens
  obtain ⟨before, after, hbefore, -, hchunk⟩ := Bytes.exists_append_trim_append chunk
  obtain ⟨newlines, -, hscan⟩ := Token.scan_blanks hbefore
  have hstuck : ∀ rest, Token.scan 0 (quitWord ++ rest) = .error ⟨quitWord ++ rest⟩ := by
    intro rest
    exact Token.scan_stuck (List.append_ne_nil_of_left_ne_nil (by decide) rest) rfl rfl
  have hfails := scan_of_tokenize htokens
  rw [hchunk, h, List.append_assoc, hscan, hstuck] at hfails
  cases hfails

theorem tokenize_blank {line : Bytes} (h : Bytes.trim (line ++ [Ascii.newline]) = []) :
    ∃ newlines, Grammar.Newlines newlines ∧ tokenize (line ++ [Ascii.newline]) = .ok newlines := by
  obtain ⟨cs, hcs, hchunk⟩ := Bytes.trim_eq_nil_iff.mp h
  obtain ⟨newlines, hnewlines, hscan⟩ := Token.scan_blanks hcs
  refine ⟨newlines, hnewlines, ?_⟩
  have hread := hscan []
  rw [List.append_nil, ← hchunk] at hread
  rw [tokenize_concat_newline, hread]
  exact congrArg Except.ok (List.append_nil newlines)

theorem trim_append_newline {line : Bytes} (h : Bytes.trim line = []) :
    Bytes.trim (line ++ [Ascii.newline]) = [] := by
  obtain ⟨cs, hcs, rfl⟩ := Bytes.trim_eq_nil_iff.mp h
  have hnewline : ∀ c ∈ ['\n'], isBlank c = true := List.forall_mem_singleton.mpr rfl
  refine Bytes.trim_eq_nil_iff.mpr ⟨cs ++ ['\n'], List.forall_mem_append.mpr ⟨hcs, hnewline⟩, ?_⟩
  rw [encodeChars_append]
  rfl

/-- The tokens of a line that is not blank begin with one that is no newline. -/
theorem nextIs_newline_of_line {line : Bytes} {tokens : List Token} (hline : Ascii.newline ∉ line)
    (hblank : Bytes.trim line ≠ []) (h : Token.scan 0 line = .ok tokens) (more : List Token) :
    Read.nextIs .newline (tokens ++ more) = false := by
  have hne : tokens ≠ [] := by
    rintro rfl
    exact hblank (Token.trim_of_scan_nil h)
  rw [Read.nextIs_append hne]
  apply Token.nextIs_newline_of_scan h
  intro hhead
  obtain ⟨cs, -, hsplit⟩ := Bytes.exists_append_trimStart isHorizontalBlank line
  apply hline
  rw [hsplit]
  exact List.mem_append_right _ (List.mem_of_head? hhead)

theorem parse_newline (value : Bytes) (rest : List Token) :
    parse (⟨.newline, value⟩ :: rest) = .error (.lookahead ⟨.newline, value⟩) := by
  have hterm : Read.statement (⟨.newline, value⟩ :: rest) =
      .error (.lookahead ⟨.newline, value⟩) (⟨.newline, value⟩ :: rest) := by
    rw [Read.statement_eq]
    rfl
  rw [parse, Read.program_cons, Read.node_eq_statements rfl, Read.statements_eq,
    if_neg (by exact Bool.false_ne_true), hterm]
  rfl

/-- The lines that a session has collected: none, or lines that more of them could make a program of. -/
def Waiting (pending : Bytes) : Prop :=
  pending = [] ∨ ∃ line tokens e, pending = line ++ [Ascii.newline] ∧ tokenize pending = .ok tokens ∧
    parse tokens = .error e ∧ e.isIncomplete = true

theorem waiting_of_needsMore {line : Bytes} (h : needsMore (translate (line ++ [Ascii.newline])) = true) :
    Waiting (line ++ [Ascii.newline]) := by
  right
  cases htokens : tokenize (line ++ [Ascii.newline]) with
  | error e => simp [translate, readProgram, htokens, needsMore, Except.map, SourceError.isIncomplete] at h
  | ok tokens =>
      rw [translate_of_tokenize htokens] at h
      cases hparse : parse tokens with
      | ok p =>
          rw [hparse] at h
          cases h
      | error e =>
          rw [hparse] at h
          exact ⟨line, tokens, e, rfl, rfl, hparse, h⟩

theorem nextIs_newline_of_incomplete {tokens : List Token} {e : ParseError} (h : parse tokens = .error e)
    (hincomplete : e.isIncomplete = true) : tokens ≠ [] ∧ Read.nextIs .newline tokens = false := by
  constructor
  · rintro rfl
    rw [parse_nil] at h
    cases h
  · rw [Bool.eq_false_iff]
    intro hnext
    obtain ⟨value, rest, rfl⟩ := Read.nextIs_iff.mp hnext
    rw [parse_newline] at h
    cases h
    cases hincomplete

/-- The tokens of a chunk that is not blank begin with one that is no newline. -/
theorem nextIs_newline_of_chunk {pending line : Bytes} {tokens : List Token} (hpending : Waiting pending)
    (hline : Ascii.newline ∉ line) (hblank : Bytes.trim (pending ++ line ++ [Ascii.newline]) ≠ [])
    (h : tokenize (pending ++ line ++ [Ascii.newline]) = .ok tokens) :
    Read.nextIs .newline tokens = false := by
  rcases hpending with rfl | ⟨before, ts, e, rfl, htokens, hparse, hincomplete⟩
  · obtain ⟨found, rfl, hscan, -⟩ := tokenize_line h
    refine nextIs_newline_of_line hline ?_ hscan _
    exact fun hempty => hblank (trim_append_newline hempty)
  · obtain ⟨-, -, -, hmore⟩ := tokenize_line htokens
    obtain ⟨hne, hstart⟩ := nextIs_newline_of_incomplete hparse hincomplete
    rw [List.append_assoc, List.append_assoc, List.singleton_append, hmore] at h
    obtain ⟨found, -, rfl⟩ := exists_of_map_eq_ok h
    rw [Read.nextIs_append hne, hstart]

/-- Behind a chunk that is a program, reading starts afresh. -/
theorem parse_chunk {line : Bytes} {first : List Token} {p : Program}
    (hfirst : tokenize (line ++ [Ascii.newline]) = .ok first) (hp : parse first = .ok p) (more : List Token) :
    parse (Read.skipNewlines (first ++ more)) =
      (parse (Read.skipNewlines more)).map (Program.join p) := by
  obtain ⟨before, rfl, -, -⟩ := tokenize_line hfirst
  have hne : before ++ [Token.lineEnd] ≠ [] := by simp
  have hstart := (Read.parse_sound hp).nextIs_newline
  rw [Read.skipNewlines_eq_self (by rw [Read.nextIs_append hne, hstart])]
  apply parse_append hp hne
  intro token hlast hkind
  rw [List.getLast?_concat, Option.some.injEq] at hlast
  exact absurd (hlast ▸ rfl) hkind

/-- A chunk that needs no more lines is a program if what it begins is one. -/
theorem exists_parse_of_chunk {pending line : Bytes} {first more : List Token} {p : Program}
    (hpending : Waiting pending) (hline : Ascii.newline ∉ line)
    (hfirst : tokenize (pending ++ line ++ [Ascii.newline]) = .ok first)
    (hblank : Bytes.trim (pending ++ line ++ [Ascii.newline]) ≠ [])
    (hneeds : needsMore (translate (pending ++ line ++ [Ascii.newline])) = false)
    (hp : parse (Read.skipNewlines (first ++ more)) = .ok p) :
    ∃ q r, parse first = .ok q ∧ parse (Read.skipNewlines more) = .ok r ∧ p = Program.join q r := by
  cases hread : parse first with
  | ok q =>
      rw [parse_chunk hfirst hread] at hp
      obtain ⟨r, hr, rfl⟩ := exists_of_map_eq_ok hp
      exact ⟨q, r, rfl, hr, rfl⟩
  | error e =>
      -- nothing behind the chunk mends it, and no newlines are skipped in front of it
      have hstart := nextIs_newline_of_chunk hpending hline hblank hfirst
      obtain ⟨before, rfl, -, -⟩ := tokenize_line hfirst
      rw [Read.skipNewlines_eq_self (by rw [Read.nextIs_append (by simp), hstart])] at hp
      have hincomplete := Read.isIncomplete_of_parse_append hread hp
      rw [translate_of_tokenize hfirst, hread] at hneeds
      exact absurd hincomplete (Bool.eq_false_iff.mp hneeds)

/-! ### All lines -/

theorem source_append (pending line : Bytes) (lines : List Bytes) :
    pending ++ sourceOf (line :: lines) = pending ++ line ++ Ascii.newline :: sourceOf lines := by
  rw [sourceOf_cons, List.append_assoc]

theorem source_chunk (pending line : Bytes) (lines : List Bytes) :
    pending ++ line ++ [Ascii.newline] ++ sourceOf lines = pending ++ sourceOf (line :: lines) := by
  rw [source_append, List.append_assoc, List.singleton_append]

/-- A session on the rest of a program shows its script text. -/
theorem shows_of_parse {lines : List Bytes} (hlines : ∀ line ∈ lines, Ascii.newline ∉ line)
    {history : List Bytes} {pending : Bytes} {tokens : List Token} {p : Program} (hpending : Waiting pending)
    (htokens : tokenize (pending ++ sourceOf lines) = .ok tokens)
    (hparse : parse (Read.skipNewlines tokens) = .ok p) :
    (run history pending lines).Shows p.render := by
  -- between chunks nothing is pending, and newlines that are left over from blank lines do not count
  induction lines generalizing history pending tokens p with
  | nil =>
      rw [sourceOf, List.flatMap_nil, List.append_nil] at htokens
      rcases hpending with rfl | ⟨line, ts, e, -, hpending, hfails, hincomplete⟩
      · cases htokens
        cases parse_nil.symm.trans hparse
        exact ⟨fun e he => by simp [run] at he, rfl, rfl⟩
      · obtain ⟨-, hstart⟩ := nextIs_newline_of_incomplete hfails hincomplete
        cases hpending.symm.trans htokens
        rw [Read.skipNewlines_eq_self hstart, hfails] at hparse
        cases hparse
  | cons line lines ih =>
      rw [List.forall_mem_cons] at hlines
      have hsplit := htokens
      rw [source_append] at hsplit
      obtain ⟨first, more, hfirst, hmore, rfl⟩ := tokenize_split hsplit
      obtain ⟨isContinuation, chunk, rfl, hstep⟩ := run_cons_cases history pending line lines
      rcases hstep with ⟨hquit, -⟩ | ⟨hneeds, hrun⟩ | ⟨hblank, hrun⟩ | ⟨hblank, hneeds, history', hrun⟩
      · exact absurd hfirst (tokenize_quit hquit first)
      · rw [hrun, shows_after_prompt]
        refine ih hlines.2 (waiting_of_needsMore hneeds) ?_ hparse
        rw [source_chunk]
        exact htokens
      · rw [hrun, shows_after_prompt]
        obtain ⟨newlines, hnewlines, htokenize⟩ := tokenize_blank hblank
        cases hfirst.symm.trans htokenize
        rw [hnewlines.skipNewlines_append] at hparse
        exact ih hlines.2 (Or.inl rfl) hmore hparse
      · obtain ⟨q, r, hq, hr, rfl⟩ :=
          exists_parse_of_chunk hpending hlines.1 hfirst hblank hneeds hparse
        rw [translate_of_tokenize hfirst, hq] at hrun
        rw [hrun]
        exact shows_after_script.mpr
          ⟨r.render, ih hlines.2 (Or.inl rfl) hmore hr, Program.render_join q r⟩

/-- The lines of a session that shows no error are a program behind newlines. -/
theorem parse_of_shows {lines : List Bytes} {history : List Bytes} {pending js : Bytes}
    (h : (run history pending lines).Shows js) :
    ∃ tokens p, tokenize (pending ++ sourceOf lines) = .ok tokens ∧
      parse (Read.skipNewlines tokens) = .ok p ∧ p.render = js := by
  induction lines generalizing history pending js with
  | nil =>
      cases h.ending_eq
      cases h.output_eq
      exact ⟨[], [], rfl, parse_nil, rfl⟩
  | cons line lines ih =>
      obtain ⟨isContinuation, chunk, rfl, hstep⟩ := run_cons_cases history pending line lines
      rcases hstep with ⟨-, hrun⟩ | ⟨-, hrun⟩ | ⟨hblank, hrun⟩ | ⟨hblank, hneeds, history', hrun⟩
      · rw [hrun] at h
        cases h.ending_eq
      · rw [hrun, shows_after_prompt] at h
        rw [← source_chunk]
        exact ih h
      · rw [hrun, shows_after_prompt] at h
        obtain ⟨tokens, p, htokens, hp, rfl⟩ := ih h
        obtain ⟨newlines, hnewlines, hchunk⟩ := tokenize_blank hblank
        obtain ⟨-, -, -, hbehind⟩ := tokenize_line hchunk
        refine ⟨newlines ++ tokens, p, ?_, ?_, rfl⟩
        · rw [source_append, hbehind, ← List.nil_append (sourceOf lines), htokens]
          rfl
        · rw [hnewlines.skipNewlines_append]
          exact hp
      · rw [hrun] at h
        cases hchunk : translate (pending ++ line ++ [Ascii.newline]) with
        | error e =>
            rw [hchunk] at h
            exact absurd h not_shows_after_failure
        | ok first =>
            rw [hchunk] at h
            obtain ⟨more, hmore, rfl⟩ := shows_after_script.mp h
            obtain ⟨tokens, p, htokens, hp, rfl⟩ := ih hmore
            obtain ⟨front, q, hfront, hq, rfl⟩ := translate_eq_ok_iff.mp hchunk
            obtain ⟨-, -, -, hbehind⟩ := tokenize_line hfront
            refine ⟨front ++ tokens, Program.join q p, ?_, ?_, Program.render_join q p⟩
            · rw [source_append, hbehind, ← List.nil_append (sourceOf lines), htokens]
              rfl
            · rw [parse_chunk hfront hq, hp]
              rfl

/-- The tokens without newlines in front are those of the lines without blank ones in front. -/
theorem tokenize_dropWhile_isBlank {lines : List Bytes} (hlines : ∀ line ∈ lines, Ascii.newline ∉ line)
    {tokens : List Token} (h : tokenize (sourceOf lines) = .ok tokens) :
    tokenize (sourceOf (lines.dropWhile Bytes.isBlank)) = .ok (Read.skipNewlines tokens) := by
  induction lines generalizing tokens with
  | nil =>
      cases h
      rfl
  | cons line lines ih =>
      rw [List.forall_mem_cons] at hlines
      have hsplit := h
      rw [sourceOf_cons] at hsplit
      obtain ⟨first, more, hfirst, hmore, rfl⟩ := tokenize_split hsplit
      by_cases hblank : Bytes.isBlank line = true
      · have htrim : Bytes.trim line = [] := List.isEmpty_iff.mp hblank
        obtain ⟨newlines, hnewlines, htokens⟩ := tokenize_blank (trim_append_newline htrim)
        cases hfirst.symm.trans htokens
        rw [List.dropWhile_cons_of_pos hblank, hnewlines.skipNewlines_append]
        exact ih hlines.2 hmore
      · have htrim : Bytes.trim line ≠ [] := fun hempty => hblank (List.isEmpty_iff.mpr hempty)
        obtain ⟨before, rfl, hscan, -⟩ := tokenize_line hfirst
        have hstart := nextIs_newline_of_line hlines.1 htrim hscan ([Token.lineEnd] ++ more)
        rw [List.dropWhile_cons_of_neg hblank, List.append_assoc, Read.skipNewlines_eq_self hstart,
          ← List.append_assoc]
        exact h

/-- A session on the lines of a program shows the script text of the program and no error. The lines of a
session that shows no error and waits for nothing are a program from the first one on that is not blank,
and its script text is what the session showed. -/
theorem session_agrees_with_translate (history lines : List Bytes)
    (hlines : ∀ line ∈ lines, Ascii.newline ∉ line) :
    (∀ js, translate (sourceOf lines) = .ok js → (run history [] lines).Shows js) ∧
    ∀ js, (run history [] lines).Shows js →
      translate (sourceOf (lines.dropWhile Bytes.isBlank)) = .ok js := by
  constructor
  · intro js htranslate
    obtain ⟨tokens, p, htokens, hp, rfl⟩ := translate_eq_ok_iff.mp htranslate
    refine shows_of_parse hlines (Or.inl rfl) htokens ?_
    rw [Read.skipNewlines_eq_self (Read.parse_sound hp).nextIs_newline]
    exact hp
  · intro js hshows
    obtain ⟨tokens, p, htokens, hp, rfl⟩ := parse_of_shows hshows
    exact translate_eq_ok_iff.mpr ⟨_, p, tokenize_dropWhile_isBlank hlines htokens, hp, rfl⟩

/-- A function over three lines, a blank line and a call. -/
theorem session_function_and_call :
    (∀ line ∈ [text "def f(x)", text "  x", text "end", text " ", text "f(1)"], Ascii.newline ∉ line) ∧
    (run [] [] [text "def f(x)", text "  x", text "end", text " ", text "f(1)"]).Shows
      (text "function f(x) \x7b\nreturn x;\n\x7d\nf(1);\n") := by
  have hlines : ∀ line ∈ [text "def f(x)", text "  x", text "end", text " ", text "f(1)"],
      Ascii.newline ∉ line := by decide
  refine ⟨hlines, (session_agrees_with_translate [] _ hlines).1 _ ?_⟩
  exact eq_ok_of_toOption (by decide +kernel)

end Repl

end Scriptlet
