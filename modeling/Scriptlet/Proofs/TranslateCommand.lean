import Scriptlet.Command.Basic
import Scriptlet.Proofs.Concatenation
import Scriptlet.Proofs.FileWrites

/-!
The command `translate` does all or nothing, as far as what it writes to lets it. What it is to put out is settled
by its arguments, the source file and the formatting tool before anything is written; then the text goes to one
place. If the command ends with status zero, that place took the text and nothing else has changed. If it ends
with another status, standard output is empty and the files are as they were, unless the place was opened and the
writing broke off: then there is a front of the text, and nothing else has changed either.

Two things are to be known about the place. It may be a device, which keeps no text and may be standard output
again. And if it is standard output because no file is named, the status is zero even where only a front of the
text was taken.
-/

namespace Scriptlet

namespace Command

/-! ### The text -/

/-- The text to put out for script text: the script text itself, or if it is to be formatted, what the tool
left of it when it ended well, without the blanks around it and with a newline behind it. -/
inductive Finished (world : World) (js : Bytes) : Bool → Bytes → Prop where
  | plain : Finished world js false js
  | formatted {tool : Tool} {content : Bytes} (htool : world.formatter = some tool)
      (herror : (tool.run Formatter.standard.args (text ".js") js).error = none)
      (hfile : (tool.run Formatter.standard.args (text ".js") js).file = some content) :
      Finished world js true (Bytes.trim content ++ [Ascii.newline])

theorem start_formatter (files : FileTree) (tool : Tool) (js : Bytes) :
    Tool.start files (some tool) Formatter.standard.command false Formatter.standard.args (text ".js") js =
      tool.run Formatter.standard.args (text ".js") js := rfl

theorem format_eq_ok_iff (files : FileTree) {tool : Option Tool} {js out : Bytes} :
    Formatter.standard.format files tool false js = .ok out ↔
      ∃ t content, tool = some t ∧ (t.run Formatter.standard.args (text ".js") js).error = none ∧
        (t.run Formatter.standard.args (text ".js") js).file = some content ∧ Bytes.trim content = out := by
  cases tool with
  | none =>
      have hunknown : ∃ e, Formatter.standard.format files none false js = .error e := ⟨_, rfl⟩
      obtain ⟨e, he⟩ := hunknown
      simp [he]
  | some t =>
      simp only [Formatter.format, start_formatter]
      constructor
      · intro h
        split at h
        case h_1 => cases h
        case h_2 content herror hfile => exact ⟨t, content, rfl, herror, hfile, Except.ok.inj h⟩
        case h_3 => cases h
      · rintro ⟨_, content, ⟨⟩, herror, hfile, rfl⟩
        rw [herror, hfile]

theorem finish_eq_ok_iff {world : World} {format : Bool} {js out : Bytes} :
    finish world format js = .ok out ↔ Finished world js format out := by
  cases format with
  | false =>
      constructor
      · rintro ⟨⟩
        exact .plain
      · rintro ⟨⟩
        rfl
  | true =>
      constructor
      · intro h
        obtain ⟨formatted, hformat, rfl⟩ := exists_of_map_eq_ok h
        obtain ⟨tool, content, htool, herror, hfile, rfl⟩ := (format_eq_ok_iff _).mp hformat
        exact .formatted htool herror hfile
      · rintro (_ | ⟨htool, herror, hfile⟩)
        have hformat := (format_eq_ok_iff world.files).mpr ⟨_, _, htool, herror, hfile, rfl⟩
        rw [finish, if_pos rfl, hformat]
        rfl

/-- The arguments name one source file that translates, and the text is to be put out for it where the path
text says. -/
def Produces (world : World) (args : List Bytes) (target out : Bytes) : Prop :=
  ∃ flags file source js, Flags.parse translateFlags args = .ok (flags, [file]) ∧
    world.files.read file = .ok source ∧ translate source = .ok js ∧
    Finished world js (Flags.isOn flags (text "format")) out ∧ Flags.valueOf flags (text "o") = target

theorem Produces.unique {world : World} {args : List Bytes} {target out target' out' : Bytes}
    (h : Produces world args target out) (h' : Produces world args target' out') :
    target = target' ∧ out = out' := by
  obtain ⟨flags, file, source, js, hflags, hsource, hjs, hout, rfl⟩ := h
  obtain ⟨flags', file', source', js', hflags', hsource', hjs', hout', rfl⟩ := h'
  cases hflags.symm.trans hflags'
  cases hsource.symm.trans hsource'
  cases hjs.symm.trans hjs'
  have hsame := (finish_eq_ok_iff.mpr hout).symm.trans (finish_eq_ok_iff.mpr hout')
  exact ⟨rfl, Except.ok.inj hsame⟩

end Command

end Scriptlet
