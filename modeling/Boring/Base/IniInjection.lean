import Boring.Base.IniRoundTrip

/- Two runs of save and load, with and without one more call of `set`: what text of the
   call reaches other settings. CIniFile escapes nothing. -/
namespace IniInjection
open StringUtil Bindings IniFile IniBindings IniRoundTrip

section Reloading

variable (host : Host) (files : Files)

def reload (ini : CIniFile) : Except Fault (Int × CIniFile) :=
  (CIniFile.new ini.strFileName).load host (ini.write Stdio.reliable files).2.1

/-- The call changes, adds or loses no other setting of the store that is loaded. -/
def OnlyAt (ini : CIniFile) (sect key value : Str) : Prop :=
  ∃ before after, reload host files ini = .ok (0, before) ∧
    reload host files (ini.set sect key value) = .ok (0, after) ∧
    ∀ p, p ≠ (sect, key) → bindings after.mSection p = bindings before.mSection p

end Reloading

theorem reload_seen (host : Host) (files : Files) {ini : CIniFile} (texts : Texts ini.mSection) :
    ∃ loaded, reload host files ini = .ok (0, loaded) ∧
      ∀ p, bindings loaded.mSection p = (bindings ini.mSection p).bind (readBack p.2) := by
  obtain ⟨mSection, read, same⟩ := @read_seen host _ texts
  refine ⟨{ CIniFile.new ini.strFileName with mSection }, ?_, ?_⟩
  · have content : (ini.write Stdio.reliable files).2.1 ini.strFileName =
        some (written ini.mSection).flatten := by
      simp [CIniFile.write, Stdio.reliable]
    simp only [reload, CIniFile.load, CIniFile.new, content, read, bind, Except.bind]
  · intro p
    rw [same, seen_bindings]

/-- A call whose section fits a header line, and whose key and value fit a line of one
    setting or a comment, reaches no other setting of a representable store. -/
theorem set_contained (host : Host) (files : Files) {ini : CIniFile} {sect key value : Str}
    (sound : Sound ini.mSection)
    (short : ∀ line ∈ written ini.mSection, line.length ≤ BUFF_LEN - 1)
    (header : HeaderText sect) (text : SettingText key value) :
    OnlyAt host files ini sect key value := by
  have texts := sound_texts sound short
  have textsAfter : Texts (ini.set sect key value).mSection := by
    rw [CIniFile.set, if_pos ⟨header.nonempty, text.nonempty⟩]
    exact everywhere_setIn texts header text.nonempty text
  obtain ⟨before, read, seenBefore⟩ := reload_seen host files texts
  obtain ⟨after, readAfter, seenAfter⟩ := reload_seen host files textsAfter
  refine ⟨before, after, read, readAfter, ?_⟩
  intro p other
  have kept := perform_bindings ini (.set sect key value)
  unfold perform at kept
  rw [seenBefore, seenAfter, kept, replay_others]
  intro c member same
  rw [change, if_pos ⟨header.nonempty, text.nonempty⟩] at member
  obtain rfl := List.mem_singleton.mp member
  exact other same.symm

/-- A value with the separator in it is cut there, which concerns its own key only: the other
    setting of the section stays. -/
theorem address_contained :
    OnlyAt ⟨32, by decide⟩ (fun _ => none) (run [ch 'f'] savedHistory) [ch 'n'] [ch 'a']
      [ch 'h', ch '=', ch '1'] := by
  have sound := sound_run [ch 'f'] savedHistory_representable
  exact set_contained _ _ sound (by decide) ⟨by decide, by decide, by decide, by decide,
    by decide⟩ ⟨by decide, by decide, by decide, by decide, by decide, by decide, by decide,
    .inr ⟨ch 'h', by decide, by decide⟩, by decide⟩

def boundTo (p : Str × Str) : Except Fault (Int × CIniFile) → Option Str
  | .ok (_, loaded) => bindings loaded.mSection p
  | .error _ => none

/-- The second line of a value is read as a setting of its own. -/
theorem newline_adds_setting :
    ¬ ∀ (host : Host) (files : Files) (ini : CIniFile) (sect key value : Str),
      Sound ini.mSection → (∀ line ∈ written ini.mSection, line.length ≤ BUFF_LEN - 1) →
      sect ≠ [] → key ≠ [] → OnlyAt host files ini sect key value := by
  intro contained
  have sound : Sound (CIniFile.new [ch 'f']).mSection := everywhere_empty
  obtain ⟨before, after, read, readAfter, only⟩ :=
    contained ⟨32, by decide⟩ (fun _ => none) (CIniFile.new [ch 'f']) [ch 'n'] [ch 'p']
      [ch '1', ch '\n', ch 'q', ch '=', ch '2'] sound (by decide) (by decide) (by decide)
  have none : boundTo ([ch 'n'], [ch 'q']) (.ok (0, before)) = none := by
    rw [← read]
    rfl
  have added : boundTo ([ch 'n'], [ch 'q']) (.ok (0, after)) = some [ch '2'] := by
    rw [← readAfter]
    rfl
  have same := only ([ch 'n'], [ch 'q']) (by decide)
  rw [boundTo] at none added
  rw [none, added] at same
  cases same

end IniInjection
