import Boring.Base.IniFile

/- Any run of `set` and `del` on a fresh CIniFile against the two-level map with caller
   defaults: the last assignment of a key that no removal follows, else the default. -/
namespace IniBindings
open StringUtil Bindings IniFile

inductive IniCall where
  | set (sect key value : Str)
  | del (sect key : Str)

def perform (ini : CIniFile) : IniCall → CIniFile
  | .set sect key value => ini.set sect key value
  | .del sect key => ini.del sect key

def run (fileName : Str) (calls : List IniCall) : CIniFile :=
  calls.foldl perform (CIniFile.new fileName)

/-- What a call changes in the two-level map; `set` refuses an empty section or key. -/
def change : IniCall → Option (Change (Str × Str) Str)
  | .set sect key value => if sect ≠ [] ∧ key ≠ [] then some (.assign (sect, key) value) else none
  | .del sect key => some (.remove (sect, key))

/-- The specification of `get`. -/
def LastSet (calls : List IniCall) (sect key value : Str) : Prop :=
  sect ≠ [] ∧ key ≠ [] ∧ ∃ before after, calls = before ++ .set sect key value :: after ∧
    (∀ other, .set sect key other ∉ after) ∧ .del sect key ∉ after

def Answer (calls : List IniCall) (sect key defvalue answer : Str) : Prop :=
  LastSet calls sect key answer ∨ (∀ value, ¬ LastSet calls sect key value) ∧ answer = defvalue

def Created (calls : List IniCall) (sect : Str) : Prop :=
  sect ≠ [] ∧ ∃ key value, key ≠ [] ∧ .set sect key value ∈ calls

def About (sect key : Str) (call : IniCall) : Prop :=
  ∃ c, change call = some c ∧ c.key = (sect, key)

theorem run_concat (fileName : Str) (calls : List IniCall) (call : IniCall) :
    run fileName (calls ++ [call]) = perform (run fileName calls) call := by
  rw [run, List.foldl_append]
  rfl

theorem perform_bindings (ini : CIniFile) (call : IniCall) :
    bindings (perform ini call).mSection = replay (bindings ini.mSection) (change call).toList := by
  cases call with
  | set sect key value =>
    by_cases accepted : sect ≠ [] ∧ key ≠ []
    · rw [perform, CIniFile.set, if_pos accepted, change, if_pos accepted]
      exact bindings_setIn ini.mSection sect value accepted.2
    · rw [perform, CIniFile.set, if_neg accepted, change, if_neg accepted]
      rfl
  | del sect key => exact bindings_del ini sect key

theorem run_bindings (fileName : Str) (calls : List IniCall) :
    bindings (run fileName calls).mSection = replay unbound (calls.filterMap change) := by
  induction calls using List.reverseRecOn with
  | nil =>
    funext p
    simp [run, CIniFile.new, bindings, replay, unbound]
  | append_singleton before call ih =>
    rw [run_concat, perform_bindings, ih, List.filterMap_append, replay_append,
      List.filterMap_cons, List.filterMap_nil]
    cases change call <;> rfl

theorem change_set_iff {call : IniCall} {sect key value : Str} :
    change call = some (.assign (sect, key) value) ↔
      sect ≠ [] ∧ key ≠ [] ∧ call = .set sect key value := by
  cases call with
  | set s k v =>
    simp only [change]
    split <;> grind
  | del s k => simp [change]

theorem about_iff {call : IniCall} {sect key : Str} (nonempty : sect ≠ [] ∧ key ≠ []) :
    About sect key call ↔ call = .del sect key ∨ ∃ value, call = .set sect key value := by
  constructor
  · rintro ⟨c | c, changes, rfl⟩
    · exact .inr ⟨_, (change_set_iff.mp changes).2.2⟩
    · cases call with
      | set s k v => simp [change] at changes
      | del s k => exact .inl (by simpa [change, Change.key] using changes)
  · rintro (rfl | ⟨value, rfl⟩)
    · exact ⟨_, rfl, rfl⟩
    · exact ⟨_, change_set_iff.mpr ⟨nonempty.1, nonempty.2, rfl⟩, rfl⟩

theorem bindings_iff_lastSet (fileName : Str) (calls : List IniCall) (sect key value : Str) :
    bindings (run fileName calls).mSection (sect, key) = some value ↔
      LastSet calls sect key value := by
  rw [run_bindings, replay_unbound_some]
  constructor
  · rintro ⟨before, after, split, others⟩
    obtain ⟨front, rest, rfl, _, tail⟩ := List.filterMap_eq_append_iff.mp split
    obtain ⟨skipped, call, back, rfl, _, hit, rfl⟩ := List.filterMap_eq_cons_iff.mp tail
    obtain ⟨nonemptySect, nonemptyKey, rfl⟩ := change_set_iff.mp hit
    have unrelated (call : IniCall) (member : call ∈ back) : ¬ About sect key call := by
      rintro ⟨c, changes, same⟩
      exact others c (List.mem_filterMap.mpr ⟨call, member, changes⟩) same
    have aboutKey (call : IniCall) := @about_iff call sect key ⟨nonemptySect, nonemptyKey⟩
    refine ⟨nonemptySect, nonemptyKey, front ++ skipped, back, by simp, ?_, ?_⟩
    · intro other member
      exact unrelated _ member ((aboutKey _).mpr (.inr ⟨other, rfl⟩))
    · intro member
      exact unrelated _ member ((aboutKey _).mpr (.inl rfl))
  · rintro ⟨nonemptySect, nonemptyKey, before, after, rfl, noSet, noDel⟩
    have hit : change (.set sect key value) = some (.assign (sect, key) value) :=
      change_set_iff.mpr ⟨nonemptySect, nonemptyKey, rfl⟩
    refine ⟨before.filterMap change, after.filterMap change, by simp [hit], ?_⟩
    intro c member same
    obtain ⟨call, inside, changes⟩ := List.mem_filterMap.mp member
    rcases (about_iff ⟨nonemptySect, nonemptyKey⟩).mp ⟨c, changes, same⟩ with rfl | ⟨other, rfl⟩
    · exact noDel inside
    · exact noSet other inside

def HasSection (ini : CIniFile) (sect : Str) : Prop := ∃ conf, ini.mSection[sect]? = some conf

theorem hasSection_insert (mSection : Map Config) (sect other : Str) (conf : Config) :
    (∃ c, (mSection.insert sect conf)[other]? = some c) ↔
      other = sect ∨ ∃ c, mSection[other]? = some c := by
  rw [lookup_insert]
  by_cases same : other = sect
  · simp [same]
  · simp [same]

theorem perform_sections (ini : CIniFile) (call : IniCall) (sect : Str) :
    HasSection (perform ini call) sect ↔ HasSection ini sect ∨ Created [call] sect := by
  cases call with
  | set s key value =>
    by_cases accepted : s ≠ [] ∧ key ≠ []
    · have creates : Created [.set s key value] sect ↔ sect = s := by
        constructor
        · rintro ⟨_, k, v, _, member⟩
          exact (IniCall.set.inj (List.mem_singleton.mp member)).1
        · rintro rfl
          exact ⟨accepted.1, key, value, accepted.2, List.mem_singleton.mpr rfl⟩
      rw [perform, CIniFile.set, if_pos accepted, HasSection, setIn, hasSection_insert, creates,
        or_comm, HasSection]
    · have none : ¬ Created [.set s key value] sect := by
        rintro ⟨nonempty, k, v, nonemptyKey, member⟩
        obtain ⟨rfl, rfl, _⟩ := IniCall.set.inj (List.mem_singleton.mp member)
        exact accepted ⟨nonempty, nonemptyKey⟩
      rw [perform, CIniFile.set, if_neg accepted, or_iff_left none]
  | del s key =>
    have none : ¬ Created [.del s key] sect := by simp [Created]
    rw [perform, CIniFile.del]
    cases held : ini.mSection[s]? with
    | none => rw [or_iff_left none]
    | some conf =>
      rw [HasSection, hasSection_insert, or_iff_left none]
      exact or_iff_right_of_imp fun same => ⟨conf, same ▸ held⟩

theorem created_append (calls : List IniCall) (call : IniCall) (sect : Str) :
    Created (calls ++ [call]) sect ↔ Created calls sect ∨ Created [call] sect := by
  simp only [Created, List.mem_append, and_or_left, exists_or]

theorem run_sections (fileName : Str) (calls : List IniCall) (sect : Str) :
    HasSection (run fileName calls) sect ↔ Created calls sect := by
  induction calls using List.reverseRecOn with
  | nil => simp [run, CIniFile.new, HasSection, Created]
  | append_singleton before call ih =>
    rw [run_concat, perform_sections, ih, created_append]

/-- What `get` really returns: the empty string for a key missing from a section. -/
theorem get_cases (ini : CIniFile) (sect key defvalue : Str) :
    (∃ value, bindings ini.mSection (sect, key) = some value ∧
      ini.get sect key defvalue = value) ∨
    bindings ini.mSection (sect, key) = none ∧
      (HasSection ini sect ∧ ini.get sect key defvalue = [] ∨
        ¬ HasSection ini sect ∧ ini.get sect key defvalue = defvalue) := by
  cases held : ini.mSection[sect]? with
  | none =>
    right
    exact ⟨by simp [bindings, held],
      .inr ⟨by simp [HasSection, held], by simp [CIniFile.get, held]⟩⟩
  | some conf =>
    cases bound : conf.mconf[key]? with
    | none =>
      right
      exact ⟨by simp [bindings, held, bound],
        .inl ⟨⟨conf, held⟩, by simp [CIniFile.get, held, Config.get, bound]⟩⟩
    | some value =>
      left
      exact ⟨value, by simp [bindings, held, bound],
        by simp [CIniFile.get, held, Config.get, bound]⟩

theorem unbound_iff (fileName : Str) (calls : List IniCall) (sect key : Str) :
    bindings (run fileName calls).mSection (sect, key) = none ↔
      ∀ value, ¬ LastSet calls sect key value := by
  simp only [← bindings_iff_lastSet fileName, Option.eq_none_iff_forall_ne_some]

theorem answer_iff (fileName : Str) (calls : List IniCall) (sect key defvalue : Str) :
    Answer calls sect key defvalue ((run fileName calls).get sect key defvalue) ↔
      (∃ value, LastSet calls sect key value) ∨ ¬ Created calls sect ∨ defvalue = [] := by
  rw [← run_sections fileName]
  rcases get_cases (run fileName calls) sect key defvalue with
    ⟨value, bound, got⟩ | ⟨unbound, ⟨made, got⟩ | ⟨missing, got⟩⟩
  · rw [got]
    have last := (bindings_iff_lastSet fileName calls sect key value).mp bound
    exact iff_of_true (.inl last) (.inl ⟨value, last⟩)
  · have none := (unbound_iff fileName calls sect key).mp unbound
    rw [got, Answer]
    constructor
    · rintro (last | ⟨_, same⟩)
      · exact absurd last (none [])
      · exact .inr (.inr same.symm)
    · rintro (⟨value, last⟩ | absent | empty)
      · exact absurd last (none value)
      · exact absurd made absent
      · exact .inr ⟨none, empty.symm⟩
  · have none := (unbound_iff fileName calls sect key).mp unbound
    rw [got, Answer]
    exact iff_of_true (.inr ⟨none, rfl⟩) (.inr (.inl missing))

theorem other_call_keeps_iff (fileName : Str) (calls : List IniCall) (sect key defvalue : Str)
    {call : IniCall} (other : ¬ About sect key call) :
    (run fileName (calls ++ [call])).get sect key defvalue =
        (run fileName calls).get sect key defvalue ↔
      (∃ value, LastSet calls sect key value) ∨ Created calls sect ∨ ¬ Created [call] sect ∨
        defvalue = [] := by
  have kept : bindings (run fileName (calls ++ [call])).mSection (sect, key) =
      bindings (run fileName calls).mSection (sect, key) := by
    rw [run_concat, perform_bindings]
    apply replay_others _
    intro c member same
    exact other ⟨c, Option.mem_toList.mp member, same⟩
  have sections := perform_sections (run fileName calls) call sect
  rw [← run_concat] at sections
  rw [← run_sections fileName calls]
  have before := get_cases (run fileName calls) sect key defvalue
  have after := get_cases (run fileName (calls ++ [call])) sect key defvalue
  rw [kept, sections] at after
  rcases before with ⟨value, bound, got⟩ | ⟨unbound, ⟨made, got⟩ | ⟨missing, got⟩⟩
  · have last := (bindings_iff_lastSet fileName calls sect key value).mp bound
    rcases after with ⟨later, bound', got'⟩ | ⟨unbound, _⟩
    · rw [got, got']
      exact iff_of_true (Option.some.inj (bound'.symm.trans bound)) (.inl ⟨value, last⟩)
    · rw [bound] at unbound
      cases unbound
  · rcases after with ⟨later, bound, _⟩ | ⟨_, ⟨_, got'⟩ | ⟨missing, _⟩⟩
    · rw [unbound] at bound
      cases bound
    · rw [got, got']
      exact iff_of_true rfl (.inr (.inl made))
    · exact absurd (.inl made) missing
  · have none := (unbound_iff fileName calls sect key).mp unbound
    rcases after with ⟨later, bound, _⟩ | ⟨_, ⟨made, got'⟩ | ⟨missing', got'⟩⟩
    · rw [unbound] at bound
      cases bound
    · have creates := made.resolve_left missing
      rw [got, got']
      constructor
      · intro same
        exact .inr (.inr (.inr same.symm))
      · rintro (⟨value, last⟩ | made | keeps | empty)
        · exact absurd last (none value)
        · exact absurd made missing
        · exact absurd creates keeps
        · exact empty.symm
    · rw [got, got']
      exact iff_of_true rfl (.inr (.inr (.inl fun creates => missing' (.inr creates))))

/-- `get` gives the specified answer exactly for a bound key, for a section that no
    accepted `set` made, and for the empty default. A call about another key, or a
    refused one, changes the answer only by making the section of an unbound key. -/
theorem get_refines_map_iff (fileName : Str) (calls : List IniCall) (sect key defvalue : Str) :
    (Answer calls sect key defvalue ((run fileName calls).get sect key defvalue) ↔
      (∃ value, LastSet calls sect key value) ∨ ¬ Created calls sect ∨ defvalue = []) ∧
    ∀ call, ¬ About sect key call →
      ((run fileName (calls ++ [call])).get sect key defvalue =
          (run fileName calls).get sect key defvalue ↔
        (∃ value, LastSet calls sect key value) ∨ Created calls sect ∨ ¬ Created [call] sect ∨
          defvalue = []) :=
  ⟨answer_iff fileName calls sect key defvalue,
    fun _ other => other_call_keeps_iff fileName calls sect key defvalue other⟩

def onePort : List IniCall := [.set [ch 'n'] [ch 'p'] [ch '1']]

/-- Key h of section n was never set, and its default is lost once p is set there. -/
theorem missing_key_loses_default :
    (run [] onePort).get [ch 'n'] [ch 'h'] [ch 'd'] = [] ∧
    ¬ Answer onePort [ch 'n'] [ch 'h'] [ch 'd']
      ((run [] onePort).get [ch 'n'] [ch 'h'] [ch 'd']) := by
  have got : (run [] onePort).get [ch 'n'] [ch 'h'] [ch 'd'] = [] := rfl
  refine ⟨got, ?_⟩
  rw [got]
  rintro (⟨_, _, before, after, split, _⟩ | ⟨_, same⟩)
  · have member : IniCall.set [ch 'n'] [ch 'h'] [] ∈ onePort := by simp [split]
    exact absurd (List.mem_singleton.mp member) (by simp [ch])
  · exact absurd same (by simp)

end IniBindings
