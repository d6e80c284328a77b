import Boring.Base.IniMerge
import Boring.Library.StepRuns

/- One CIniFile over a run of init, set, del and save: when m_bIsChange is false, whether
   the store in memory is the one in the file it names. -/
namespace DirtyFlag
open StringUtil Bindings StepRuns IniFile IniBindings IniRoundTrip IniMerge

/-- `ready` says that some init or save has succeeded. -/
structure Session where
  ini : CIniFile
  files : Files
  ready : Bool

inductive FileCall where
  | init
  | initNamed (fileName : Str)
  | set (sect key value : Str)
  | del (sect key : Str)
  | save (opens : Bool)

def NameText (sect : Str) : Prop :=
  SectionName sect ∧ (headerLine sect).length ≤ BUFF_LEN - 1

def EntryText (key value : Str) : Prop :=
  Setting key value ∧ (settingLine (key, value)).length ≤ BUFF_LEN - 1

def FileCall.Fits : FileCall → Prop
  | .set sect key value => sect = [] ∨ key = [] ∨ NameText sect ∧ EntryText key value
  | _ => True

def Storable (mSection : Map Config) : Prop := Everywhere NameText EntryText mSection

section Sessions

variable (host : Host)

def Session.load (s : Session) : Except Fault (Int × CIniFile) → Option Session
  | .ok (result, ini) => some { s with ini, ready := s.ready || result = 0 }
  | .error _ => none

/-- A save either cannot open its file, or goes through. -/
def Session.save (s : Session) (opens : Bool) : Session :=
  let (result, files, ini) := s.ini.save { Stdio.reliable with opens } s.files
  ⟨ini, files, s.ready || result = 0⟩

def step (s : Session) : FileCall → Option Session
  | .init => s.load (s.ini.init host s.files)
  | .initNamed fileName => s.load (s.ini.initNamed host s.files fileName)
  | .set sect key value => some { s with ini := s.ini.set sect key value }
  | .del sect key => some { s with ini := s.ini.del sect key }
  | .save opens => some (s.save opens)

def Runs : StepRel Session FileCall := fun s call t => call.Fits ∧ step host s call = some t

def start (fileName : Str) (files : Files) : Session := ⟨CIniFile.new fileName, files, false⟩

/-- The bindings that a file holds, as a fresh object loads them; a missing file holds none. -/
def fileBindings (files : Files) (fileName : Str) : Lookup (Str × Str) Str :=
  match (CIniFile.new fileName).load host files with
  | .ok (_, loaded) => bindings loaded.mSection
  | .error _ => unbound

def Readable (content : Str) : Prop :=
  ∃ mSection, loadLoop host (content.length + 1) content false [] ∅ = .ok mSection ∧
    Storable mSection

def AllReadable (files : Files) : Prop :=
  ∀ fileName content, files fileName = some content → Readable host content

/-- What skipping the save in the destructor relies on. -/
def InStep (s : Session) : Prop :=
  s.ready = true → s.ini.bIsChange = false →
    bindings s.ini.mSection = fileBindings host s.files s.ini.strFileName

def Covered (s : Session) (fileName : Str) : Prop :=
  s.ini.bIsChange = true ∨ ∀ p, fileBindings host s.files fileName p = none →
    bindings s.ini.mSection p = none

def Allowed (s : Session) : FileCall → Prop
  | .init => Covered host s s.ini.strFileName
  | .initNamed fileName => Covered host s fileName
  | _ => True

structure Inv (s : Session) : Prop where
  storable : Storable s.ini.mSection
  readable : AllReadable host s.files
  unready : s.ready = false → s.ini.bIsChange = false → bindings s.ini.mSection = unbound
  inStep : InStep host s

end Sessions

variable {host : Host}

theorem storable_sound {mSection : Map Config} (storable : Storable mSection) :
    Sound mSection := by
  intro sect conf held
  obtain ⟨mainKey, name, entries⟩ := storable sect conf held
  exact ⟨mainKey, name.1, fun key value inside => (entries key value inside).1⟩

theorem storable_texts {mSection : Map Config} (storable : Storable mSection) :
    Texts mSection := by
  intro sect conf held
  obtain ⟨mainKey, name, entries⟩ := storable sect conf held
  refine ⟨mainKey, name_text name.1 name.2, ?_⟩
  intro key value inside
  exact setting_text (entries key value inside).1 (entries key value inside).2

theorem written_holds {mSection : Map Config} (storable : Storable mSection) :
    ∃ loaded, loadLoop host ((written mSection).flatten.length + 1) (written mSection).flatten
        false [] ∅ = .ok loaded ∧ Storable loaded ∧ bindings loaded = bindings mSection := by
  have texts := storable_texts storable
  have same := (stored_seen texts).trans (sound_seen (storable_sound storable))
  refine ⟨_, read_stored texts, ?_, same⟩
  obtain ⟨_, names, entries⟩ := everywhere_iff.mp storable
  refine everywhere_iff.mpr ⟨?_, ?_, ?_⟩
  · rw [storedAll_setAll]
    exact named_setAll _ named_empty
  · intro sect held
    rw [storedAll_setAll, setAll_sections] at held
    rcases held with ⟨e, member, rfl⟩ | ⟨conf, none⟩
    · obtain ⟨x, inStore, inside⟩ := List.mem_flatMap.mp member
      obtain ⟨_, _, rfl⟩ := List.mem_map.mp inside
      rw [seen_toList] at inStore
      obtain ⟨old, stored, rfl⟩ := List.mem_map.mp inStore
      have held := Std.TreeMap.mem_toList_iff_getElem?_eq_some.mp stored
      have mainKey := (storable old.1 old.2 held).1
      exact names _ ⟨old.2, by rw [← held]; exact congrArg _ mainKey⟩
    · simp at none
  · intro p value bound
    rw [same] at bound
    exact entries p value bound

/-- What a load of a named file does to the store: nothing when the file is missing, else a
    merge with what the file holds. -/
theorem load_merges {files : Files} (readable : AllReadable host files) {ini : CIniFile}
    (storable : Storable ini.mSection) :
    ∃ result loaded, ini.load host files = .ok (result, { ini with mSection := loaded }) ∧
      (result = 0 ∨ fileBindings host files ini.strFileName = unbound) ∧ Storable loaded ∧
      ∀ p, bindings loaded p =
        (fileBindings host files ini.strFileName p).or (bindings ini.mSection p) := by
  rw [CIniFile.load, fileBindings, CIniFile.load, CIniFile.new]
  cases content : files ini.strFileName with
  | none =>
    refine ⟨-1, ini.mSection, rfl, .inr empty_unbound, storable, ?_⟩
    intro p
    simp only [empty_unbound]
    rfl
  | some text =>
    obtain ⟨fresh, read, storableFresh⟩ := readable _ text content
    rcases loadLoop_steady host (text.length + 1) text false [] with
      ⟨fault, fails⟩ | ⟨entries, loop⟩
    · rw [fails] at read
      cases read
    · rw [loop] at read
      obtain rfl := Except.ok.inj read
      refine ⟨0, setAll ini.mSection entries, ?_, .inl rfl,
        everywhere_setAll storable storableFresh, fun p => ?_⟩
      · simp only [loop, bind, Except.bind]
      · simp only [loop, bind, Except.bind]
        exact setAll_merges ini.mSection entries p

structure Loaded (host : Host) (s : Session) (fileName : Str) (t : Session) : Prop where
  files : t.files = s.files
  named : t.ini.strFileName = fileName
  flag : t.ini.bIsChange = s.ini.bIsChange
  storable : Storable t.ini.mSection
  unready : t.ready = false → s.ready = false ∧ fileBindings host s.files fileName = unbound
  ready : s.ready = true → t.ready = true
  merged : ∀ p, bindings t.ini.mSection p =
    (fileBindings host s.files fileName p).or (bindings s.ini.mSection p)

theorem load_session {s t : Session} {fileName : Str} (inv : Inv host s)
    (run : s.load ({ s.ini with strFileName := fileName }.load host s.files) = some t) :
    Loaded host s fileName t := by
  obtain ⟨result, loaded, read, found, storable, merged⟩ :=
    @load_merges host s.files inv.readable { s.ini with strFileName := fileName } inv.storable
  rw [read, Session.load] at run
  obtain rfl := Option.some.inj run
  refine ⟨rfl, rfl, rfl, storable, ?_, ?_, merged⟩
  · intro unready
    obtain ⟨before, failed⟩ := Bool.or_eq_false_iff.mp unready
    exact ⟨before, found.resolve_left (of_decide_eq_false failed)⟩
  · intro ready
    simp only [ready, Bool.true_or]

theorem covered_load {s t : Session} {fileName : Str} (inv : Inv host s)
    (loaded : Loaded host s fileName t) (covered : Covered host s fileName) : Inv host t := by
  refine ⟨loaded.storable, loaded.files ▸ inv.readable, fun unready clean => ?_,
    fun _ clean => ?_⟩
  · obtain ⟨before, missing⟩ := loaded.unready unready
    funext p
    rw [loaded.merged, missing, inv.unready before (loaded.flag ▸ clean)]
    rfl
  · funext p
    rw [loaded.merged, loaded.files, loaded.named]
    have kept := covered.resolve_left (by simp [← loaded.flag, clean]) p
    cases held : fileBindings host s.files fileName p with
    | none => exact kept held
    | some value => rfl

theorem uncovered_load {s t : Session} {fileName : Str} (inv : Inv host s)
    (loaded : Loaded host s fileName t) (uncovered : ¬ Covered host s fileName) :
    ¬ InStep host t := by
  intro inStep
  obtain ⟨changed, lost⟩ := not_or.mp uncovered
  have clean : s.ini.bIsChange = false := Bool.not_eq_true _ ▸ changed
  have ready : t.ready = true := by
    by_contra unready
    obtain ⟨before, _⟩ := loaded.unready (Bool.not_eq_true _ ▸ unready)
    exact lost fun p _ => congrFun (inv.unready before clean) p
  have same := inStep ready (loaded.flag.trans clean)
  apply lost
  intro p missing
  have merged := loaded.merged p
  rw [same, loaded.files, loaded.named, missing] at merged
  exact merged.symm

theorem changed_inv {s : Session} (storable : Storable s.ini.mSection)
    (readable : AllReadable host s.files) (changed : s.ini.bIsChange = true) : Inv host s := by
  have dirty : s.ini.bIsChange ≠ false := by simp [changed]
  exact ⟨storable, readable, fun _ clean => absurd clean dirty, fun _ clean => absurd clean dirty⟩

theorem set_keeps {s : Session} {sect key value : Str} (inv : Inv host s)
    (fits : (FileCall.set sect key value).Fits) :
    Inv host { s with ini := s.ini.set sect key value } := by
  by_cases accepted : sect ≠ [] ∧ key ≠ []
  · rw [CIniFile.set, if_pos accepted]
    obtain ⟨name, entry⟩ := (fits.resolve_left accepted.1).resolve_left accepted.2
    exact changed_inv (everywhere_setIn inv.storable name accepted.2 entry) inv.readable rfl
  · rw [CIniFile.set, if_neg accepted]
    exact inv

theorem del_keeps {s : Session} (sect key : Str) (inv : Inv host s) :
    Inv host { s with ini := s.ini.del sect key } := by
  have storable := everywhere_del sect key inv.storable
  unfold CIniFile.del at storable ⊢
  cases held : s.ini.mSection[sect]? with
  | none => exact inv
  | some conf =>
    rw [held] at storable
    exact changed_inv storable inv.readable rfl

theorem save_keeps {s : Session} (opens : Bool) (inv : Inv host s) :
    Inv host (s.save opens) := by
  cases opens with
  | false =>
    have same : s.save false = s := by
      simp [Session.save, CIniFile.save, CIniFile.write]
    rw [same]
    exact inv
  | true =>
    obtain ⟨loaded, read, storable, same⟩ := @written_holds host _ inv.storable
    have saved : s.save true = ⟨{ s.ini with bIsChange := false },
        Function.update s.files s.ini.strFileName (some (written s.ini.mSection).flatten),
        true⟩ := by
      simp [Session.save, CIniFile.save, CIniFile.write, Stdio.reliable]
    rw [saved]
    refine ⟨inv.storable, ?_, ?_, ?_⟩
    · intro fileName content held
      simp only at held
      by_cases own : fileName = s.ini.strFileName
      · rw [own, Function.update_self] at held
        obtain rfl := Option.some.inj held
        exact ⟨loaded, read, storable⟩
      · rw [Function.update_of_ne own] at held
        exact inv.readable fileName content held
    · intro unready
      simp at unready
    · intro _ _
      simp only [fileBindings, CIniFile.load, CIniFile.new, Function.update_self, read, bind,
        Except.bind, same]

theorem allowed_keeps (s : Session) (call : FileCall) (t : Session) (allowed : Allowed host s call)
    (run : Runs host s call t) (inv : Inv host s) : Inv host t := by
  obtain ⟨fits, taken⟩ := run
  cases call with
  | init => exact covered_load inv (load_session inv taken) allowed
  | initNamed fileName => exact covered_load inv (load_session inv taken) allowed
  | set sect key value =>
    obtain rfl := Option.some.inj taken
    exact set_keeps inv fits
  | del sect key =>
    obtain rfl := Option.some.inj taken
    exact del_keeps sect key inv
  | save opens =>
    obtain rfl := Option.some.inj taken
    exact save_keeps opens inv

theorem refused_breaks (s : Session) (call : FileCall) (t : Session)
    (refused : ¬ Allowed host s call) (run : Runs host s call t) (inv : Inv host s) :
    ¬ InStep host t := by
  obtain ⟨_, taken⟩ := run
  cases call with
  | init => exact uncovered_load inv (load_session inv taken) refused
  | initNamed fileName => exact uncovered_load inv (load_session inv taken) refused
  | set sect key value => exact absurd trivial refused
  | del sect key => exact absurd trivial refused
  | save opens => exact absurd trivial refused

theorem step_returns {s : Session} (inv : Inv host s) (call : FileCall) :
    ∃ t, step host s call = some t := by
  have loads (fileName : Str) :
      ∃ t, s.load ({ s.ini with strFileName := fileName }.load host s.files) = some t := by
    obtain ⟨result, loaded, read, _⟩ :=
      @load_merges host s.files inv.readable { s.ini with strFileName := fileName } inv.storable
    rw [read]
    exact ⟨_, rfl⟩
  cases call with
  | init => exact loads s.ini.strFileName
  | initNamed fileName => exact loads fileName
  | set sect key value => exact ⟨_, rfl⟩
  | del sect key => exact ⟨_, rfl⟩
  | save opens => exact ⟨_, rfl⟩

theorem start_inv {files : Files} (readable : AllReadable host files) (fileName : Str) :
    Inv host (start fileName files) := by
  refine ⟨everywhere_empty, readable, fun _ _ => empty_unbound, fun ready => ?_⟩
  simp [start] at ready

/-- Whenever m_bIsChange is false, memory and file agree, exactly when every load of the run
    is made with the flag set or finds every key of the store in the file it loads. -/
theorem dirty_flag_iff (host : Host) (fileName : Str) {files : Files}
    (readable : AllReadable host files) {path : List (FileCall × Session)}
    (valid : Path (Runs host) (start fileName files) path) :
    (∀ s ∈ visited (start fileName files) path, InStep host s) ↔
      StepsMeet (Allowed host) (start fileName files) path :=
  visited_good_iff (fun _ inv => inv.inStep) allowed_keeps refused_breaks
    (start_inv readable fileName) valid

def portSet : FileCall := .set [ch 'n'] [ch 'p'] [ch '1']

theorem portSet_fits : portSet.Fits :=
  .inr (.inr ⟨⟨⟨by decide, by decide, by decide⟩, by decide⟩, ⟨⟨by decide, by decide, by decide,
    by decide, by decide, by decide, by decide, by decide, by decide, by decide⟩, by decide⟩⟩)

def otherStore : Map Config := setIn ∅ [ch 'm'] [ch 'q'] [ch '2']

def otherFile : Files := fun fileName =>
  if fileName = [ch 'g'] then some (written otherStore).flatten else none

theorem otherFile_readable (host : Host) : AllReadable host otherFile := by
  have storable : Storable otherStore :=
    everywhere_setIn everywhere_empty ⟨⟨by decide, by decide, by decide⟩, by decide⟩ (by decide)
      ⟨⟨by decide, by decide, by decide, by decide, by decide, by decide, by decide, by decide,
        by decide, by decide⟩, by decide⟩
  intro fileName content held
  unfold otherFile at held
  split at held
  · obtain rfl := Option.some.inj held
    obtain ⟨loaded, read, storableLoaded, _⟩ := @written_holds host _ storable
    exact ⟨loaded, read, storableLoaded⟩
  · cases held

/-- A file is loaded, a key is set and saved to it, and the key is set again. -/
theorem saved_port_in_step : ∃ a b : Session,
    let path : List (FileCall × Session) :=
      [(.initNamed [ch 'g'], a), (portSet, { a with ini := a.ini.set [ch 'n'] [ch 'p'] [ch '1'] }),
        (.save true, b), (portSet, { b with ini := b.ini.set [ch 'n'] [ch 'p'] [ch '1'] })]
    Path (Runs ⟨32, by decide⟩) (start [ch 'f'] otherFile) path ∧
      ∀ s ∈ visited (start [ch 'f'] otherFile) path, InStep ⟨32, by decide⟩ s := by
  have readable := otherFile_readable ⟨32, by decide⟩
  obtain ⟨a, loaded⟩ := step_returns (start_inv readable [ch 'f']) (.initNamed [ch 'g'])
  have valid : Path (Runs ⟨32, by decide⟩) (start [ch 'f'] otherFile)
      [(.initNamed [ch 'g'], a), (portSet, _), (.save true, _), (portSet, _)] :=
    ⟨⟨trivial, loaded⟩, ⟨portSet_fits, rfl⟩, ⟨trivial, rfl⟩, ⟨portSet_fits, rfl⟩, trivial⟩
  refine ⟨a, _, valid, (dirty_flag_iff _ _ readable valid).mpr ⟨.inr fun p _ => ?_, trivial,
    trivial, trivial, trivial⟩⟩
  exact congrFun empty_unbound p

/-- A store that is saved to one file and then loaded from another holds both, and is not
    marked as changed. -/
theorem second_file_merges :
    ¬ ∀ (host : Host) (fileName : Str) (files : Files) (path : List (FileCall × Session)),
      AllReadable host files → Path (Runs host) (start fileName files) path →
        ∀ s ∈ visited (start fileName files) path, InStep host s := by
  intro every
  have inv := start_inv (otherFile_readable ⟨32, by decide⟩) [ch 'f']
  have saved := save_keeps true (set_keeps inv portSet_fits)
  obtain ⟨t, taken⟩ := step_returns saved (.initNamed [ch 'g'])
  have uncovered : ¬ Covered ⟨32, by decide⟩ (Session.save
      ⟨(CIniFile.new [ch 'f']).set [ch 'n'] [ch 'p'] [ch '1'], otherFile, false⟩ true)
      [ch 'g'] := by
    rintro (changed | covered)
    · cases changed
    · exact nomatch covered ([ch 'n'], [ch 'p']) rfl
  have run : Path (Runs ⟨32, by decide⟩) (start [ch 'f'] otherFile)
      [(portSet, _), (.save true, _), (.initNamed [ch 'g'], t)] :=
    ⟨⟨portSet_fits, rfl⟩, ⟨trivial, rfl⟩, ⟨trivial, taken⟩, trivial⟩
  exact uncovered_load saved (@load_session _ _ _ [ch 'g'] saved taken) uncovered
    (every _ _ _ _ (otherFile_readable _) run t (by simp [visited]))

end DirtyFlag
