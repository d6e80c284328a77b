import Boring.Base.IniBindings

/- What CIniFile::write prints for a store of representable strings is read back by
   CIniFile::load as the same two-level map. The state of the reader between two lines
   is its current section and the store read so far. -/
namespace IniRoundTrip
open StringUtil Bindings IniFile IniBindings ListParts

def Plain (s : Str) : Prop := ∀ c ∈ s, 32 ≤ c

instance (s : Str) : Decidable (Plain s) := List.decidableBAll (32 ≤ ·) s

def Unblanked (s : Str) : Prop :=
  (∀ c, s.head? = some c → c ∉ blanks) ∧ ∀ c, s.getLast? = some c → c ∉ blanks

instance (s : Str) : Decidable (Unblanked s) :=
  @instDecidableAnd _ _ (Option.decidableForallMem s.head?) (Option.decidableForallMem s.getLast?)

structure SectionName (sect : Str) : Prop where
  nonempty : sect ≠ []
  noBracket : ch ']' ∉ sect
  plain : Plain sect

structure Setting (key value : Str) : Prop where
  keyNonempty : key ≠ []
  keyEquals : ch '=' ∉ key
  notComment : key.head? ≠ some (ch '#')
  notHeader : key.head? ≠ some (ch '[')
  keyUnblanked : Unblanked key
  keyPlain : Plain key
  valueNonempty : value ≠ []
  valueEquals : ch '=' ∉ value
  valueUnblanked : Unblanked value
  valuePlain : Plain value

def Representable : IniCall → Prop
  | .set sect key value => SectionName sect ∧ Setting key value
  | .del _ _ => True

def Sound (mSection : Map Config) : Prop :=
  ∀ sect conf, mSection[sect]? = some conf → conf.strMainKey = sect ∧ SectionName sect ∧
    ∀ key value, conf.mconf[key]? = some value → Setting key value

def Everywhere (name : Str → Prop) (entry : Str → Str → Prop) (mSection : Map Config) : Prop :=
  ∀ (sect : Str) (conf : Config), mSection[sect]? = some conf → conf.strMainKey = sect ∧
    name sect ∧ ∀ key value, conf.mconf[key]? = some value → entry key value

section Stores

variable {name : Str → Prop} {entry : Str → Str → Prop}

theorem everywhere_empty : Everywhere name entry (∅ : Map Config) := by
  intro sect conf held
  simp at held

theorem everywhere_insert {mSection : Map Config} {sect : Str} {conf : Config}
    (all : Everywhere name entry mSection) (mainKey : conf.strMainKey = sect) (named : name sect)
    (entries : ∀ key value, conf.mconf[key]? = some value → entry key value) :
    Everywhere name entry (mSection.insert sect conf) := by
  intro other conf' held
  rw [lookup_insert] at held
  by_cases same : other = sect
  · rw [if_pos same] at held
    obtain rfl := Option.some.inj held
    exact same ▸ ⟨mainKey, named, entries⟩
  · rw [if_neg same] at held
    exact all other conf' held

theorem everywhere_setIn {mSection : Map Config} {sect key value : Str}
    (all : Everywhere name entry mSection) (named : name sect) (nonempty : key ≠ [])
    (fits : entry key value) : Everywhere name entry (setIn mSection sect key value) := by
  have old : ∃ conf : Config, (mSection[sect]?).getD (Config.new sect) = conf ∧
      conf.strMainKey = sect ∧ ∀ k v, conf.mconf[k]? = some v → entry k v := by
    cases held : mSection[sect]? with
    | none => exact ⟨_, rfl, rfl, by simp [Config.new]⟩
    | some conf =>
      obtain ⟨mainKey, _, entries⟩ := all sect conf held
      exact ⟨conf, rfl, mainKey, entries⟩
  obtain ⟨conf, same, mainKey, entries⟩ := old
  refine everywhere_insert all ?_ named ?_
  · rw [same, Config.set, if_neg nonempty]
    exact mainKey
  · intro k v held
    rw [same, set_lookup conf value k nonempty] at held
    by_cases sameKey : k = key
    · rw [if_pos sameKey] at held
      rw [sameKey, ← Option.some.inj held]
      exact fits
    · rw [if_neg sameKey] at held
      exact entries k v held

theorem everywhere_del {ini : CIniFile} (sect key : Str)
    (all : Everywhere name entry ini.mSection) :
    Everywhere name entry (ini.del sect key).mSection := by
  unfold CIniFile.del
  cases held : ini.mSection[sect]? with
  | none => exact all
  | some conf =>
    obtain ⟨mainKey, named, entries⟩ := all sect conf held
    refine everywhere_insert all ?_ named ?_
    · unfold Config.del
      split <;> exact mainKey
    · intro k v held
      rw [del_lookup] at held
      by_cases sameKey : k = key
      · simp [sameKey] at held
      · rw [if_neg sameKey] at held
        exact entries k v held

end Stores

theorem sound_perform {ini : CIniFile} {call : IniCall} (sound : Sound ini.mSection)
    (representable : Representable call) : Sound (perform ini call).mSection := by
  cases call with
  | set sect key value =>
    obtain ⟨name, setting⟩ := representable
    rw [perform, CIniFile.set, if_pos ⟨name.nonempty, setting.keyNonempty⟩]
    exact everywhere_setIn sound name setting.keyNonempty setting
  | del sect key => exact everywhere_del sect key sound

theorem sound_run (fileName : Str) {calls : List IniCall}
    (representable : ∀ call ∈ calls, Representable call) :
    Sound (run fileName calls).mSection := by
  induction calls using List.reverseRecOn with
  | nil => exact everywhere_empty
  | append_singleton before call ih =>
    rw [run_concat]
    exact sound_perform (ih fun c member => representable c (by simp [member]))
      (representable call (by simp))

structure HeaderText (sect : Str) : Prop where
  nonempty : sect ≠ []
  noBracket : ch ']' ∉ sect
  noNewline : ch '\n' ∉ sect
  noNul : 0 ∉ sect
  short : (headerLine sect).length ≤ BUFF_LEN - 1

/-- An entry whose line is read as a comment, or as one setting of its key to some value. -/
structure SettingText (key value : Str) : Prop where
  nonempty : key ≠ []
  noEquals : ch '=' ∉ key
  notHeader : key.head? ≠ some (ch '[')
  unblanked : Unblanked key
  keyNewline : ch '\n' ∉ key
  keyNul : 0 ∉ key
  valueNewline : ch '\n' ∉ cstr value
  filled : key.head? = some (ch '#') ∨
    ∃ c ∈ (cstr value).rdropWhile (blanks.contains ·), c ≠ ch '='
  short : (settingLine (key, value)).length ≤ BUFF_LEN - 1

/-- Every text in the store is written on a line of its own. -/
def Texts (mSection : Map Config) : Prop := Everywhere HeaderText SettingText mSection

def Named (mSection : Map Config) : Prop :=
  ∀ (sect : Str) (conf : Config), mSection[sect]? = some conf → conf.strMainKey = sect

/-- What the reader makes of the value: the first piece between the characters '='. -/
def readBack (key value : Str) : Option Str :=
  if key.head? = some (ch '#') then none
  else some (trimmed blanks
    ((pieces ((cstr value).rdropWhile (blanks.contains ·)) (ch '=')).headD []))

def seenConfig (conf : Config) : Config := { conf with mconf := conf.mconf.filterMap readBack }

def seen (mSection : Map Config) : Map Config := mSection.map fun _ conf => seenConfig conf

theorem plain_no_nul {s : Str} (plain : Plain s) : 0 ∉ s := fun member =>
  absurd (plain 0 member) (by decide)

theorem plain_no_newline {s : Str} (plain : Plain s) : ch '\n' ∉ s := fun member =>
  absurd (plain _ member) (by decide)

theorem cstr_whole {s : Str} (noNul : 0 ∉ s) : cstr s = s := by
  rw [cstr, List.takeWhile_eq_self_iff]
  intro c member
  simp only [decide_eq_true_eq]
  rintro rfl
  exact noNul member

theorem trimmed_self {s : Str} (unblanked : Unblanked s) : trimmed blanks s = s := by
  have isCore : Core (blanks.contains ·) s s :=
    ⟨⟨[], [], by simp, by simp, by simp⟩, fun c first => by simpa using unblanked.1 c first,
      fun c last => by simpa using unblanked.2 c last⟩
  exact (core_unique isCore).symm

theorem trimmed_line (s : Str) : trimmed blanks (s ++ [ch '\n']) = trimmed blanks s := by
  have newline : blanks.contains (ch '\n') = true := by decide
  rw [trimmed, List.rdropWhile_concat_pos _ _ _ newline]
  rfl

theorem trimmed_entry {key : Str} (nonempty : key ≠ []) (unblanked : Unblanked key)
    (value : Str) : trimmed blanks (key ++ ch '=' :: value) =
      key ++ ch '=' :: value.rdropWhile (blanks.contains ·) := by
  have equals : blanks.contains (ch '=') = false := by decide
  obtain ⟨k, rest, rfl⟩ := List.exists_cons_of_ne_nil nonempty
  have outside : blanks.contains k = false := by simpa using unblanked.1 k rfl
  rw [trimmed, rdropWhile_kept equals, List.cons_append, List.dropWhile_cons, outside]
  rfl

structure Line (line : Str) (body : Str) : Prop where
  ends : line = body ++ [ch '\n']
  noNewline : ch '\n' ∉ body
  noNul : 0 ∉ body
  short : line.length ≤ BUFF_LEN - 1

variable {host : Host}

theorem buffer_fits {n : Nat} (short : n ≤ BUFF_LEN - 1) : n < npos host := by
  have wide : 2 ^ 16 ≤ sizeCount host := Nat.pow_le_pow_right (by decide) host.wide
  have := @npos_size host
  simp only [BUFF_LEN] at short
  omega

theorem readLine_line {body : Str} (noNewline : ch '\n' ∉ body) (rest : Str) {count : Nat}
    (room : body.length < count) :
    readLine count (body ++ ch '\n' :: rest) = (body ++ [ch '\n'], rest, false) := by
  induction body generalizing count with
  | nil =>
    obtain ⟨n, rfl⟩ : ∃ n, count = n + 1 := ⟨count - 1, by simp at room; omega⟩
    simp [readLine]
  | cons c body ih =>
    obtain ⟨n, rfl⟩ : ∃ n, count = n + 1 := ⟨count - 1, by simp at room; omega⟩
    simp only [List.mem_cons, not_or] at noNewline
    simp only [List.length_cons, Nat.add_lt_add_iff_right] at room
    simp [readLine, Ne.symm noNewline.1, ih noNewline.2 room]

theorem loadLoop_lines {lines : List Str} (fine : ∀ line ∈ lines, ∃ body, Line line body)
    {fuel : Nat} (enough : lines.flatten.length < fuel) (sect : Str) (mSection : Map Config) :
    loadLoop host fuel lines.flatten false sect mSection =
      (lines.foldlM (fun (st : Str × Map Config) line => loadLine host st.1 st.2 line)
        (sect, mSection)).map Prod.snd := by
  induction lines generalizing fuel sect mSection with
  | nil =>
    obtain ⟨f, rfl⟩ : ∃ f, fuel = f + 1 := ⟨fuel - 1, by omega⟩
    rfl
  | cons line lines ih =>
    obtain ⟨f, rfl⟩ : ∃ f, fuel = f + 1 := ⟨fuel - 1, by omega⟩
    obtain ⟨body, rfl, noNewline, _, short⟩ := fine line (by simp)
    have room : body.length < BUFF_LEN - 1 := by
      rw [List.length_append] at short
      exact short
    have got : fgets BUFF_LEN ((body ++ [ch '\n']) ++ lines.flatten) =
        some (body ++ [ch '\n'], lines.flatten, false) := by
      have read := readLine_line noNewline lines.flatten room
      simp [fgets, read]
    have left : lines.flatten.length < f := by
      simp only [List.flatten_cons, List.length_append, List.length_singleton] at enough
      omega
    rw [List.flatten_cons, loadLoop, got, List.foldlM_cons]
    simp only [Bool.false_eq_true, if_false]
    cases loadLine host sect mSection (body ++ [ch '\n']) with
    | error fault => rfl
    | ok st => exact ih (fun other member => fine other (by simp [member])) left st.1 st.2

theorem findIdx_absent {s : Str} {c : UInt8} (absent : c ∉ s) :
    s.findIdx? ([c].contains ·) = none := by
  rw [List.findIdx?_eq_none_iff]
  intro x member
  have differs : x ≠ c := fun same => absent (same ▸ member)
  simpa using differs

theorem findFirstOf_split {before after : Str} {c : UInt8} (absent : c ∉ before) :
    findFirstOf host (before ++ c :: after) [c] = before.length := by
  have none := findIdx_absent absent
  simp only [findFirstOf, found, List.findIdx?_append, none, List.findIdx?_cons]
  simp

theorem headerLine_line {sect : Str} (text : HeaderText sect) :
    Line (headerLine sect) (ch '[' :: sect ++ [ch ']']) := by
  refine ⟨?_, ?_, ?_, text.short⟩
  · simp [headerLine, cstr_whole text.noNul]
  · simpa [ch] using text.noNewline
  · simpa [ch] using text.noNul

theorem settingLine_line {key value : Str} (text : SettingText key value) :
    Line (settingLine (key, value)) (key ++ ch '=' :: cstr value) := by
  refine ⟨?_, ?_, ?_, text.short⟩
  · simp [settingLine, cstr_whole text.keyNul]
  · simpa [ch] using ⟨text.keyNewline, text.valueNewline⟩
  · have noNul : 0 ∉ cstr value := fun member => by
      simpa using List.mem_takeWhile_imp member
    simpa [ch] using ⟨text.keyNul, noNul⟩

theorem line_trims {line body : Str} (fine : Line line body) :
    trim host (cstr line) blanks = .ok (trimmed blanks body) := by
  have noNul : 0 ∉ line := by
    rw [fine.ends]
    simpa [ch] using fine.noNul
  rw [cstr_whole noNul, trim_ok (buffer_fits fine.short), fine.ends, trimmed_line]

theorem load_header {sect : Str} (text : HeaderText sect) (current : Str)
    (mSection : Map Config) :
    loadLine host current mSection (headerLine sect) = .ok (sect, mSection) := by
  have fine := headerLine_line text
  have unblanked : Unblanked (ch '[' :: sect ++ [ch ']']) := by
    refine ⟨by simp [ch, blanks], ?_⟩
    intro c last
    rw [List.getLast?_concat] at last
    obtain rfl := Option.some.inj last
    decide
  have absent : ch ']' ∉ ch '[' :: sect := by
    simpa [ch] using text.noBracket
  have position := @findFirstOf_split host (ch '[' :: sect) [] (ch ']') absent
  have shortBody := fine.short
  rw [fine.ends, List.length_append] at shortBody
  have inside : (ch '[' :: sect).length < npos host := by
    apply buffer_fits
    simp only [List.length_append, List.length_cons, List.length_nil] at shortBody ⊢
    omega
  have notComment : ch '[' ≠ ch '#' := by decide
  have line := @line_trims host _ _ fine
  rw [trimmed_self unblanked] at line
  simp only [loadLine, line, bind, Except.bind, List.cons_append, List.headD_cons,
    if_neg notComment, if_true]
  rw [← List.cons_append, position, if_pos (Nat.ne_of_lt inside)]
  simp [substr]

theorem load_blank (current : Str) (mSection : Map Config) :
    loadLine host current mSection [ch '\n'] = .ok (current, mSection) := by
  have fine : Line [ch '\n'] [] := ⟨rfl, by simp, by simp, by decide⟩
  have line := @line_trims host _ _ fine
  rw [trimmed_self ⟨by simp, by simp⟩] at line
  have notComment : (0 : UInt8) ≠ ch '#' := by decide
  have notHeader : (0 : UInt8) ≠ ch '[' := by decide
  simp [loadLine, line, bind, Except.bind, notComment, notHeader, findFirstOf, found]

theorem load_entry {sect key value : Str} (named : sect ≠ []) (text : SettingText key value)
    (mSection : Map Config) :
    loadLine host sect mSection (settingLine (key, value)) =
      .ok (sect, match readBack key value with
        | some read => setIn mSection sect key read
        | none => mSection) := by
  have fine := settingLine_line text
  have line := trimmed_entry text.nonempty text.unblanked (cstr value)
  have shorter := (List.rdropWhile_prefix (blanks.contains ·) (cstr value)).length_le
  have again := trimmed_entry text.nonempty text.unblanked
    ((cstr value).rdropWhile (blanks.contains ·))
  rw [List.rdropWhile_idempotent] at again
  have head (rest : Str) : (key ++ rest).headD 0 = key.headD 0 := by
    obtain ⟨k, others, same⟩ := List.exists_cons_of_ne_nil text.nonempty
    rw [same]
    rfl
  have first (c : UInt8) : key.headD 0 = c ↔ key.head? = some c := by
    obtain ⟨k, others, same⟩ := List.exists_cons_of_ne_nil text.nonempty
    rw [same]
    simp
  unfold readBack
  by_cases comment : key.head? = some (ch '#')
  · simp only [loadLine, line_trims fine, line, head, first, bind, Except.bind, if_pos comment]
  -- neither a comment nor a header: the line is split at the characters '='
  · have filled := text.filled.resolve_left comment
    generalize (cstr value).rdropWhile (blanks.contains ·) = body at *
    have position := @findFirstOf_split host key body (ch '=') text.noEquals
    have shortBody := fine.short
    rw [fine.ends, List.length_append, List.length_append, List.length_cons] at shortBody
    have lengths : (key ++ ch '=' :: body).length = key.length + (body.length + 1) :=
      List.length_append
    have fits : (key ++ ch '=' :: body).length < npos host := buffer_fits (by omega)
    obtain ⟨piece, others, split⟩ := List.exists_cons_of_ne_nil (pieces_nonempty filled)
    have pieceFits : piece.length < npos host := by
      have bounded := @piece_length body piece (ch '=') (by simp [split])
      omega
    have keyFits : key.length < npos host := by omega
    have whole : pieces (key ++ ch '=' :: body) (ch '=') = key :: piece :: others := by
      rw [← split, pieces_first text.nonempty text.noEquals]
    simp only [loadLine, line_trims fine, line, head, first, bind, Except.bind,
      if_neg comment, if_neg text.notHeader, position, if_pos (Nat.ne_of_lt keyFits),
      trim_ok fits, again, str2vector_ok _ fits, whole, index, List.getElem?_cons_zero,
      List.getElem?_cons_succ, trim_ok keyFits, trimmed_self text.unblanked,
      trim_ok pieceFits, if_pos named, split, List.headD_cons]

def stored (mSection : Map Config) (sect : Str) (entries : List (Str × Str)) : Map Config :=
  entries.foldl (fun m e => setIn m sect e.1 e.2) mSection

def readLines (host : Host) (lines : List Str) (st : Str × Map Config) :
    Except Fault (Str × Map Config) :=
  lines.foldlM (fun (st : Str × Map Config) line => loadLine host st.1 st.2 line) st

theorem readLines_append (first second : List Str) (st : Str × Map Config) :
    readLines host (first ++ second) st = (readLines host first st).bind (readLines host second) :=
  List.foldlM_append

theorem read_settings {sect : Str} (named : sect ≠ []) {entries : List (Str × Str)}
    (texts : ∀ e ∈ entries, SettingText e.1 e.2) (mSection : Map Config) :
    readLines host (entries.map settingLine) (sect, mSection) =
      .ok (sect, stored mSection sect
        (entries.filterMap fun e => (readBack e.1 e.2).map (e.1, ·))) := by
  induction entries generalizing mSection with
  | nil => rfl
  | cons e rest ih =>
    have first := @load_entry host _ _ _ named (texts e (by simp)) mSection
    have later := fun m => ih (fun other member => texts other (by simp [member])) m
    rw [List.map_cons, readLines, List.foldlM_cons, first, List.filterMap_cons]
    cases readBack e.1 e.2 with
    | none => exact later mSection
    | some read => exact later (setIn mSection sect e.1 read)

theorem read_section {conf : Config} (header : HeaderText conf.strMainKey)
    (texts : ∀ e ∈ conf.mconf.toList, SettingText e.1 e.2) (current : Str)
    (mSection : Map Config) :
    readLines host conf.write (current, mSection) =
      .ok (conf.strMainKey,
        stored mSection conf.strMainKey (seenConfig conf).mconf.toList) := by
  have first : readLines host [headerLine conf.strMainKey] (current, mSection) =
      .ok (conf.strMainKey, mSection) := by
    rw [readLines, List.foldlM_cons, load_header header]
    rfl
  have entries := @read_settings host _ header.nonempty _ texts mSection
  rw [← Std.TreeMap.toList_filterMap] at entries
  have blank (m : Map Config) : readLines host [[ch '\n']] (conf.strMainKey, m) =
      .ok (conf.strMainKey, m) := by
    rw [readLines, List.foldlM_cons, load_blank]
    rfl
  have parts : conf.write =
      [headerLine conf.strMainKey] ++ (conf.mconf.toList.map settingLine ++ [[ch '\n']]) := rfl
  rw [parts, readLines_append, first]
  change readLines host (_ ++ _) _ = _
  rw [readLines_append, entries]
  exact blank _

def storedAll (mSection : Map Config) (sections : List (Str × Config)) : Map Config :=
  sections.foldl (fun m e => stored m e.2.strMainKey e.2.mconf.toList) mSection

theorem read_sections {sections : List (Str × Config)}
    (headers : ∀ e ∈ sections, HeaderText e.2.strMainKey)
    (texts : ∀ e ∈ sections, ∀ x ∈ e.2.mconf.toList, SettingText x.1 x.2)
    (current : Str) (mSection : Map Config) :
    ∃ last, readLines host (sections.flatMap fun e => e.2.write) (current, mSection) =
      .ok (last, storedAll mSection (sections.map fun e => (e.1, seenConfig e.2))) := by
  induction sections generalizing current mSection with
  | nil => exact ⟨current, rfl⟩
  | cons e rest ih =>
    have one := @read_section host _ (headers e (by simp)) (texts e (by simp)) current mSection
    obtain ⟨last, others⟩ := ih (fun x member => headers x (by simp [member]))
      (fun x member => texts x (by simp [member])) e.2.strMainKey
      (stored mSection e.2.strMainKey (seenConfig e.2).mconf.toList)
    refine ⟨last, ?_⟩
    rw [List.flatMap_cons, readLines_append, one]
    exact others

def settingsOf (conf : Str × Config) : List ((Str × Str) × Str) :=
  conf.2.mconf.toList.map fun e => ((conf.2.strMainKey, e.1), e.2)

def settings (mSection : Map Config) : List ((Str × Str) × Str) :=
  mSection.toList.flatMap settingsOf

theorem stored_bindings (mSection : Map Config) (sect : Str) {entries : List (Str × Str)}
    (keys : ∀ e ∈ entries, e.1 ≠ []) : bindings (stored mSection sect entries) =
      replay (bindings mSection) (assignments (entries.map fun e => ((sect, e.1), e.2))) := by
  induction entries generalizing mSection with
  | nil => rfl
  | cons e rest ih =>
    have later := ih (setIn mSection sect e.1 e.2) fun x member => keys x (by simp [member])
    rw [bindings_setIn mSection sect e.2 (keys e (by simp))] at later
    exact later

theorem storedAll_bindings (mSection : Map Config) {sections : List (Str × Config)}
    (keys : ∀ e ∈ sections, ∀ x ∈ e.2.mconf.toList, x.1 ≠ []) :
    bindings (storedAll mSection sections) =
      replay (bindings mSection) (assignments (sections.flatMap settingsOf)) := by
  induction sections generalizing mSection with
  | nil => rfl
  | cons e rest ih =>
    have later := ih (stored mSection e.2.strMainKey e.2.mconf.toList)
      fun x member => keys x (by simp [member])
    rw [stored_bindings _ _ (keys e (by simp))] at later
    rw [List.flatMap_cons, assignments, List.map_append, replay_append]
    exact later

theorem keys_distinct {α : Type} (m : Map α) : (m.toList.map Prod.fst).Nodup := by
  refine List.Pairwise.map _ (fun a b differs same => ?_) m.distinct_keys_toList
  exact differs (Std.LawfulEqCmp.compare_eq_iff_eq.mpr same)

theorem mem_settings {mSection : Map Config} (named : Named mSection) (p : Str × Str)
    (value : Str) : (p, value) ∈ settings mSection ↔ bindings mSection p = some value := by
  obtain ⟨sect, key⟩ := p
  constructor
  · intro member
    obtain ⟨⟨s, conf⟩, inStore, inConf⟩ := List.mem_flatMap.mp member
    obtain ⟨⟨k, v⟩, inside, same⟩ := List.mem_map.mp inConf
    have held := Std.TreeMap.mem_toList_iff_getElem?_eq_some.mp inStore
    have bound := Std.TreeMap.mem_toList_iff_getElem?_eq_some.mp inside
    have mainKey := named s conf held
    simp only [Prod.mk.injEq] at same
    obtain ⟨⟨rfl, rfl⟩, rfl⟩ := same
    simp [bindings, mainKey, held, bound]
  · intro bound
    simp only [bindings, Option.bind_eq_some_iff] at bound
    obtain ⟨conf, held, bound⟩ := bound
    have mainKey := named sect conf held
    refine List.mem_flatMap.mpr ⟨(sect, conf),
      Std.TreeMap.mem_toList_iff_getElem?_eq_some.mpr held, List.mem_map.mpr ⟨(key, value),
        Std.TreeMap.mem_toList_iff_getElem?_eq_some.mpr bound, ?_⟩⟩
    simp [mainKey]

theorem settings_distinct {mSection : Map Config} (named : Named mSection) :
    ((settings mSection).map Prod.fst).Nodup := by
  have mainKeys (e : Str × Config) (member : e ∈ mSection.toList) : e.2.strMainKey = e.1 :=
    named e.1 e.2 (Std.TreeMap.mem_toList_iff_getElem?_eq_some.mp member)
  rw [settings, List.map_flatMap, List.nodup_flatMap]
  constructor
  · intro e _
    have keys := (keys_distinct e.2.mconf).map (Prod.mk_right_injective e.2.strMainKey)
    rw [List.map_map] at keys
    rw [settingsOf, List.map_map]
    exact keys
  · refine List.Pairwise.imp_of_mem (fun {a b} inA inB differs => ?_) mSection.distinct_keys_toList
    intro p fromA fromB
    simp only [settingsOf, List.map_map, List.mem_map] at fromA fromB
    obtain ⟨_, _, rfl⟩ := fromA
    obtain ⟨_, _, same⟩ := fromB
    have sameKey : b.2.strMainKey = a.2.strMainKey := (Prod.mk.inj same).1
    rw [mainKeys a inA, mainKeys b inB] at sameKey
    exact differs (Std.LawfulEqCmp.compare_eq_iff_eq.mpr sameKey.symm)

theorem written_lines {mSection : Map Config} (texts : Texts mSection) :
    ∀ line ∈ written mSection, ∃ body, Line line body := by
  intro line member
  obtain ⟨⟨s, conf⟩, inStore, inside⟩ := List.mem_flatMap.mp member
  obtain ⟨mainKey, header, settings⟩ :=
    texts s conf (Std.TreeMap.mem_toList_iff_getElem?_eq_some.mp inStore)
  simp only [Config.write, List.mem_cons, List.mem_append, List.mem_map, List.cons_append,
    List.not_mem_nil, or_false] at inside
  rcases inside with rfl | ⟨e, inConf, rfl⟩ | rfl
  · exact ⟨_, headerLine_line (mainKey ▸ header)⟩
  · have text := settings e.1 e.2 (Std.TreeMap.mem_toList_iff_getElem?_eq_some.mp inConf)
    exact ⟨_, settingLine_line text⟩
  · exact ⟨[], rfl, by simp, by simp, by decide⟩

theorem seen_lookup (mSection : Map Config) (sect : Str) :
    (seen mSection)[sect]? = (mSection[sect]?).map seenConfig :=
  Std.TreeMap.getElem?_map

theorem seen_bindings (mSection : Map Config) (p : Str × Str) :
    bindings (seen mSection) p = (bindings mSection p).bind (readBack p.2) := by
  rw [bindings, bindings, seen_lookup]
  cases mSection[p.1]? with
  | none => rfl
  | some conf => exact Std.TreeMap.getElem?_filterMap'

theorem seen_named {mSection : Map Config} (texts : Texts mSection) : Named (seen mSection) := by
  intro sect conf held
  rw [seen_lookup, Option.map_eq_some_iff] at held
  obtain ⟨old, found, rfl⟩ := held
  exact (texts sect old found).1

theorem empty_unbound : bindings (∅ : Map Config) = unbound := by
  funext p
  simp [bindings, unbound]

theorem seen_toList (mSection : Map Config) :
    (seen mSection).toList = mSection.toList.map fun e => (e.1, seenConfig e.2) :=
  Std.TreeMap.toList_map

theorem read_stored {mSection : Map Config} (texts : Texts mSection) :
    loadLoop host ((written mSection).flatten.length + 1) (written mSection).flatten false [] ∅ =
      .ok (storedAll ∅ (seen mSection).toList) := by
  have held (e : Str × Config) (member : e ∈ mSection.toList) :=
    texts e.1 e.2 (Std.TreeMap.mem_toList_iff_getElem?_eq_some.mp member)
  have entries (e : Str × Config) (member : e ∈ mSection.toList) :
      ∀ x ∈ e.2.mconf.toList, SettingText x.1 x.2 := fun x inside =>
    (held e member).2.2 x.1 x.2 (Std.TreeMap.mem_toList_iff_getElem?_eq_some.mp inside)
  obtain ⟨last, read⟩ := @read_sections host _ (fun e member =>
    (held e member).1 ▸ (held e member).2.1) entries [] ∅
  rw [← seen_toList] at read
  rw [loadLoop_lines (written_lines texts) (Nat.lt_succ_self _)]
  change (readLines host (written mSection) ([], ∅)).map Prod.snd = _
  rw [written, read]
  rfl

theorem stored_seen {mSection : Map Config} (texts : Texts mSection) :
    bindings (storedAll ∅ (seen mSection).toList) = bindings (seen mSection) := by
  rw [storedAll_bindings, empty_unbound]
  · have named := seen_named texts
    exact replay_entries _ (settings_distinct named) _ fun k v => mem_settings named k v
  · intro e member x inside
    rw [seen_toList] at member
    obtain ⟨old, stored, rfl⟩ := List.mem_map.mp member
    have bound := Std.TreeMap.mem_toList_iff_getElem?_eq_some.mp inside
    rw [seenConfig, Std.TreeMap.getElem?_filterMap'] at bound
    obtain ⟨value, found, _⟩ := Option.bind_eq_some_iff.mp bound
    have held := texts old.1 old.2 (Std.TreeMap.mem_toList_iff_getElem?_eq_some.mp stored)
    exact (held.2.2 x.1 value found).nonempty

/-- Reading back the whole file gives a store with the bindings that the reader sees. -/
theorem read_seen {mSection : Map Config} (texts : Texts mSection) :
    ∃ loaded, loadLoop host ((written mSection).flatten.length + 1) (written mSection).flatten false
        [] ∅ = .ok loaded ∧ bindings loaded = bindings (seen mSection) :=
  ⟨_, read_stored texts, stored_seen texts⟩

theorem setting_value {key value : Str} (setting : Setting key value) :
    (cstr value).rdropWhile (blanks.contains ·) = value := by
  rw [cstr_whole (plain_no_nul setting.valuePlain), List.rdropWhile_eq_self_iff]
  intro nonempty
  have outside := setting.valueUnblanked.2 _ (List.getLast?_eq_some_getLast nonempty)
  simpa using outside

theorem setting_text {key value : Str} (setting : Setting key value)
    (short : (settingLine (key, value)).length ≤ BUFF_LEN - 1) : SettingText key value := by
  refine ⟨setting.keyNonempty, setting.keyEquals, setting.notHeader, setting.keyUnblanked,
    plain_no_newline setting.keyPlain, plain_no_nul setting.keyPlain, ?_, .inr ?_, short⟩
  · rw [cstr_whole (plain_no_nul setting.valuePlain)]
    exact plain_no_newline setting.valuePlain
  · obtain ⟨c, rest, same⟩ := List.exists_cons_of_ne_nil setting.valueNonempty
    have member : c ∈ value := by simp [same]
    rw [setting_value setting]
    exact ⟨c, member, fun equals => setting.valueEquals (equals ▸ member)⟩

theorem name_text {sect : Str} (name : SectionName sect)
    (short : (headerLine sect).length ≤ BUFF_LEN - 1) : HeaderText sect :=
  ⟨name.nonempty, name.noBracket, plain_no_newline name.plain, plain_no_nul name.plain, short⟩

theorem setting_read {key value : Str} (setting : Setting key value) :
    readBack key value = some value := by
  rw [readBack, if_neg setting.notComment, setting_value setting,
    pieces_whole setting.valueEquals]
  simp [setting.valueNonempty, trimmed_self setting.valueUnblanked]

theorem header_written {mSection : Map Config} {sect : Str} {conf : Config}
    (held : mSection[sect]? = some conf) : headerLine conf.strMainKey ∈ written mSection := by
  have member := Std.TreeMap.mem_toList_iff_getElem?_eq_some.mpr held
  exact List.mem_flatMap.mpr ⟨(sect, conf), member, by simp [Config.write]⟩

theorem setting_written {mSection : Map Config} {sect key value : Str} {conf : Config}
    (held : mSection[sect]? = some conf) (bound : conf.mconf[key]? = some value) :
    settingLine (key, value) ∈ written mSection := by
  have member := Std.TreeMap.mem_toList_iff_getElem?_eq_some.mpr held
  have inside := Std.TreeMap.mem_toList_iff_getElem?_eq_some.mpr bound
  exact List.mem_flatMap.mpr ⟨(sect, conf), member,
    by simp [Config.write, List.mem_map_of_mem inside]⟩

theorem sound_texts {mSection : Map Config} (sound : Sound mSection)
    (short : ∀ line ∈ written mSection, line.length ≤ BUFF_LEN - 1) : Texts mSection := by
  intro sect conf held
  obtain ⟨mainKey, name, settings⟩ := sound sect conf held
  refine ⟨mainKey, name_text name ?_, ?_⟩
  · rw [← mainKey]
    exact short _ (header_written held)
  · intro key value bound
    exact setting_text (settings key value bound) (short _ (setting_written held bound))

theorem sound_seen {mSection : Map Config} (sound : Sound mSection) :
    bindings (seen mSection) = bindings mSection := by
  funext p
  rw [seen_bindings]
  cases bound : bindings mSection p with
  | none => rfl
  | some value =>
    obtain ⟨conf, held, inside⟩ := Option.bind_eq_some_iff.mp bound
    exact setting_read ((sound p.1 conf held).2.2 p.2 value inside)

theorem read_written {mSection : Map Config} (sound : Sound mSection)
    (short : ∀ line ∈ written mSection, line.length ≤ BUFF_LEN - 1) :
    ∃ loaded, loadLoop host ((written mSection).flatten.length + 1) (written mSection).flatten false
        [] ∅ = .ok loaded ∧ bindings loaded = bindings mSection := by
  rw [← sound_seen sound]
  exact read_seen (sound_texts sound short)

theorem perform_fileName (ini : CIniFile) (call : IniCall) :
    (perform ini call).strFileName = ini.strFileName := by
  cases call with
  | set sect key value =>
    rw [perform, CIniFile.set]
    split <;> rfl
  | del sect key =>
    rw [perform, CIniFile.del]
    split <;> rfl

theorem run_fileName (fileName : Str) (calls : List IniCall) :
    (run fileName calls).strFileName = fileName := by
  induction calls using List.reverseRecOn with
  | nil => rfl
  | append_singleton before call ih => rw [run_concat, perform_fileName, ih]

/-- Writing a store of representable strings and loading the file into a fresh object
    gives the same bindings, for every history of the store: each key has the value that the
    history set last. -/
theorem load_of_written_bindings (host : Host) (fileName : Str) (files : Files)
    {calls : List IniCall} (representable : ∀ call ∈ calls, Representable call)
    (short : ∀ line ∈ written (run fileName calls).mSection, line.length ≤ BUFF_LEN - 1) :
    ∃ loaded, (CIniFile.new fileName).load host
        ((run fileName calls).write Stdio.reliable files).2.1 = .ok (0, loaded) ∧
      bindings loaded.mSection = bindings (run fileName calls).mSection ∧
      ∀ sect key value, bindings loaded.mSection (sect, key) = some value ↔
        LastSet calls sect key value := by
  obtain ⟨mSection, read, same⟩ := @read_written host _
    (sound_run fileName representable) short
  have bySets (sect key value : Str) :
      bindings mSection (sect, key) = some value ↔ LastSet calls sect key value := by
    rw [same]
    exact bindings_iff_lastSet fileName calls sect key value
  refine ⟨{ CIniFile.new fileName with mSection }, ?_, same, bySets⟩
  have content : ((run fileName calls).write Stdio.reliable files).2.1 fileName =
      some (written (run fileName calls).mSection).flatten := by
    simp [CIniFile.write, Stdio.reliable, run_fileName]
  simp only [CIniFile.load, CIniFile.new, content, read, bind, Except.bind]

def savedHistory : List IniCall :=
  [.set [ch 'n'] [ch 'p'] [ch '1'], .set [ch 'm'] [ch 'q'] [ch '2'], .del [ch 'm'] [ch 'q']]

theorem savedHistory_representable : ∀ call ∈ savedHistory, Representable call := by
  intro call member
  simp only [savedHistory, List.mem_cons, List.not_mem_nil, or_false] at member
  rcases member with rfl | rfl | rfl
  · exact ⟨⟨by decide, by decide, by decide⟩, ⟨by decide, by decide, by decide, by decide,
      by decide, by decide, by decide, by decide, by decide, by decide⟩⟩
  · exact ⟨⟨by decide, by decide, by decide⟩, ⟨by decide, by decide, by decide, by decide,
      by decide, by decide, by decide, by decide, by decide, by decide⟩⟩
  · trivial

/-- Section n keeps one key, section m is left empty. -/
theorem saved_history_is_loaded :
    ∃ loaded, (CIniFile.new [ch 'f']).load ⟨32, by decide⟩
        ((run [ch 'f'] savedHistory).write Stdio.reliable fun _ => none).2.1 = .ok (0, loaded) ∧
      bindings loaded.mSection = bindings (run [ch 'f'] savedHistory).mSection ∧
      ∀ sect key value, bindings loaded.mSection (sect, key) = some value ↔
        LastSet savedHistory sect key value :=
  load_of_written_bindings _ [ch 'f'] _ savedHistory_representable (by decide)

end IniRoundTrip
