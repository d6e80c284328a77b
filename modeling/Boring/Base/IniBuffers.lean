import Boring.Base.IniGrammar

/- CIniFile::load reads pieces of at most BUFF_LEN - 1 characters, not lines. A longer
   line is cut, and each piece is read as a line of its own; here the pieces are compared
   with the line they come from. -/
namespace IniBuffers
open StringUtil Bindings IniFile IniBindings IniRoundTrip IniMerge IniReadings IniGrammar

def lines (content : Str) : List Str := content.splitOn (ch '\n')

/-- What `load` makes of each line would make of a whole line of any length. -/
def wholeReadings (content : Str) : List Reading := (lines content).map reading

/-- Loading the file binds what reading its whole lines binds. -/
def Agrees (host : Host) (files : Files) (ini : CIniFile) (content : Str) : Prop :=
  ∃ loaded whole, ini.load host files = .ok (0, loaded) ∧
    followAll ([], ini.mSection) (wholeReadings content) = .ok whole ∧
    bindings loaded.mSection = bindings whole.2

/-- A blank line, a comment, a header, or a setting with one '='. -/
inductive Shaped : Str → Prop where
  | blank {line : Str} (empty : trimmed blanks line = []) : Shaped line
  | comment {line : Str} (first : (trimmed blanks line).head? = some (ch '#')) : Shaped line
  | header {line : Str} (first : (trimmed blanks line).head? = some (ch '['))
      (closed : ch ']' ∈ line) : Shaped line
  | setting {key value : Str} (keyEquals : ch '=' ∉ key) (valueEquals : ch '=' ∉ value)
      (keyFilled : trimmed blanks key ≠ []) (valueFilled : trimmed blanks value ≠ []) :
      Shaped (key ++ ch '=' :: value)

structure WellFormed (line : Str) : Prop where
  shaped : Shaped line
  noNul : 0 ∉ line
  noNewline : ch '\n' ∉ line

def Idle : Reading → Prop
  | .skip => True
  | .setting key _ => key = []
  | _ => False

def Returns (name : Str) : Str → List Reading → Prop
  | sect, [] => sect = name
  | sect, .skip :: rest => Returns name sect rest
  | _, .header other :: rest => Returns name other rest
  | sect, .setting key _ :: rest => (sect = [] ∨ key = []) ∧ Returns name sect rest
  | _, .fault :: _ => False

/-- The readings of the pieces of a line, beside the reading of the whole line. -/
def Alike (readings : List Reading) : Reading → Prop
  | .skip => ∀ read ∈ readings, Idle read
  | .header name => ∃ before first after, readings = before ++ .header first :: after ∧
      (∀ read ∈ before, Idle read) ∧ Returns name first after
  | .setting key value => ∃ before after, readings = before ++ .setting key value :: after ∧
      ∀ read ∈ before ++ after, Idle read
  | .fault => False

def Harmless (line : Str) : Prop := Alike ((chunks line).map reading) (reading line)

section Pieces

theorem readLine_full {body : Str} (noNewline : ch '\n' ∉ body) (rest : Str) :
    readLine body.length (body ++ rest) = (body, rest, false) := by
  induction body with
  | nil => cases rest <;> rfl
  | cons c body ih =>
    simp only [List.mem_cons, not_or] at noNewline
    simp [readLine, Ne.symm noNewline.1, ih noNewline.2]

theorem chunks_full {piece : Str} (noNewline : ch '\n' ∉ piece)
    (full : piece.length = BUFF_LEN - 1) (rest : Str) :
    chunks (piece ++ rest) = piece :: chunks rest := by
  obtain ⟨c, tail, rfl⟩ := List.exists_cons_of_ne_nil
    (show piece ≠ [] by rintro rfl; cases full)
  rw [List.cons_append, chunks_next, ← List.cons_append, ← full, readLine_full noNewline]

def active (readings : List Reading) : List Reading := readings.filter (· ≠ .skip)

theorem active_append (first second : List Reading) :
    active (first ++ second) = active first ++ active second :=
  List.filter_append ..

theorem line_readings {line : Str} (noNewline : ch '\n' ∉ line) (rest : Str) :
    active ((chunks (line ++ ch '\n' :: rest)).map reading) =
      active ((chunks line).map reading) ++ active ((chunks rest).map reading) := by
  induction length : line.length using Nat.strong_induction_on generalizing line with
  | _ n ih =>
    subst length
    by_cases short : line.length < BUFF_LEN - 1
    · rw [chunks_line noNewline short, List.map_cons, reading_newline]
      by_cases empty : line = []
      · subst empty
        rfl
      · rw [chunks_last noNewline empty short]
        exact active_append [reading line] _
    · have parts := List.take_append_drop (BUFF_LEN - 1) line
      have full : (line.take (BUFF_LEN - 1)).length = BUFF_LEN - 1 := by
        rw [List.length_take]
        omega
      have front : ch '\n' ∉ line.take (BUFF_LEN - 1) := fun member =>
        noNewline (List.mem_of_mem_take member)
      have back : ch '\n' ∉ line.drop (BUFF_LEN - 1) := fun member =>
        noNewline (List.mem_of_mem_drop member)
      have less : (line.drop (BUFF_LEN - 1)).length < line.length := by
        rw [List.length_drop]
        simp only [BUFF_LEN] at short ⊢
        omega
      have later := ih _ less back rfl
      have cut (tail : Str) : chunks (line ++ tail) =
          line.take (BUFF_LEN - 1) :: chunks (line.drop (BUFF_LEN - 1) ++ tail) := by
        rw [← chunks_full front full, ← List.append_assoc, parts]
      have alone := cut []
      rw [List.append_nil, List.append_nil] at alone
      rw [cut, alone, List.map_cons, List.map_cons]
      change active ([reading _] ++ _) = active ([reading _] ++ _) ++ _
      rw [active_append, active_append, later, List.append_assoc]

def cutReadings (texts : List Str) : List Reading :=
  texts.flatMap fun line => (chunks line).map reading

theorem joined_readings {texts : List Str} (apart : ∀ line ∈ texts, ch '\n' ∉ line) :
    active ((chunks ([ch '\n'].intercalate texts)).map reading) = active (cutReadings texts) := by
  induction texts with
  | nil => rfl
  | cons line rest ih =>
    have later := ih fun x member => apart x (by simp [member])
    cases rest with
    | nil =>
      have one : cutReadings [line] = (chunks line).map reading := by simp [cutReadings]
      rw [one]
      simp
    | cons next rest =>
      have split : [ch '\n'].intercalate (line :: next :: rest) =
          line ++ ch '\n' :: [ch '\n'].intercalate (next :: rest) := by
        simp [List.intercalate_cons_cons]
      rw [split, line_readings (apart line (by simp)), later, ← active_append]
      rfl

theorem lines_apart (content : Str) : ∀ line ∈ lines content, ch '\n' ∉ line := by
  induction content with
  | nil => simp [lines]
  | cons c rest ih =>
    obtain ⟨first, others, split⟩ := List.exists_cons_of_ne_nil
      (show lines rest ≠ [] from List.splitOn_ne_nil _ _)
    rw [split] at ih
    have next : lines (c :: rest) = if c = ch '\n' then [] :: lines rest
        else (c :: first) :: others := by
      rw [lines, List.splitOn_cons_eq_if_modifyHead, ← lines, split]
      by_cases newline : c = ch '\n' <;> simp [newline]
    rw [next]
    by_cases newline : c = ch '\n'
    · rw [if_pos newline, split]
      intro line member
      rcases List.mem_cons.mp member with rfl | inside
      · simp
      · exact ih line inside
    · rw [if_neg newline]
      intro line member
      rcases List.mem_cons.mp member with rfl | inside
      · simp only [List.mem_cons, not_or]
        exact ⟨Ne.symm newline, ih first (by simp)⟩
      · exact ih line (by simp [inside])

theorem file_pieces (content : Str) : active ((chunks content).map reading) =
    active (cutReadings (lines content)) := by
  have whole : [ch '\n'].intercalate (lines content) = content := List.intercalate_splitOn ..
  have joined := joined_readings (lines_apart content)
  rwa [whole] at joined

end Pieces

section Runs

def makes (sect : Str) (readings : List Reading) : List ((Str × Str) × Str) :=
  assigned (settled sect readings)

theorem makes_append (sect : Str) (first second : List Reading) : makes sect (first ++ second) =
    makes sect first ++ makes (inForce sect first) second := by
  rw [makes, settled_append, assigned, List.filterMap_append]
  rfl

theorem settled_active (sect : Str) (readings : List Reading) :
    settled sect (active readings) = settled sect readings := by
  induction readings generalizing sect with
  | nil => rfl
  | cons read rest ih =>
    cases read with
    | skip => exact ih sect
    | header name => exact ih name
    | setting key value =>
      change settled sect (.setting key value :: active rest) = _
      simp only [settled, ih]
    | fault => exact ih sect

theorem fault_active (readings : List Reading) :
    Reading.fault ∈ active readings ↔ Reading.fault ∈ readings := by
  simp [active, List.mem_filter]

theorem load_makes (host : Host) {files : Files} {ini : CIniFile} {content : Str}
    (held : files ini.strFileName = some content)
    (sound : Reading.fault ∉ cutReadings (lines content)) :
    ∃ loaded, ini.load host files = .ok (0, loaded) ∧ bindings loaded.mSection =
      replay (bindings ini.mSection) (assignments (makes [] (cutReadings (lines content)))) := by
  have pieces := file_pieces content
  have fine : Reading.fault ∉ (chunks content).map reading := by
    rw [← fault_active, pieces, fault_active]
    exact sound
  have same : settled [] ((chunks content).map reading) =
      settled [] (cutReadings (lines content)) := by
    rw [← settled_active, pieces, settled_active]
  refine ⟨{ ini with mSection := setAll ini.mSection (settled [] ((chunks content).map reading)) },
    ?_, ?_⟩
  · rw [load_chunks host held, followAll_settled fine]
    rfl
  · rw [setAll_bindings, same]
    rfl

theorem whole_makes {readings : List Reading} (sound : Reading.fault ∉ readings)
    (mSection : Map Config) : ∃ whole, followAll ([], mSection) readings = .ok whole ∧
      bindings whole.2 = replay (bindings mSection) (assignments (makes [] readings)) :=
  ⟨_, followAll_settled sound .., setAll_bindings ..⟩

theorem agrees_iff (host : Host) {files : Files} {ini : CIniFile} {content : Str}
    (held : files ini.strFileName = some content) : Agrees host files ini content ↔
      Reading.fault ∉ cutReadings (lines content) ∧ Reading.fault ∉ wholeReadings content ∧
        replay (bindings ini.mSection) (assignments (makes [] (cutReadings (lines content)))) =
          replay (bindings ini.mSection) (assignments (makes [] (wholeReadings content))) := by
  constructor
  · rintro ⟨loaded, whole, loads, follows, same⟩
    have sound : Reading.fault ∉ cutReadings (lines content) := by
      rw [← fault_active, ← file_pieces, fault_active]
      exact (load_sound host held).mp ⟨_, loads⟩
    have fine : Reading.fault ∉ wholeReadings content := (followAll_ok _ _).mp ⟨_, follows⟩
    obtain ⟨again, loadsAgain, pieces⟩ := load_makes host held sound
    obtain ⟨other, followsAgain, texts⟩ := whole_makes fine ini.mSection
    rw [loads] at loadsAgain
    rw [follows] at followsAgain
    cases loadsAgain
    cases followsAgain
    exact ⟨sound, fine, by rw [← pieces, same, texts]⟩
  · rintro ⟨sound, fine, same⟩
    obtain ⟨loaded, loads, pieces⟩ := load_makes host held sound
    obtain ⟨whole, follows, texts⟩ := whole_makes fine ini.mSection
    exact ⟨loaded, whole, loads, follows, by rw [pieces, same, texts]⟩

structure Same (first second : List Reading) : Prop where
  sound : Reading.fault ∉ first
  also : Reading.fault ∉ second
  ends (sect : Str) : inForce sect first = inForce sect second
  makes (sect : Str) : makes sect first = makes sect second

theorem same_refl {readings : List Reading} (sound : Reading.fault ∉ readings) :
    Same readings readings :=
  ⟨sound, sound, fun _ => rfl, fun _ => rfl⟩

theorem same_append {first second others rest : List Reading} (front : Same first others)
    (back : Same second rest) : Same (first ++ second) (others ++ rest) := by
  constructor
  · simp [front.sound, back.sound]
  · simp [front.also, back.also]
  · intro sect
    rw [inForce_append, inForce_append, front.ends, back.ends]
  · intro sect
    rw [makes_append, makes_append, front.makes, front.ends, back.makes]

theorem makes_setting {sect key value : Str} (rest : List Reading) (idle : sect = [] ∨ key = []) :
    makes sect (.setting key value :: rest) = makes sect rest := by
  rcases idle with rfl | rfl
  · rfl
  · simp only [makes, settled]
    split <;> rfl

theorem idle_same {readings : List Reading} (idle : ∀ read ∈ readings, Idle read) :
    Same readings [] := by
  induction readings with
  | nil => exact same_refl (by simp)
  | cons read rest ih =>
    obtain ⟨sound, also, ends, makes⟩ := ih fun x member => idle x (by simp [member])
    have here := idle read (by simp)
    cases read with
    | skip => exact ⟨by simp [sound], also, ends, makes⟩
    | header name => exact here.elim
    | setting key value =>
      refine ⟨by simp [sound], also, ends, fun sect => ?_⟩
      rw [makes_setting rest (.inr here), makes]
    | fault => exact here.elim

theorem returns_iff (name sect : Str) (readings : List Reading) :
    Returns name sect readings ↔ Reading.fault ∉ readings ∧ inForce sect readings = name ∧
      makes sect readings = [] := by
  induction readings generalizing sect with
  | nil => simp [Returns, inForce, makes, settled, assigned]
  | cons read rest ih =>
    cases read with
    | skip =>
      have later := ih sect
      simpa [Returns, inForce, makes, settled] using later
    | header other =>
      have later := ih other
      simpa [Returns, inForce, makes, settled] using later
    | setting key value =>
      have later := ih sect
      by_cases idle : sect = [] ∨ key = []
      · simp only [Returns, later, makes_setting rest idle, inForce]
        simp [idle]
      · push Not at idle
        simp [Returns, idle, makes, settled, assigned]
    | fault => simp [Returns]

theorem alike_same {readings : List Reading} {whole : Reading} (alike : Alike readings whole) :
    Same readings [whole] := by
  cases whole with
  | skip =>
    obtain ⟨sound, _, ends, makes⟩ := idle_same alike
    exact ⟨sound, by simp, ends, makes⟩
  | header name =>
    obtain ⟨before, first, after, rfl, idle, returns⟩ := alike
    obtain ⟨sound, back, none⟩ := (returns_iff name first after).mp returns
    have back : Same (.header first :: after) [.header name] :=
      ⟨by simp [sound], by simp, fun _ => back, fun _ => none⟩
    exact same_append (idle_same idle) back
  | setting key value =>
    obtain ⟨before, after, rfl, idle⟩ := alike
    have front := idle_same fun read member => idle read (List.mem_append_left after member)
    have back := idle_same fun read member => idle read (List.mem_append_right before member)
    have middle : Same [Reading.setting key value] [.setting key value] := same_refl (by simp)
    exact same_append front (same_append middle back)
  | fault => exact alike.elim

theorem harmless_same {texts : List Str} (harmless : ∀ line ∈ texts, Harmless line) :
    Same (cutReadings texts) (texts.map reading) := by
  induction texts with
  | nil => exact same_refl (by simp [cutReadings])
  | cons line rest ih =>
    have here := alike_same (harmless line (by simp))
    have later := ih fun x member => harmless x (by simp [member])
    exact same_append here later

theorem harmless_agrees (host : Host) {files : Files} {ini : CIniFile} {content : Str}
    (held : files ini.strFileName = some content)
    (harmless : ∀ line ∈ lines content, Harmless line) : Agrees host files ini content := by
  have same := harmless_same harmless
  apply (agrees_iff host held).mpr
  refine ⟨same.sound, same.also, ?_⟩
  rw [same.makes]
  rfl

end Runs

section Contexts

/-- Two sections to stand in before the line, and two settings to follow it. -/
def names : List Str := [[ch 'a'], [ch 'b']]

def probe (value : Str) : Reading := .setting [ch 'q'] value

def tails : List (List Reading) := [[], [probe [ch '1']], [probe [ch '2']]]

structure Seen (readings : List Reading) (whole : Reading) : Prop where
  sound : Reading.fault ∉ readings
  binds : ∀ sect ∈ names, ∀ tail ∈ tails,
    replay unbound (assignments (makes sect readings ++ makes (inForce sect readings) tail)) =
      replay unbound (assignments (makes sect [whole] ++ makes (inForce sect [whole]) tail))

theorem probe_here {sect : Str} (named : sect ≠ []) (value : Str)
    (front : List ((Str × Str) × Str)) :
    replay unbound (assignments (front ++ makes sect [probe value])) (sect, [ch 'q']) =
      some value := by
  have made : makes sect [probe value] = [((sect, [ch 'q']), value)] := by
    simp [makes, settled, probe, assigned, named]
  rw [made, replay_concat, if_pos rfl]

theorem probe_elsewhere {sect other : Str} (apart : sect ≠ other) (value : Str)
    (front : List ((Str × Str) × Str)) :
    replay unbound (assignments (front ++ makes other [probe value])) (sect, [ch 'q']) =
      replay unbound (assignments front) (sect, [ch 'q']) := by
  by_cases named : other = []
  · subst named
    change replay unbound (assignments (front ++ [])) _ = _
    rw [List.append_nil]
  · have made : makes other [probe value] = [((other, [ch 'q']), value)] := by
      simp [makes, settled, probe, assigned, named]
    have differs : (sect, [ch 'q']) ≠ (other, [ch 'q']) := by simp [apart]
    rw [made, replay_concat, if_neg differs]

theorem probes_tell {sect other : Str} {first second : List ((Str × Str) × Str)}
    (named : sect ≠ [])
    (alike : ∀ value ∈ [[ch '1'], [ch '2']],
      replay unbound (assignments (first ++ makes sect [probe value])) =
        replay unbound (assignments (second ++ makes other [probe value]))) : sect = other := by
  by_contra apart
  have shows (value : Str) (member : value ∈ [[ch '1'], [ch '2']]) :
      some value = replay unbound (assignments second) (sect, [ch 'q']) := by
    rw [← probe_elsewhere apart value second, ← alike value member, probe_here named]
  have first := shows [ch '1'] (by simp)
  rw [← shows [ch '2'] (by simp)] at first
  exact absurd first (by decide)

variable {readings : List Reading} {whole : Reading}

theorem seen_ends (seen : Seen readings whole) {sect : Str} (member : sect ∈ names) :
    inForce sect readings = inForce sect [whole] := by
  have binds := seen.binds sect member
  by_cases named : inForce sect readings = []
  · by_cases also : inForce sect [whole] = []
    · rw [named, also]
    · symm
      apply probes_tell also
      intro value one
      exact (binds [probe value] (by
        simp only [List.mem_cons, List.not_mem_nil, or_false] at one
        rcases one with rfl | rfl <;> simp [tails])).symm
  · apply probes_tell named
    intro value one
    exact binds [probe value] (by
      simp only [List.mem_cons, List.not_mem_nil, or_false] at one
      rcases one with rfl | rfl <;> simp [tails])

theorem seen_makes (seen : Seen readings whole) {sect : Str} (member : sect ∈ names) :
    replay unbound (assignments (makes sect readings)) =
      replay unbound (assignments (makes sect [whole])) := by
  have binds := seen.binds sect member [] (by simp [tails])
  change replay unbound (assignments (_ ++ [])) = replay unbound (assignments (_ ++ [])) at binds
  rwa [List.append_nil, List.append_nil] at binds

theorem replay_nothing {Key Value : Type} [DecidableEq Key] {entries : List (Key × Value)}
    (nothing : replay unbound (assignments entries) = unbound) : entries = [] := by
  rcases List.eq_nil_or_concat' entries with none | ⟨before, e, rfl⟩
  · exact none
  · have last := replay_concat unbound before e e.1
    rw [nothing, if_pos rfl] at last
    cases last

theorem header_forgets {name : Str} (member : .header name ∈ readings) (sect other : Str) :
    inForce sect readings = inForce other readings := by
  obtain ⟨before, after, rfl⟩ := List.append_of_mem member
  rw [inForce_append, inForce_append]
  rfl

theorem no_header (keeps : ∀ sect ∈ names, inForce sect readings = sect) (name : Str) :
    .header name ∉ readings := by
  intro member
  have same := header_forgets member [ch 'a'] [ch 'b']
  rw [keeps _ (by simp [names]), keeps _ (by simp [names])] at same
  exact absurd same (by decide)

theorem idle_of_makes {sect : Str} (named : sect ≠ []) (sound : Reading.fault ∉ readings)
    (headless : ∀ name, .header name ∉ readings) (nothing : makes sect readings = []) :
    ∀ read ∈ readings, Idle read := by
  induction readings with
  | nil => simp
  | cons read rest ih =>
    simp only [List.mem_cons, not_or] at sound headless
    intro x member
    have later := ih sound.2 fun name => (headless name).2
    cases read with
    | skip =>
      rcases List.mem_cons.mp member with rfl | inside
      · trivial
      · exact later nothing x inside
    | header name => exact absurd rfl (headless name).1
    | setting key value =>
      by_cases empty : key = []
      · rw [makes_setting rest (.inr empty)] at nothing
        rcases List.mem_cons.mp member with rfl | inside
        · exact empty
        · exact later nothing x inside
      · simp [makes, settled, assigned, named, empty] at nothing
    | fault => exact absurd rfl sound.1

theorem first_header {sect : Str} (named : sect ≠ []) (sound : Reading.fault ∉ readings)
    (nothing : makes sect readings = []) (leaves : inForce sect readings ≠ sect) :
    ∃ before first after, readings = before ++ .header first :: after ∧
      ∀ read ∈ before, Idle read := by
  induction readings with
  | nil => exact absurd rfl leaves
  | cons read rest ih =>
    simp only [List.mem_cons, not_or] at sound
    have extend (here : Idle read) (quiet : makes sect rest = [])
        (moves : inForce sect rest ≠ sect) : ∃ before first after,
          read :: rest = before ++ .header first :: after ∧ ∀ x ∈ before, Idle x := by
      obtain ⟨before, first, after, rfl, idle⟩ := ih sound.2 quiet moves
      refine ⟨read :: before, first, after, rfl, ?_⟩
      intro x member
      rcases List.mem_cons.mp member with rfl | inside
      · exact here
      · exact idle x inside
    cases read with
    | skip => exact extend trivial nothing leaves
    | header name => exact ⟨[], name, rest, rfl, by simp⟩
    | setting key value =>
      by_cases empty : key = []
      · rw [makes_setting rest (.inr empty)] at nothing
        exact extend empty nothing leaves
      · simp [makes, settled, assigned, named, empty] at nothing
    | fault => exact absurd rfl sound.1

def Single (readings : List Reading) : Prop :=
  ∀ before key value after, readings = before ++ .setting key value :: after →
    ∀ k v, .setting k v ∉ before ++ after

theorem seen_header {name : Str} (seen : Seen readings (.header name)) :
    Alike readings (.header name) := by
  obtain ⟨sect, member, differs⟩ : ∃ sect ∈ names, name ≠ sect := by
    by_cases same : name = [ch 'a']
    · exact ⟨[ch 'b'], by simp [names], by rw [same]; decide⟩
    · exact ⟨[ch 'a'], by simp [names], same⟩
  have named : sect ≠ [] := by
    simp only [names, List.mem_cons, List.not_mem_nil, or_false] at member
    rcases member with rfl | rfl <;> simp
  have ends : inForce sect readings = name := seen_ends seen member
  have nothing := replay_nothing (seen_makes seen member)
  obtain ⟨before, start, after, rfl, idle⟩ :=
    first_header named seen.sound nothing (by rw [ends]; exact differs)
  refine ⟨before, start, after, rfl, idle, (returns_iff ..).mpr ⟨?_, ?_, ?_⟩⟩
  · have sound := seen.sound
    simp only [List.mem_append, List.mem_cons, not_or] at sound
    exact sound.2.2
  · rw [inForce_append] at ends
    exact ends
  · rw [makes_append] at nothing
    exact (List.append_eq_nil_iff.mp nothing).2

theorem single_alike {before after : List Reading} {key value : Str}
    (sound : Reading.fault ∉ before ++ .setting key value :: after)
    (headless : ∀ name, .header name ∉ before ++ .setting key value :: after)
    (single : Single (before ++ .setting key value :: after)) :
    Alike (before ++ .setting key value :: after) (.setting key value) := by
  refine ⟨before, after, rfl, ?_⟩
  intro other inside
  have outside : other ∈ before ++ .setting key value :: after := by
    rcases List.mem_append.mp inside with front | back
    · exact List.mem_append_left _ front
    · exact List.mem_append_right _ (List.mem_cons_of_mem _ back)
  cases other with
  | skip => trivial
  | header name => exact absurd outside (headless name)
  | setting k v => exact absurd inside (single before key value after rfl k v)
  | fault => exact absurd outside sound

theorem makes_one {sect key : Str} (named : sect ≠ []) (filled : key ≠ []) (value : Str) :
    makes sect [.setting key value] = [] ++ [((sect, key), value)] := by
  simp [makes, settled, assigned, named, filled]

theorem seen_setting {key value : Str} (seen : Seen readings (.setting key value))
    (filled : key ≠ []) (single : Single readings) : Alike readings (.setting key value) := by
  have named : [ch 'a'] ≠ [] := by simp
  have headless := no_header fun sect member => seen_ends seen member
  have binds := seen_makes seen (show [ch 'a'] ∈ names by simp [names])
  rw [makes_one named filled] at binds
  -- something binds the key, so that not all readings are idle
  obtain ⟨read, member, busy⟩ : ∃ read ∈ readings, ¬ Idle read := by
    by_contra idle
    push Not at idle
    have same := congrFun binds ([ch 'a'], key)
    rw [replay_concat, if_pos rfl, (idle_same idle).makes] at same
    cases same
  obtain ⟨before, after, rfl⟩ := List.append_of_mem member
  cases read with
  | skip => exact absurd trivial busy
  | header name => exact absurd member (headless name)
  | fault => exact absurd member seen.sound
  | setting k v =>
    have alike := single_alike seen.sound headless single
    rw [(alike_same alike).makes, makes_one named busy] at binds
    have same := congrFun binds ([ch 'a'], k)
    rw [replay_concat, replay_concat, if_pos rfl] at same
    split at same
    · rename_i here
      obtain rfl : k = key := (Prod.mk.inj here).2
      obtain rfl := Option.some.inj same
      exact alike
    · cases same

theorem seen_alike (seen : Seen readings whole) (fine : whole ≠ .fault)
    (single : ∀ key value, whole = .setting key value → key ≠ [] ∧ Single readings) :
    Alike readings whole := by
  cases whole with
  | skip =>
    have headless := no_header fun sect member => seen_ends seen member
    have nothing := replay_nothing (seen_makes seen (show [ch 'a'] ∈ names by simp [names]))
    exact idle_of_makes (by simp) seen.sound headless nothing
  | header name => exact seen_header seen
  | setting key value =>
    obtain ⟨filled, one⟩ := single key value rfl
    exact seen_setting seen filled one
  | fault => exact absurd rfl fine

end Contexts

section Shapes

theorem chunks_flatten (content : Str) : (chunks content).flatten = content := by
  induction length : content.length using Nat.strong_induction_on generalizing content with
  | _ n ih =>
    subst length
    cases content with
    | nil => rfl
    | cons c rest =>
      have shorter := readLine_progress (BUFF_LEN - 2) c rest
      have whole := (readLine_parts (BUFF_LEN - 1) (c :: rest)).2
      have later := ih _ (Nat.lt_succ_of_le shorter) _ rfl
      rw [chunks_next, List.flatten_cons]
      exact (congrArg _ later).trans whole

/-- What a reading as a setting says about the characters. -/
theorem setting_text {buf key value : Str} (read : reading buf = .setting key value) :
    (trimmed blanks (cstr buf)).head? ≠ some (ch '#') ∧
      (trimmed blanks (cstr buf)).head? ≠ some (ch '[') ∧ ch '=' ∈ buf := by
  simp only [reading, head_nonzero (show ch '#' ≠ 0 by decide),
    head_nonzero (show ch '[' ≠ 0 by decide)] at read
  by_cases comment : (trimmed blanks (cstr buf)).head? = some (ch '#')
  · rw [if_pos comment] at read
    cases read
  by_cases header : (trimmed blanks (cstr buf)).head? = some (ch '[')
  · rw [if_neg comment, if_pos header] at read
    split at read <;> cases read
  by_cases equals : ch '=' ∈ trimmed blanks (cstr buf)
  · exact ⟨comment, header,
      (List.takeWhile_prefix _).subset ((mem_trimmed (by decide)).mp equals)⟩
  · rw [if_neg comment, if_neg header, if_neg equals] at read
    cases read

theorem single_of_count {line : Str} (once : line.count (ch '=') = 1) :
    Single ((chunks line).map reading) := by
  intro before key value after split k v member
  obtain ⟨front, rest, whole, rfl, back⟩ := List.map_eq_append_iff.mp split
  obtain ⟨piece, others, rfl, read, rfl⟩ := List.map_eq_cons_iff.mp back
  rw [← List.map_append] at member
  obtain ⟨other, inside, also⟩ := List.mem_map.mp member
  have here : 0 < piece.count (ch '=') := List.count_pos_iff.mpr (setting_text read).2.2
  have there : 0 < (front.flatten ++ others.flatten).count (ch '=') := by
    rw [← List.flatten_append]
    exact List.count_pos_iff.mpr (List.mem_flatten.mpr ⟨other, inside, (setting_text also).2.2⟩)
  rw [← chunks_flatten line, whole, List.flatten_append, List.flatten_cons, List.count_append,
    List.count_append] at once
  rw [List.count_append] at there
  omega

theorem shaped_single {line key value : Str} (well : WellFormed line)
    (read : reading line = .setting key value) :
    key ≠ [] ∧ Single ((chunks line).map reading) := by
  obtain ⟨notComment, notHeader, equals⟩ := setting_text read
  have noNul := well.noNul
  rw [cstr_whole noNul] at notComment notHeader
  cases well.shaped with
  | blank empty =>
    rw [← mem_trimmed (by decide), empty] at equals
    cases equals
  | comment first => exact absurd first notComment
  | header first closed => exact absurd first notHeader
  | @setting k v keyEquals valueEquals keyFilled valueFilled =>
    obtain ⟨start, split, filled, _, _, head⟩ := @trimmed_setting k v keyFilled
    rw [split, List.head?_append_of_ne_nil _ filled, head] at notComment notHeader
    constructor
    · rw [reading_pieces ⟨keyEquals, keyFilled, notComment, notHeader⟩ noNul] at read
      split at read
      · cases read
      · cases read
        exact keyFilled
    · apply single_of_count
      rw [List.count_append, List.count_cons_self, List.count_eq_zero.mpr keyEquals,
        List.count_eq_zero.mpr valueEquals]

theorem shaped_sound {line : Str} (well : WellFormed line) : reading line ≠ .fault := by
  rw [reading_splits]
  unfold Splits
  rw [cstr_whole well.noNul]
  cases well.shaped with
  | blank empty => exact .inr (.inr (.inl (by simp [empty])))
  | comment first => exact .inl first
  | header first closed => exact .inr (.inl first)
  | @setting k v keyEquals valueEquals keyFilled valueFilled =>
    obtain ⟨start, split, filled, inside, _, _⟩ := @trimmed_setting k v keyFilled
    rw [split]
    refine .inr (.inr (.inr ⟨start, _, rfl, ?_, ?_⟩))
    · obtain ⟨c, member⟩ := List.exists_mem_of_ne_nil _ filled
      exact ⟨c, member, fun same => keyEquals (same ▸ inside c member)⟩
    · obtain ⟨c, member⟩ := List.exists_mem_of_ne_nil _ valueFilled
      have kept := (List.dropWhile_suffix _).subset member
      have value := (List.rdropWhile_prefix _ v).subset kept
      exact ⟨c, kept, fun same => valueEquals (same ▸ value)⟩

theorem alike_self {whole : Reading} (fine : whole ≠ .fault) : Alike [whole] whole := by
  cases whole with
  | skip => simp [Alike, Idle]
  | header name => exact ⟨[], name, [], rfl, by simp, rfl⟩
  | setting key value => exact ⟨[], [], rfl, by simp⟩
  | fault => exact absurd rfl fine

theorem short_harmless {line : Str} (well : WellFormed line)
    (short : line.length ≤ BUFF_LEN - 1) : Harmless line := by
  by_cases empty : line = []
  · subst empty
    change Alike [] .skip
    simp [Alike]
  · have one : chunks line = [line] := by
      by_cases full : line.length = BUFF_LEN - 1
      · have cut := chunks_full well.noNewline full []
        rwa [List.append_nil] at cut
      · exact chunks_last well.noNewline empty (by omega)
    unfold Harmless
    rw [one]
    exact alike_self (shaped_sound well)

end Shapes

section Exposure

def joined (texts : List Str) : Str := [ch '\n'].intercalate texts

theorem joined_lines {texts : List Str} (some : texts ≠ [])
    (apart : ∀ line ∈ texts, ch '\n' ∉ line) : lines (joined texts) = texts :=
  List.splitOn_intercalate _ apart some

structure Short (line : Str) (read : Reading) : Prop where
  well : WellFormed line
  short : line.length ≤ BUFF_LEN - 1
  whole : reading line = read
  pieces : (chunks line).map reading = [read]

theorem opening_short : ∀ sect ∈ names, ∃ line, Short line (.header sect) := by
  intro sect member
  simp only [names, List.mem_cons, List.not_mem_nil, or_false] at member
  have shape (c : UInt8) (kept : c = ch 'a' ∨ c = ch 'b') :
      Short [ch '[', c, ch ']'] (.header [c]) := by
    rcases kept with rfl | rfl
    · exact ⟨⟨.header (by decide) (by decide), by decide, by decide⟩, by decide, by decide,
        by decide⟩
    · exact ⟨⟨.header (by decide) (by decide), by decide, by decide⟩, by decide, by decide,
        by decide⟩
  rcases member with rfl | rfl
  · exact ⟨_, shape (ch 'a') (.inl rfl)⟩
  · exact ⟨_, shape (ch 'b') (.inr rfl)⟩

structure Shorts (texts : List Str) (readings : List Reading) : Prop where
  well : ∀ other ∈ texts, WellFormed other ∧ other.length ≤ BUFF_LEN - 1
  whole : texts.map reading = readings
  pieces : cutReadings texts = readings

theorem shorts_one {line : Str} {read : Reading} (short : Short line read) :
    Shorts [line] [read] := by
  refine ⟨?_, by rw [List.map_singleton, short.whole], by simp [cutReadings, short.pieces]⟩
  intro other member
  rw [List.mem_singleton.mp member]
  exact ⟨short.well, short.short⟩

theorem tail_shorts : ∀ tail ∈ tails, ∃ after, Shorts after tail := by
  intro tail member
  simp only [tails, List.mem_cons, List.not_mem_nil, or_false] at member
  rcases member with rfl | rfl | rfl
  · exact ⟨[], by simp, rfl, rfl⟩
  · have shaped : Shaped ([ch 'q'] ++ ch '=' :: [ch '1']) :=
      .setting (by decide) (by decide) (by decide) (by decide)
    exact ⟨_, shorts_one ⟨⟨shaped, by decide, by decide⟩, by decide, by decide, by decide⟩⟩
  · have shaped : Shaped ([ch 'q'] ++ ch '=' :: [ch '2']) :=
      .setting (by decide) (by decide) (by decide) (by decide)
    exact ⟨_, shorts_one ⟨⟨shaped, by decide, by decide⟩, by decide, by decide, by decide⟩⟩

theorem makes_opened (sect : Str) (first tail : List Reading) :
    makes [] ([.header sect] ++ (first ++ tail)) =
      makes sect first ++ makes (inForce sect first) tail := by
  rw [makes_append, makes_append]
  rfl

theorem agrees_binds (host : Host) {files : Files} {fileName line start sect : Str}
    {after : List Str} {tail : List Reading} (well : WellFormed line)
    (opens : Short start (.header sect)) (ends : Shorts after tail)
    (held : files fileName = some (joined (start :: line :: after)))
    (agrees : Agrees host files (CIniFile.new fileName) (joined (start :: line :: after))) :
    Reading.fault ∉ (chunks line).map reading ∧
      replay unbound (assignments (makes sect ((chunks line).map reading) ++
        makes (inForce sect ((chunks line).map reading)) tail)) =
      replay unbound (assignments (makes sect [reading line] ++
        makes (inForce sect [reading line]) tail)) := by
  have apart : ∀ other ∈ start :: line :: after, ch '\n' ∉ other := by
    intro other member
    simp only [List.mem_cons] at member
    rcases member with rfl | rfl | inside
    · exact opens.well.noNewline
    · exact well.noNewline
    · exact (ends.well other inside).1.noNewline
  have split := joined_lines (by simp) apart
  have fresh : bindings (CIniFile.new fileName).mSection = unbound := empty_unbound
  have same : (CIniFile.new fileName).strFileName = fileName := rfl
  obtain ⟨sound, _, binds⟩ := (agrees_iff host (same ▸ held)).mp agrees
  have cut : cutReadings (start :: line :: after) =
      [.header sect] ++ ((chunks line).map reading ++ tail) := by
    rw [← ends.pieces, ← opens.pieces]
    rfl
  have read : (start :: line :: after).map reading =
      [.header sect] ++ ([reading line] ++ tail) := by
    rw [← ends.whole, ← opens.whole]
    rfl
  rw [wholeReadings, split, cut, read, makes_opened, makes_opened, fresh] at binds
  rw [split, cut] at sound
  simp only [List.mem_append, not_or] at sound
  exact ⟨sound.2.1, binds⟩

/-- Files of harmless lines are loaded as their whole lines read, and any other well formed
    line, between short ones, makes a file that is not. -/
theorem cut_lines_agree (host : Host) :
    (∀ (files : Files) (ini : CIniFile) (content : Str),
      files ini.strFileName = some content → (∀ line ∈ lines content, Harmless line) →
        Agrees host files ini content) ∧
    ∀ line, WellFormed line → ¬ Harmless line → ∃ before after : List Str,
      (∀ other ∈ before ++ after, WellFormed other ∧ other.length ≤ BUFF_LEN - 1) ∧
      ∀ (files : Files) (fileName : Str),
        files fileName = some (joined (before ++ line :: after)) →
          ¬ Agrees host files (CIniFile.new fileName) (joined (before ++ line :: after)) := by
  constructor
  · intro files ini content held harmless
    exact harmless_agrees host held harmless
  · intro line well harmful
    by_contra hidden
    push Not at hidden
    apply harmful
    have binds (sect : Str) (named : sect ∈ names) (tail : List Reading) (ending : tail ∈ tails) :
        Reading.fault ∉ (chunks line).map reading ∧
          replay unbound (assignments (makes sect ((chunks line).map reading) ++
            makes (inForce sect ((chunks line).map reading)) tail)) =
          replay unbound (assignments (makes sect [reading line] ++
            makes (inForce sect [reading line]) tail)) := by
      obtain ⟨start, opens⟩ := opening_short sect named
      obtain ⟨after, ends⟩ := tail_shorts tail ending
      obtain ⟨files, fileName, held, agrees⟩ := hidden [start] after (by
        intro other member
        rcases List.mem_cons.mp member with rfl | inside
        · exact ⟨opens.well, opens.short⟩
        · exact ends.well other inside)
      exact agrees_binds host well opens ends held agrees
    have seen : Seen ((chunks line).map reading) (reading line) := by
      refine ⟨(binds [ch 'a'] (by simp [names]) [] (by simp [tails])).1, ?_⟩
      intro sect named tail ending
      exact (binds sect named tail ending).2
    exact seen_alike seen (shaped_sound well) fun key value read => shaped_single well read

theorem trimmed_hash (rest : Str) : (trimmed blanks (ch '#' :: rest)).head? = some (ch '#') := by
  have split := @trimmed_split blanks [] rest (ch '#') (by simp) (by decide)
  rw [List.nil_append] at split
  rw [split]
  rfl

theorem reading_hash (rest : Str) : reading (ch '#' :: rest) = .skip := by
  have line : cstr (ch '#' :: rest) = ch '#' :: cstr rest :=
    List.takeWhile_cons_of_pos (by decide)
  apply reading_skips
  rw [line, trimmed_hash]

def filling : Str := ch '#' :: List.replicate (BUFF_LEN - 2) (ch 'x')

theorem comment_whole (rest : Str) : reading (filling ++ rest) = .skip := by
  rw [filling, List.cons_append, reading_hash]

theorem comment_cut {rest : Str} (noNewline : ch '\n' ∉ rest) (filled : rest ≠ [])
    (short : rest.length < BUFF_LEN - 1) :
    (chunks (filling ++ rest)).map reading = [.skip, reading rest] := by
  have apart : ch '\n' ∉ filling := by
    simp only [filling, List.mem_cons, List.mem_replicate, not_or]
    decide
  have full : filling.length = BUFF_LEN - 1 := by
    rw [filling, List.length_cons, List.length_replicate]
    rfl
  rw [chunks_full apart full, chunks_last noNewline filled short, List.map_cons, filling,
    reading_hash]
  rfl

theorem comment_well {rest : Str} (noNul : 0 ∉ rest) (noNewline : ch '\n' ∉ rest) :
    WellFormed (filling ++ rest) := by
  have outside (c : UInt8) (hash : c ≠ ch '#') (filler : c ≠ ch 'x') (tail : c ∉ rest) :
      c ∉ filling ++ rest := by
    simp only [filling, List.mem_append, List.mem_cons, List.mem_replicate, not_or, not_and]
    exact ⟨⟨hash, fun _ => filler⟩, tail⟩
  have shaped : Shaped (filling ++ rest) := by
    rw [filling, List.cons_append]
    exact .comment (trimmed_hash _)
  exact ⟨shaped, outside 0 (by decide) (by decide) noNul,
    outside (ch '\n') (by decide) (by decide) noNewline⟩

def longComment : Str := filling ++ [ch 'k', ch '=', ch 'v']

def quietComment : Str := filling ++ [ch '#']

theorem longComment_cut :
    (chunks longComment).map reading = [.skip, .setting [ch 'k'] [ch 'v']] := by
  rw [longComment, comment_cut (by decide) (by decide) (by decide)]
  rfl

theorem longComment_well : WellFormed longComment := comment_well (by decide) (by decide)

theorem longComment_harmful : ¬ Harmless longComment := by
  unfold Harmless
  rw [longComment_cut, longComment, comment_whole]
  intro harmless
  have idle : Idle (.setting [ch 'k'] [ch 'v']) := harmless _ (by simp)
  cases idle

/-- A header, a setting and a comment that fgets cuts. -/
def quietLines : List Str :=
  [[ch '[', ch 'a', ch ']'], [ch 'k'] ++ ch '=' :: [ch 'v'], quietComment]

theorem quietLines_harmless : ∀ line ∈ lines (joined quietLines), Harmless line := by
  have header : WellFormed [ch '[', ch 'a', ch ']'] :=
    ⟨.header (by decide) (by decide), by decide, by decide⟩
  have setting : WellFormed ([ch 'k'] ++ ch '=' :: [ch 'v']) :=
    ⟨.setting (by decide) (by decide) (by decide) (by decide), by decide, by decide⟩
  have quiet : WellFormed quietComment := comment_well (by decide) (by decide)
  have apart : ∀ line ∈ quietLines, ch '\n' ∉ line := by
    simp only [quietLines, List.forall_mem_cons]
    exact ⟨header.noNewline, setting.noNewline, quiet.noNewline, nofun⟩
  rw [joined_lines (by simp [quietLines]) apart]
  simp only [quietLines, List.forall_mem_cons]
  refine ⟨short_harmless header (by decide), short_harmless setting (by decide), ?_, nofun⟩
  unfold Harmless
  rw [quietComment, comment_cut (by decide) (by decide) (by decide), comment_whole, reading_hash]
  simp [Alike, Idle]

/-- A file with a cut but harmless line agrees with its lines, and a comment of more than a buffer
    can be shown. -/
theorem short_file_and_long_comment :
    Agrees ⟨32, by decide⟩ (fun _ => some (joined quietLines)) (CIniFile.new [ch 'f'])
      (joined quietLines) ∧
    ∃ before after : List Str,
      (∀ other ∈ before ++ after, WellFormed other ∧ other.length ≤ BUFF_LEN - 1) ∧
      ∀ (files : Files) (fileName : Str),
        files fileName = some (joined (before ++ longComment :: after)) →
          ¬ Agrees ⟨32, by decide⟩ files (CIniFile.new fileName)
            (joined (before ++ longComment :: after)) := by
  constructor
  · exact (cut_lines_agree ⟨32, by decide⟩).1 _ (CIniFile.new [ch 'f']) _ rfl quietLines_harmless
  · exact (cut_lines_agree ⟨32, by decide⟩).2 longComment longComment_well longComment_harmful

/-- The tail of a comment longer than the buffer is read as a setting. -/
theorem long_comment_sets_key :
    ¬ ∀ (host : Host) (files : Files) (ini : CIniFile) (content : Str),
      files ini.strFileName = some content → (∀ line ∈ lines content, WellFormed line) →
        Agrees host files ini content := by
  intro invisible
  obtain ⟨start, opens⟩ := opening_short [ch 'a'] (by simp [names])
  have well : ∀ line ∈ [start, longComment], WellFormed line := by
    intro line member
    simp only [List.mem_cons, List.not_mem_nil, or_false] at member
    rcases member with rfl | rfl
    · exact opens.well
    · exact longComment_well
  have split : lines (joined [start, longComment]) = [start, longComment] :=
    joined_lines (by simp) fun line member => (well line member).noNewline
  have ends : Shorts [] [] := ⟨by simp, rfl, rfl⟩
  have agrees := invisible ⟨32, by decide⟩ (fun _ => some (joined [start, longComment]))
    (CIniFile.new [ch 'f']) _ rfl (split.symm ▸ well)
  obtain ⟨_, binds⟩ := @agrees_binds ⟨32, by decide⟩ (fun _ => some (joined [start, longComment]))
    [ch 'f'] longComment start [ch 'a'] [] [] longComment_well opens ends rfl agrees
  rw [longComment_cut, longComment, comment_whole] at binds
  have shown := congrFun binds ([ch 'a'], [ch 'k'])
  exact absurd shown (by decide)

end Exposure

end IniBuffers
