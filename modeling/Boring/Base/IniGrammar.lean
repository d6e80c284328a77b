import Boring.Base.IniReadings

/- A grammar of the files of CIniFile: comments, section headers and settings, each on a
   line of its own. A setting is a key, the character '=' and any value; what such a file
   states is compared with what CIniFile::load makes of it. -/
namespace IniGrammar
open StringUtil Bindings IniFile IniBindings IniRoundTrip IniMerge IniReadings ListParts

inductive Entry where
  | comment (text : Str)
  | header (text : Str)
  | setting (key value : Str)

namespace Entry

def text : Entry → Str
  | .comment text => text
  | .header text => text
  | .setting key value => key ++ ch '=' :: value

def Formed : Entry → Prop
  | .comment text => (trimmed blanks text).head? = some (ch '#')
  | .header text => (trimmed blanks text).head? = some (ch '[') ∧ ch ']' ∈ text
  | .setting key value => ch '=' ∉ key ∧ trimmed blanks key ≠ [] ∧
      (trimmed blanks key).head? ≠ some (ch '#') ∧ (trimmed blanks key).head? ≠ some (ch '[') ∧
      trimmed blanks value ≠ []

/-- A line of the grammar that the buffer of `load` holds. -/
structure Fits (e : Entry) : Prop where
  formed : e.Formed
  noNewline : ch '\n' ∉ e.text
  noNul : 0 ∉ e.text
  short : e.text.length < BUFF_LEN - 1

end Entry

/-- The newline of the last line may be missing. -/
def fileOf (ended : Bool) : List Entry → Str
  | [] => []
  | [e] => if ended then e.text ++ [ch '\n'] else e.text
  | e :: next :: rest => e.text ++ ch '\n' :: fileOf ended (next :: rest)

def sectionName (text : Str) : Str := (trimmed blanks text).tail.takeWhile (· ≠ ch ']')

def stated : Option Str → List Entry → List ((Str × Str) × Str)
  | _, [] => []
  | sect, .comment _ :: rest => stated sect rest
  | _, .header text :: rest => stated (some (sectionName text)) rest
  | none, .setting _ _ :: rest => stated none rest
  | some sect, .setting key value :: rest =>
    ((sect, trimmed blanks key), value) :: stated (some sect) rest

/-- What the file states: for each section and key the last value, trimmed. -/
def expected (entries : List Entry) : Lookup (Str × Str) Str := fun p =>
  (replay unbound (assignments (stated none entries)) p).map (trimmed blanks)

theorem trimmed_core {s : Str} (nonempty : trimmed blanks s ≠ []) :
    ∃ front c back, s = front ++ c :: back ∧ (∀ x ∈ front, blanks.contains x = true) ∧
      blanks.contains c = false := by
  have isCore := core_drops (blanks.contains ·) s
  obtain ⟨front, back, whole, inFront, _⟩ := isCore.inside
  obtain ⟨c, rest, begins⟩ := List.exists_cons_of_ne_nil nonempty
  rw [trimmed] at begins
  refine ⟨front, c, rest ++ back, ?_, inFront, isCore.first c (by rw [begins]; rfl)⟩
  rw [begins] at whole
  rw [whole, List.append_assoc, List.cons_append]

/-- The value that a setting gets: the first piece between the characters '='. -/
def cutValue (value : Str) : Str :=
  trimmed blanks ((pieces (value.rdropWhile (blanks.contains ·)) (ch '=')).headD [])

def Filled (value : Str) : Prop := ∃ c ∈ value.rdropWhile (blanks.contains ·), c ≠ ch '='

theorem trimmed_setting {key value : Str} (nonempty : trimmed blanks key ≠ []) :
    ∃ start, trimmed blanks (key ++ ch '=' :: value) =
        start ++ ch '=' :: value.rdropWhile (blanks.contains ·) ∧
      start ≠ [] ∧ (∀ c ∈ start, c ∈ key) ∧ trimmed blanks start = trimmed blanks key ∧
        start.head? = (trimmed blanks key).head? := by
  obtain ⟨front, c, back, rfl, blank, kept⟩ := trimmed_core nonempty
  have equals : blanks.contains (ch '=') = false := by decide
  refine ⟨c :: back, ?_, by simp, ?_, ?_, ?_⟩
  · rw [List.append_assoc, List.cons_append, trimmed_split blank kept, rdropWhile_kept equals]
    rfl
  · intro x member
    exact List.mem_append_right _ member
  · rw [trimmed_split blank kept]
    exact @trimmed_split blanks [] back c (by simp) kept
  · rw [trimmed_split blank kept]
    rfl

structure KeyText (key : Str) : Prop where
  noEquals : ch '=' ∉ key
  nonempty : trimmed blanks key ≠ []
  notComment : (trimmed blanks key).head? ≠ some (ch '#')
  notHeader : (trimmed blanks key).head? ≠ some (ch '[')

theorem reading_pieces {key value : Str} (text : KeyText key)
    (noNul : 0 ∉ key ++ ch '=' :: value) : reading (key ++ ch '=' :: value) =
      match pieces (value.rdropWhile (blanks.contains ·)) (ch '=') with
      | [] => .fault
      | piece :: _ => .setting (trimmed blanks key) (trimmed blanks piece) := by
  have whole : cstr (key ++ ch '=' :: value) = key ++ ch '=' :: value := cstr_whole noNul
  obtain ⟨start, line, filled, inside, same, head⟩ := @trimmed_setting key value text.nonempty
  have first (c : UInt8) (nonzero : c ≠ 0) (differs : (trimmed blanks key).head? ≠ some c) :
      ¬ (start ++ ch '=' :: value.rdropWhile (blanks.contains ·)).headD 0 = c := by
    rw [head_nonzero nonzero, List.head?_append_of_ne_nil _ filled, head]
    exact differs
  have absent : ch '=' ∉ start := fun member => text.noEquals (inside _ member)
  have split : pieces (start ++ ch '=' :: value.rdropWhile (blanks.contains ·)) (ch '=') =
      start :: pieces (value.rdropWhile (blanks.contains ·)) (ch '=') :=
    pieces_first filled absent _
  simp only [reading, whole, line, if_neg (first _ (by decide) text.notComment),
    if_neg (first _ (by decide) text.notHeader), split]
  simp only [List.mem_append, List.mem_cons, true_or, or_true, if_true]
  cases pieces (value.rdropWhile (blanks.contains ·)) (ch '=') with
  | nil => rfl
  | cons piece rest => simp only [same]

theorem reading_hollow {key value : Str} (text : KeyText key)
    (noNul : 0 ∉ key ++ ch '=' :: value) :
    reading (key ++ ch '=' :: value) = .fault ↔ ¬ Filled value := by
  rw [reading_pieces text noNul]
  constructor
  · intro fails filled
    obtain ⟨piece, rest, split⟩ := List.exists_cons_of_ne_nil (pieces_nonempty filled)
    rw [split] at fails
    cases fails
  · intro hollow
    cases split : pieces (value.rdropWhile (blanks.contains ·)) (ch '=') with
    | nil => rfl
    | cons piece rest =>
      exact absurd (pieces_filled (split ▸ List.cons_ne_nil piece rest)) hollow

theorem reading_filled {key value : Str} (text : KeyText key)
    (noNul : 0 ∉ key ++ ch '=' :: value) (filled : Filled value) :
    reading (key ++ ch '=' :: value) = .setting (trimmed blanks key) (cutValue value) := by
  obtain ⟨piece, rest, split⟩ := List.exists_cons_of_ne_nil (pieces_nonempty filled)
  rw [reading_pieces text noNul, cutValue, split]
  rfl

section Entries

variable {entries : List Entry}

theorem reading_comment {text : Str} (fits : (Entry.comment text).Fits) :
    reading text = .skip := by
  apply reading_skips
  rw [show cstr text = text from cstr_whole fits.noNul]
  exact fits.formed

theorem reading_header {text : Str} (fits : (Entry.header text).Fits) :
    reading text = .header (sectionName text) := by
  obtain ⟨bracket, closed⟩ := fits.formed
  have line : cstr text = text := cstr_whole fits.noNul
  have first : (trimmed blanks text).headD 0 = ch '[' := (head_nonzero (by decide)).mpr bracket
  have differs : ch '[' ≠ ch '#' := by decide
  have inside : ch ']' ∈ trimmed blanks text := (mem_trimmed (by decide)).mpr closed
  simp only [reading, line, first, if_neg differs, if_true, if_pos inside, sectionName]

theorem keyText {key value : Str} (fits : (Entry.setting key value).Fits) : KeyText key := by
  obtain ⟨noEquals, nonempty, notComment, notHeader, _⟩ := fits.formed
  exact ⟨noEquals, nonempty, notComment, notHeader⟩

theorem entry_nonempty {e : Entry} (fits : e.Fits) : e.text ≠ [] := by
  have formed := fits.formed
  intro none
  cases e with
  | comment text =>
    obtain rfl : text = [] := none
    cases formed
  | header text =>
    obtain rfl : text = [] := none
    cases formed.1
  | setting key value => exact absurd none (by simp [Entry.text])

theorem file_readings (ended : Bool) (fits : ∀ e ∈ entries, e.Fits) :
    (chunks (fileOf ended entries)).map reading = entries.map fun e => reading e.text := by
  induction entries with
  | nil => rfl
  | cons e rest ih =>
    have here := fits e (by simp)
    have later := ih fun x member => fits x (by simp [member])
    have line (left : Str) := chunks_line here.noNewline here.short left
    cases rest with
    | nil =>
      cases ended with
      | true =>
        have whole : fileOf true [e] = e.text ++ ch '\n' :: [] := rfl
        rw [whole, line, List.map_cons, reading_newline]
        rfl
      | false =>
        have whole : fileOf false [e] = e.text := rfl
        rw [whole, chunks_last here.noNewline (entry_nonempty here) here.short]
        rfl
    | cons next rest =>
      have whole : fileOf ended (e :: next :: rest) =
        e.text ++ ch '\n' :: fileOf ended (next :: rest) := rfl
      rw [whole, line, List.map_cons, reading_newline, later]
      rfl

theorem entries_fault (fits : ∀ e ∈ entries, e.Fits) :
    Reading.fault ∉ entries.map (fun e => reading e.text) ↔
      ∀ key value, .setting key value ∈ entries → Filled value := by
  constructor
  · intro sound key value member
    by_contra hollow
    have here := fits _ member
    have fails := (reading_hollow (keyText here) here.noNul).mpr hollow
    exact sound (List.mem_map.mpr ⟨_, member, fails⟩)
  · intro filled member
    obtain ⟨e, inside, fails⟩ := List.mem_map.mp member
    cases e with
    | comment text => cases (reading_comment (fits _ inside)).symm.trans fails
    | header text => cases (reading_header (fits _ inside)).symm.trans fails
    | setting key value =>
      have here := fits _ inside
      exact (reading_hollow (keyText here) here.noNul).mp fails (filled key value inside)

/-- What the reader sets: what the file states outside the section without a name, each
    value cut at its second '='. -/
theorem entries_settled (fits : ∀ e ∈ entries, e.Fits)
    (filled : ∀ key value, .setting key value ∈ entries → Filled value) (sect : Option Str) :
    assigned (settled (sect.getD []) (entries.map fun e => reading e.text)) =
      ((stated sect entries).filter fun e => e.1.1 ≠ []).map fun e => (e.1, cutValue e.2) := by
  induction entries generalizing sect with
  | nil => rfl
  | cons e rest ih =>
    have here := fits e (by simp)
    have later := ih (fun x member => fits x (by simp [member]))
      (fun key value member => filled key value (by simp [member]))
    cases e with
    | comment text =>
      rw [List.map_cons, Entry.text, reading_comment here]
      exact later sect
    | header text =>
      rw [List.map_cons, Entry.text, reading_header here]
      exact later (some (sectionName text))
    | setting key value =>
      rw [List.map_cons, Entry.text,
        reading_filled (keyText here) here.noNul (filled key value (by simp))]
      have nonempty := here.formed.2.1
      cases sect with
      | none => exact later none
      | some sect =>
        have rest := later (some sect)
        rw [Option.getD_some] at rest ⊢
        by_cases named : sect = []
        · simp [settled, stated, named] at rest ⊢
          exact rest
        · simp only [settled, stated, assigned, if_pos named, List.filterMap_cons,
            if_neg nonempty] at rest ⊢
          simp [named, rest]

end Entries

theorem cutValue_whole {value : Str} (noEquals : ch '=' ∉ value) :
    cutValue value = trimmed blanks value := by
  have kept := List.rdropWhile_prefix (blanks.contains ·) value
  have absent : ch '=' ∉ value.rdropWhile (blanks.contains ·) := fun member =>
    noEquals (kept.subset member)
  rw [cutValue, pieces_whole absent]
  have first : ([value.rdropWhile (blanks.contains ·)].filter (· ≠ [])).headD [] =
      value.rdropWhile (blanks.contains ·) := by
    cases value.rdropWhile (blanks.contains ·) <;> rfl
  rw [first, trimmed, trimmed, List.rdropWhile_idempotent]

theorem cutValue_noEquals (value : Str) : ch '=' ∉ cutValue value := by
  intro member
  rw [cutValue, mem_trimmed (by decide)] at member
  cases split : pieces (value.rdropWhile (blanks.contains ·)) (ch '=') with
  | nil =>
    rw [split] at member
    cases member
  | cons piece rest =>
    rw [split, List.headD_cons] at member
    have inside : piece ∈ pieces (value.rdropWhile (blanks.contains ·)) (ch '=') := by
      rw [split]
      exact List.mem_cons_self
    exact piece_undelimited inside member

theorem cutValue_exact (value : Str) :
    cutValue value = trimmed blanks value ↔ ch '=' ∉ trimmed blanks value := by
  constructor
  · intro same
    rw [← same]
    exact cutValue_noEquals value
  · intro absent
    exact cutValue_whole fun member => absent ((mem_trimmed (by decide)).mpr member)

def obtained (entries : List Entry) : Lookup (Str × Str) Str := fun p =>
  if p.1 ≠ [] then (replay unbound (assignments (stated none entries)) p).map cutValue else none

theorem grammar_obtained (host : Host) {files : Files} {fileName : Str} {entries : List Entry}
    {ended : Bool} (fits : ∀ e ∈ entries, e.Fits)
    (content : files fileName = some (fileOf ended entries))
    (filled : ∀ key value, .setting key value ∈ entries → Filled value) :
    ∃ loaded, (CIniFile.new fileName).load host files = .ok (0, loaded) ∧
      bindings loaded.mSection = obtained entries := by
  have held : files (CIniFile.new fileName).strFileName = some (fileOf ended entries) := content
  have sound := (entries_fault fits).mpr filled
  have loads : (CIniFile.new fileName).load host files =
      .ok (0, { CIniFile.new fileName with
        mSection := setAll ∅ (settled [] (entries.map fun e => reading e.text)) }) := by
    rw [load_chunks host held, file_readings ended fits, followAll_settled sound]
    rfl
  refine ⟨_, loads, ?_⟩
  funext p
  have settles := entries_settled fits filled none
  rw [Option.getD_none] at settles
  have named := replay_keys (fun q : Str × Str => q.1 ≠ []) (stated none entries) p
  rw [setAll_bindings, empty_unbound, settles, replay_values, named]
  unfold obtained
  split <;> rfl

/-- A file of the grammar is loaded as it states exactly when the splitter finds something
    in each value, and the values it states for good hold no '=' and stand in a section
    with a name. -/
theorem grammar_loaded_iff (host : Host) {files : Files} {fileName : Str} {entries : List Entry}
    {ended : Bool} (fits : ∀ e ∈ entries, e.Fits)
    (content : files fileName = some (fileOf ended entries)) :
    (∃ loaded, (CIniFile.new fileName).load host files = .ok (0, loaded) ∧
      bindings loaded.mSection = expected entries) ↔
    (∀ key value, .setting key value ∈ entries → Filled value) ∧
      ∀ p value, expected entries p = some value → p.1 ≠ [] ∧ ch '=' ∉ value := by
  constructor
  · rintro ⟨loaded, loads, same⟩
    have held : files (CIniFile.new fileName).strFileName = some (fileOf ended entries) := content
    have filled : ∀ key value, .setting key value ∈ entries → Filled value := by
      rw [← entries_fault fits, ← file_readings ended fits]
      exact (load_sound host held).mp ⟨_, loads⟩
    obtain ⟨again, loadsAgain, binds⟩ := grammar_obtained host fits content filled
    obtain rfl : again = loaded := by
      rw [loadsAgain] at loads
      exact (Prod.mk.inj (Except.ok.inj loads)).2
    refine ⟨filled, ?_⟩
    intro p value states
    have bound : obtained entries p = some value := by
      rw [← binds, same, states]
    unfold obtained at bound
    unfold expected at states
    obtain ⟨raw, last, rfl⟩ := Option.map_eq_some_iff.mp states
    rw [last] at bound
    split at bound
    · rename_i named
      exact ⟨named, (cutValue_exact raw).mp (Option.some.inj bound)⟩
    · cases bound
  · rintro ⟨filled, exact⟩
    obtain ⟨loaded, loads, binds⟩ := grammar_obtained host fits content filled
    refine ⟨loaded, loads, binds.trans ?_⟩
    funext p
    have states := exact p
    unfold expected obtained at *
    cases last : replay unbound (assignments (stated none entries)) p with
    | none => simp
    | some raw =>
      obtain ⟨named, noEquals⟩ := states (trimmed blanks raw) (by rw [last]; rfl)
      simp [named, (cutValue_exact raw).mpr noEquals]

def plainEntries : List Entry :=
  [.comment [ch '#'], .header [ch '[', ch 's', ch ']'], .setting [ch 'u'] [ch ' ', ch 'a']]

theorem plain_entries_loaded :
    ∃ loaded, (CIniFile.new [ch 'f']).load ⟨32, by decide⟩
        (fun _ => some (fileOf true plainEntries)) = .ok (0, loaded) ∧
      bindings loaded.mSection = expected plainEntries := by
  have fits : ∀ e ∈ plainEntries, e.Fits := by
    intro e member
    simp only [plainEntries, List.mem_cons, List.not_mem_nil, or_false] at member
    rcases member with rfl | rfl | rfl
    · exact ⟨rfl, by decide, by decide, by decide⟩
    · exact ⟨⟨by decide, by decide⟩, by decide, by decide, by decide⟩
    · exact ⟨⟨by decide, by decide, by decide, by decide, by decide⟩, by decide, by decide,
        by decide⟩
  refine (@grammar_loaded_iff ⟨32, by decide⟩ (fun _ => some (fileOf true plainEntries)) [ch 'f']
    plainEntries true fits rfl).mpr ⟨?_, ?_⟩
  · intro key value member
    simp only [plainEntries, List.mem_cons, List.not_mem_nil, or_false, reduceCtorEq,
      Entry.setting.injEq, false_or] at member
    obtain ⟨rfl, rfl⟩ := member
    exact ⟨ch 'a', by decide, by decide⟩
  · intro p value states
    have one := replay_concat unbound [] (([ch 's'], [ch 'u']), [ch ' ', ch 'a']) p
    obtain ⟨raw, last, rfl⟩ := Option.map_eq_some_iff.mp states
    have same := one.symm.trans last
    split at same
    · rename_i here
      obtain rfl := Option.some.inj same
      exact ⟨by rw [here]; decide, by decide⟩
    · cases same

def addressEntries : List Entry :=
  [.header [ch '[', ch 's', ch ']'], .setting [ch 'u'] [ch 'a', ch '=', ch 'b']]

/-- What follows the second '=' of a line is lost. -/
theorem second_equals_cuts_value :
    ¬ ∀ (host : Host) (files : Files) (fileName : Str) (entries : List Entry) (ended : Bool),
      (∀ e ∈ entries, e.Fits) → files fileName = some (fileOf ended entries) →
        ∃ loaded, (CIniFile.new fileName).load host files = .ok (0, loaded) ∧
          bindings loaded.mSection = expected entries := by
  intro faithful
  have fits : ∀ e ∈ addressEntries, e.Fits := by
    intro e member
    simp only [addressEntries, List.mem_cons, List.not_mem_nil, or_false] at member
    rcases member with rfl | rfl
    · exact ⟨⟨by decide, by decide⟩, by decide, by decide, by decide⟩
    · exact ⟨⟨by decide, by decide, by decide, by decide, by decide⟩, by decide, by decide,
        by decide⟩
  obtain ⟨loaded, loads, same⟩ := faithful ⟨32, by decide⟩
    (fun _ => some (fileOf true addressEntries)) [ch 'f'] addressEntries true fits rfl
  have read : ((CIniFile.new [ch 'f']).load ⟨32, by decide⟩
      fun _ => some (fileOf true addressEntries)).toOption.bind
        (fun r => bindings r.2.mSection ([ch 's'], [ch 'u'])) = some [ch 'a'] := rfl
  rw [loads] at read
  change bindings loaded.mSection ([ch 's'], [ch 'u']) = some [ch 'a'] at read
  have whole : expected addressEntries ([ch 's'], [ch 'u']) =
      some [ch 'a', ch '=', ch 'b'] := rfl
  rw [same, whole] at read
  cases read

end IniGrammar
