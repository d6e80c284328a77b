import Boring.Base.IniMerge

/- What one turn of the loop of CIniFile::load makes of the characters in its buffer, and
   the pieces of the file that fgets puts there. Positions no longer matter: a buffer is
   shorter than any size_t can count. -/
namespace IniReadings
open StringUtil Bindings IniFile IniBindings IniRoundTrip IniMerge ListParts

inductive Reading where
  | skip
  | header (name : Str)
  | setting (key value : Str)
  | fault
  deriving DecidableEq

def reading (buf : Str) : Reading :=
  let line := trimmed blanks (cstr buf)
  if line.headD 0 = ch '#' then .skip
  else if line.headD 0 = ch '[' then
    if ch ']' ∈ line then .header (line.tail.takeWhile (· ≠ ch ']')) else .skip
  else if ch '=' ∈ line then
    match pieces line (ch '=') with
    | key :: value :: _ => .setting (trimmed blanks key) (trimmed blanks value)
    | _ => .fault
  else .skip

def follow (st : Str × Map Config) : Reading → Except Fault (Str × Map Config)
  | .skip => .ok st
  | .header name => .ok (name, st.2)
  | .setting key value => .ok (st.1, if st.1 ≠ [] then setIn st.2 st.1 key value else st.2)
  | .fault => .error .outOfBounds

def followAll (st : Str × Map Config) (readings : List Reading) :
    Except Fault (Str × Map Config) :=
  readings.foldlM follow st

/-- What fgets reads of the rest of a file, call after call. -/
def chunksFrom : Nat → Str → List Str
  | 0, _ => []
  | fuel + 1, rest =>
    match fgets BUFF_LEN rest with
    | none => []
    | some (buf, rest, _) => buf :: chunksFrom fuel rest

def chunks (content : Str) : List Str := chunksFrom (content.length + 1) content

theorem trimmed_unblanked (s : Str) : Unblanked (trimmed blanks s) := by
  have isCore := core_drops (blanks.contains ·) s
  constructor
  · intro c first
    simpa using isCore.first c first
  · intro c last
    simpa using isCore.last c last

theorem trimmed_twice (s : Str) : trimmed blanks (trimmed blanks s) = trimmed blanks s :=
  trimmed_self (trimmed_unblanked s)

theorem mem_trimmed {s : Str} {c : UInt8} (kept : blanks.contains c = false) :
    c ∈ trimmed blanks s ↔ c ∈ s := by
  constructor
  · intro member
    exact trimmed_subset blanks s member
  · intro member
    obtain ⟨front, back, whole, inFront, inBack⟩ := (core_drops (blanks.contains ·) s).inside
    have inside := (congrArg (c ∈ ·) whole).mp member
    simp only [List.mem_append] at inside
    rcases inside with (before | core) | behind
    · rw [inFront c before] at kept
      cases kept
    · exact core
    · rw [inBack c behind] at kept
      cases kept

theorem takeWhile_until {before : Str} {c : UInt8} (absent : c ∉ before) (rest : Str) :
    (before ++ c :: rest).takeWhile (· ≠ c) = before := by
  rw [List.takeWhile_append_of_pos]
  · simp
  · intro x member
    have differs : x ≠ c := fun same => absent (same ▸ member)
    simpa using differs

theorem cstr_length (s : Str) : (cstr s).length ≤ s.length :=
  (List.takeWhile_prefix _).length_le

variable {host : Host}

theorem findFirstOf_found {s : Str} {c : UInt8} (fits : s.length < npos host) :
    findFirstOf host s [c] ≠ npos host ↔ c ∈ s := by
  constructor
  · intro position
    by_contra absent
    apply position
    rw [findFirstOf, findIdx_absent absent]
    rfl
  · intro member
    obtain ⟨before, after, rfl, absent⟩ := List.eq_append_cons_of_mem member
    rw [findFirstOf_split absent]
    rw [List.length_append] at fits
    omega

theorem loadLine_reading {buf : Str} (fits : buf.length < npos host) (sect : Str)
    (mSection : Map Config) :
    loadLine host sect mSection buf = follow (sect, mSection) (reading buf) := by
  have cut : (cstr buf).length < npos host := Nat.lt_of_le_of_lt (cstr_length buf) fits
  have inside : (trimmed blanks (cstr buf)).length < npos host :=
    Nat.lt_of_le_of_lt (trimmed_length ..) cut
  have twice := trimmed_twice (cstr buf)
  simp only [loadLine, reading, trim_ok cut, bind, Except.bind]
  generalize trimmed blanks (cstr buf) = line at *
  by_cases comment : line.headD 0 = ch '#'
  · simp only [if_pos comment, follow]
  by_cases header : line.headD 0 = ch '['
  · simp only [if_neg comment, if_pos header]
    by_cases closed : ch ']' ∈ line
    · rw [if_pos ((findFirstOf_found inside).mpr closed), if_pos closed]
      obtain ⟨before, after, rfl, absent⟩ := List.eq_append_cons_of_mem closed
      obtain ⟨first, name, rfl⟩ : ∃ first name, before = first :: name := by
        cases before with
        | nil =>
          change ch ']' = ch '[' at header
          exact absurd header (by decide)
        | cons first name => exact ⟨first, name, rfl⟩
      have read : (name ++ ch ']' :: after).takeWhile (· ≠ ch ']') = name :=
        takeWhile_until (List.not_mem_of_not_mem_cons absent) after
      rw [findFirstOf_split absent]
      simp only [List.cons_append, List.tail_cons, read, follow]
      simp [substr]
    · rw [if_neg fun position => closed ((findFirstOf_found inside).mp position), if_neg closed]
      rfl
  · simp only [if_neg comment, if_neg header]
    by_cases equals : ch '=' ∈ line
    · rw [if_pos ((findFirstOf_found inside).mpr equals), if_pos equals]
      simp only [trim_ok inside, twice, str2vector_ok _ inside]
      have short (piece : Str) (member : piece ∈ pieces line (ch '=')) :
          piece.length < npos host := Nat.lt_of_le_of_lt (piece_length member) inside
      rcases split : pieces line (ch '=') with _ | ⟨key, _ | ⟨value, rest⟩⟩
      · rfl
      · simp only [index, List.getElem?_cons_zero, trim_ok (short key (by simp [split]))]
        rfl
      · simp only [index, List.getElem?_cons_zero, List.getElem?_cons_succ,
          trim_ok (short key (by simp [split])), trim_ok (short value (by simp [split])), follow]
        split <;> rfl
    · rw [if_neg fun position => equals ((findFirstOf_found inside).mp position), if_neg equals]
      rfl

theorem readLine_ended {count : Nat} {rest : Str} (ended : (readLine count rest).2.2 = true) :
    (readLine count rest).2.1 = [] := by
  induction count generalizing rest with
  | zero => simp [readLine] at ended
  | succ count ih =>
    cases rest with
    | nil => rfl
    | cons c rest =>
      by_cases newline : c = ch '\n'
      · simp [readLine, newline] at ended
      · simp only [readLine, if_neg newline] at ended ⊢
        exact ih ended

theorem readLine_parts (count : Nat) (rest : Str) :
    (readLine count rest).1.length ≤ count ∧
      (readLine count rest).1 ++ (readLine count rest).2.1 = rest := by
  induction count generalizing rest with
  | zero => exact ⟨Nat.le_refl 0, rfl⟩
  | succ count ih =>
    cases rest with
    | nil => exact ⟨Nat.zero_le _, rfl⟩
    | cons c rest =>
      by_cases newline : c = ch '\n'
      · simp [readLine, newline]
      · obtain ⟨short, whole⟩ := ih rest
        simp only [readLine, if_neg newline, List.length_cons, List.cons_append, whole]
        exact ⟨Nat.succ_le_succ short, trivial⟩

theorem readLine_progress (count : Nat) (c : UInt8) (rest : Str) :
    (readLine (count + 1) (c :: rest)).2.1.length ≤ rest.length := by
  have whole := congrArg List.length (readLine_parts (count + 1) (c :: rest)).2
  have some : 0 < (readLine (count + 1) (c :: rest)).1.length := by
    unfold readLine
    split <;> simp
  rw [List.length_append, List.length_cons] at whole
  omega

theorem loadLoop_ended (fuel : Nat) (eof : Bool) (sect : Str) (mSection : Map Config) :
    loadLoop host fuel [] eof sect mSection = loadLoop host fuel [] false sect mSection := by
  cases fuel with
  | zero => rfl
  | succ fuel => cases eof <;> rfl

/-- The loop of `load` follows the readings of the pieces that fgets returns. -/
theorem loadLoop_chunks {fuel : Nat} {rest : Str} (enough : rest.length < fuel) (sect : Str)
    (mSection : Map Config) : loadLoop host fuel rest false sect mSection =
      (followAll (sect, mSection) ((chunksFrom fuel rest).map reading)).map Prod.snd := by
  induction fuel generalizing rest sect mSection with
  | zero => omega
  | succ fuel ih =>
    cases rest with
    | nil => rfl
    | cons c rest =>
      have got : fgets BUFF_LEN (c :: rest) = some (readLine (BUFF_LEN - 1) (c :: rest)) := rfl
      have short := (readLine_parts (BUFF_LEN - 1) (c :: rest)).1
      have shorter := readLine_progress (BUFF_LEN - 2) c rest
      have ended := @readLine_ended (BUFF_LEN - 1) (c :: rest)
      simp only [BUFF_LEN] at shorter got short ended
      simp only [loadLoop, chunksFrom, BUFF_LEN, got]
      generalize readLine (1024 - 1) (c :: rest) = piece at *
      obtain ⟨buf, left, eof⟩ := piece
      have fits : buf.length < npos host := buffer_fits short
      simp only [Bool.false_eq_true, if_false, loadLine_reading fits, List.map_cons, followAll,
        List.foldlM_cons, bind, Except.bind]
      cases follow (sect, mSection) (reading buf) with
      | error fault => rfl
      | ok st =>
        have same : loadLoop host fuel left eof st.1 st.2 =
            loadLoop host fuel left false st.1 st.2 := by
          cases eof with
          | false => rfl
          | true =>
            obtain rfl := ended rfl
            exact loadLoop_ended ..
        have less : left.length ≤ rest.length := shorter
        have left : left.length < fuel := by
          simp only [List.length_cons] at enough
          omega
        simp only [same]
        exact ih left st.1 st.2

theorem load_chunks (host : Host) {files : Files} {ini : CIniFile} {content : Str}
    (held : files ini.strFileName = some content) : ini.load host files =
      (followAll ([], ini.mSection) ((chunks content).map reading)).map fun st =>
        (0, { ini with mSection := st.2 }) := by
  simp only [CIniFile.load, held, loadLoop_chunks (Nat.lt_succ_self content.length), chunks]
  cases followAll ([], ini.mSection)
    ((chunksFrom (content.length + 1) content).map reading) <;> rfl

theorem follow_ok (st : Str × Map Config) (read : Reading) :
    (∃ after, follow st read = .ok after) ↔ read ≠ .fault := by
  cases read <;> simp [follow]

theorem followAll_ok (st : Str × Map Config) (readings : List Reading) :
    (∃ after, followAll st readings = .ok after) ↔ Reading.fault ∉ readings := by
  induction readings generalizing st with
  | nil => simp [followAll, pure, Except.pure]
  | cons read rest ih =>
    rw [followAll, List.foldlM_cons, List.mem_cons, not_or, ← ne_eq, ne_comm, ← follow_ok st]
    constructor
    · rintro ⟨after, run⟩
      cases step : follow st read with
      | error fault =>
        rw [step] at run
        cases run
      | ok middle =>
        rw [step] at run
        exact ⟨⟨middle, rfl⟩, (ih middle).mp ⟨after, run⟩⟩
    · rintro ⟨⟨middle, step⟩, others⟩
      rw [step]
      exact (ih middle).mpr others

def inForce : Str → List Reading → Str
  | sect, [] => sect
  | _, .header name :: rest => inForce name rest
  | sect, _ :: rest => inForce sect rest

def settled : Str → List Reading → List Triple
  | _, [] => []
  | _, .header name :: rest => settled name rest
  | sect, .setting key value :: rest =>
    if sect ≠ [] then (sect, key, value) :: settled sect rest else settled sect rest
  | sect, _ :: rest => settled sect rest

theorem inForce_append (sect : Str) (first second : List Reading) :
    inForce sect (first ++ second) = inForce (inForce sect first) second := by
  induction first generalizing sect with
  | nil => rfl
  | cons read rest ih => cases read <;> exact ih _

theorem settled_append (sect : Str) (first second : List Reading) :
    settled sect (first ++ second) =
      settled sect first ++ settled (inForce sect first) second := by
  induction first generalizing sect with
  | nil => rfl
  | cons read rest ih =>
    cases read with
    | skip => exact ih sect
    | header name => exact ih name
    | setting key value =>
      have later := ih sect
      simp only [List.cons_append, settled, inForce]
      split <;> simp [later]
    | fault => exact ih sect

theorem followAll_settled {readings : List Reading} (sound : Reading.fault ∉ readings)
    (sect : Str) (mSection : Map Config) : followAll (sect, mSection) readings =
      .ok (inForce sect readings, setAll mSection (settled sect readings)) := by
  induction readings generalizing sect mSection with
  | nil => rfl
  | cons read rest ih =>
    simp only [List.mem_cons, not_or] at sound
    have later := ih sound.2
    cases read with
    | skip => exact later sect mSection
    | header name => exact later name mSection
    | setting key value =>
      refine (later sect (if sect ≠ [] then setIn mSection sect key value else mSection)).trans ?_
      simp only [settled, inForce]
      split <;> rfl
    | fault => exact absurd rfl sound.1

theorem chunksFrom_fuel {fuel other : Nat} {rest : Str} (enough : rest.length < fuel)
    (also : rest.length < other) : chunksFrom fuel rest = chunksFrom other rest := by
  induction fuel generalizing other rest with
  | zero => omega
  | succ fuel ih =>
    obtain ⟨other, rfl⟩ : ∃ n, other = n + 1 := ⟨other - 1, by omega⟩
    cases rest with
    | nil => rfl
    | cons c rest =>
      have shorter := readLine_progress (BUFF_LEN - 2) c rest
      simp only [List.length_cons] at enough also
      change _ :: chunksFrom fuel _ = _ :: chunksFrom other _
      congr 1
      apply ih
      · exact Nat.lt_of_le_of_lt shorter (by omega)
      · exact Nat.lt_of_le_of_lt shorter (by omega)

theorem chunks_next (c : UInt8) (rest : Str) : chunks (c :: rest) =
    (readLine (BUFF_LEN - 1) (c :: rest)).1 ::
      chunks (readLine (BUFF_LEN - 1) (c :: rest)).2.1 := by
  have shorter := readLine_progress (BUFF_LEN - 2) c rest
  have first : chunks (c :: rest) = (readLine (BUFF_LEN - 1) (c :: rest)).1 ::
      chunksFrom (rest.length + 1) (readLine (BUFF_LEN - 1) (c :: rest)).2.1 := rfl
  rw [first]
  congr 1
  exact chunksFrom_fuel (Nat.lt_succ_of_le shorter) (Nat.lt_succ_self _)

theorem chunks_line {body : Str} (noNewline : ch '\n' ∉ body) (short : body.length < BUFF_LEN - 1)
    (rest : Str) : chunks (body ++ ch '\n' :: rest) = (body ++ [ch '\n']) :: chunks rest := by
  obtain ⟨c, tail, same⟩ := List.exists_cons_of_ne_nil
    (show body ++ ch '\n' :: rest ≠ [] by simp)
  rw [same, chunks_next, ← same, readLine_line noNewline rest short]

theorem readLine_all {body : Str} (noNewline : ch '\n' ∉ body) {count : Nat}
    (room : body.length < count) : readLine count body = (body, [], true) := by
  induction body generalizing count with
  | nil =>
    obtain ⟨n, rfl⟩ : ∃ n, count = n + 1 := ⟨count - 1, by simp at room; omega⟩
    rfl
  | cons c body ih =>
    obtain ⟨n, rfl⟩ : ∃ n, count = n + 1 := ⟨count - 1, by simp at room; omega⟩
    simp only [List.mem_cons, not_or] at noNewline
    simp only [List.length_cons, Nat.add_lt_add_iff_right] at room
    simp [readLine, Ne.symm noNewline.1, ih noNewline.2 room]

theorem chunks_last {body : Str} (noNewline : ch '\n' ∉ body) (nonempty : body ≠ [])
    (short : body.length < BUFF_LEN - 1) : chunks body = [body] := by
  obtain ⟨c, tail, rfl⟩ := List.exists_cons_of_ne_nil nonempty
  rw [chunks_next, readLine_all noNewline short]
  rfl

theorem reading_newline (body : Str) : reading (body ++ [ch '\n']) = reading body := by
  have same : trimmed blanks (cstr (body ++ [ch '\n'])) = trimmed blanks (cstr body) := by
    by_cases nul : (0 : UInt8) ∈ body
    · obtain ⟨before, after, rfl, absent⟩ := List.eq_append_cons_of_mem nul
      have cut (rest : Str) : cstr (before ++ 0 :: rest) = before := takeWhile_until absent rest
      rw [List.append_assoc, List.cons_append, cut, cut]
    · have whole : (0 : UInt8) ∉ body ++ [ch '\n'] := by
        simpa [ch] using nul
      rw [cstr_whole nul, cstr_whole whole, trimmed_line]
  simp only [reading, same]

def Divided (line : Str) : Prop :=
  ∃ before after, line = before ++ ch '=' :: after ∧ (∃ c ∈ before, c ≠ ch '=') ∧
    ∃ c ∈ after, c ≠ ch '='

def Splits (piece : Str) : Prop :=
  let line := trimmed blanks (cstr piece)
  line.head? = some (ch '#') ∨ line.head? = some (ch '[') ∨ ch '=' ∉ line ∨ Divided line

theorem pieces_filled {str : Str} {delim : UInt8} (nonempty : pieces str delim ≠ []) :
    ∃ c ∈ str, c ≠ delim := by
  by_contra none
  push Not at none
  have flat := pieces_flatten str delim
  have empty : str.filter (· ≠ delim) = [] := by
    rw [List.filter_eq_nil_iff]
    intro c member
    simpa using none c member
  rw [empty, List.flatten_eq_nil_iff] at flat
  obtain ⟨piece, member⟩ := List.exists_mem_of_ne_nil _ nonempty
  have kept := (List.mem_filter.mp member).2
  rw [flat piece member] at kept
  simp at kept

theorem pieces_divided (line : Str) :
    (∃ key value rest, pieces line (ch '=') = key :: value :: rest) ↔ Divided line := by
  constructor
  · intro two
    induction line with
    | nil =>
      obtain ⟨key, value, rest, split⟩ := two
      cases split
    | cons c line ih =>
      by_cases equals : c = ch '='
      · subst equals
        have same : pieces (ch '=' :: line) (ch '=') = pieces line (ch '=') := by
          simp [pieces, List.splitOn_cons_eq_if_modifyHead]
        rw [same] at two
        obtain ⟨before, after, rfl, left, right⟩ := ih two
        exact ⟨ch '=' :: before, after, rfl, left.imp fun x => And.imp_left (by simp [·]), right⟩
      · obtain ⟨key, value, rest, split⟩ := two
        by_cases more : ch '=' ∈ c :: line
        · obtain ⟨before, after, whole, absent⟩ := List.eq_append_cons_of_mem more
          obtain ⟨tail, rfl⟩ : ∃ tail, before = c :: tail := by
            cases before with
            | nil => exact absurd (List.cons.inj whole).1 equals
            | cons d tail => exact ⟨tail, by rw [(List.cons.inj whole).1]⟩
          have first : pieces (c :: line) (ch '=') = (c :: tail) :: pieces after (ch '=') := by
            rw [whole, pieces_first (by simp) absent]
          rw [first] at split
          have others : pieces after (ch '=') ≠ [] := by
            rw [(List.cons.inj split).2]
            simp
          exact ⟨c :: tail, after, whole, ⟨c, by simp, equals⟩, pieces_filled others⟩
        · rw [pieces_whole more] at split
          simp at split
  · rintro ⟨before, after, rfl, left, right⟩
    obtain ⟨key, others, first⟩ := List.exists_cons_of_ne_nil (pieces_nonempty left)
    obtain ⟨value, rest, second⟩ := List.exists_cons_of_ne_nil (pieces_nonempty right)
    have both : pieces (before ++ ch '=' :: after) (ch '=') =
        (key :: others) ++ (value :: rest) := by
      rw [← first, ← second, pieces_delimited]
    rw [both]
    cases others with
    | nil => exact ⟨key, value, rest, rfl⟩
    | cons other others => exact ⟨key, other, others ++ value :: rest, rfl⟩

theorem head_nonzero {s : Str} {c : UInt8} (nonzero : c ≠ 0) :
    s.headD 0 = c ↔ s.head? = some c := by
  cases s with
  | nil => simp [Ne.symm nonzero]
  | cons d rest => simp

theorem reading_skips {buf : Str} (comment : (trimmed blanks (cstr buf)).head? = some (ch '#')) :
    reading buf = .skip := by
  have first := (head_nonzero (show ch '#' ≠ 0 by decide)).mpr comment
  simp only [reading, if_pos first]

theorem reading_splits (piece : Str) : reading piece ≠ .fault ↔ Splits piece := by
  unfold reading Splits
  simp only [← pieces_divided, head_nonzero (show ch '#' ≠ 0 by decide),
    head_nonzero (show ch '[' ≠ 0 by decide)]
  generalize trimmed blanks (cstr piece) = line
  by_cases comment : line.head? = some (ch '#')
  · simp [comment]
  by_cases header : line.head? = some (ch '[')
  · rw [if_neg comment, if_pos header]
    split <;> simp [header]
  by_cases equals : ch '=' ∈ line
  · rw [if_neg comment, if_neg header, if_pos equals]
    match pieces line (ch '=') with
    | [] => simp [comment, header, equals]
    | [key] => simp [comment, header, equals]
    | key :: value :: rest => simp
  · simp [comment, header, equals]

theorem load_sound (host : Host) {files : Files} {ini : CIniFile} {content : Str}
    (held : files ini.strFileName = some content) :
    (∃ result, ini.load host files = .ok result) ↔
      Reading.fault ∉ (chunks content).map reading := by
  rw [load_chunks host held, ← followAll_ok ([], ini.mSection)]
  constructor
  · rintro ⟨result, loads⟩
    cases followed : followAll ([], ini.mSection) ((chunks content).map reading) with
    | error fault =>
      rw [followed] at loads
      cases loads
    | ok st => exact ⟨st, rfl⟩
  · rintro ⟨st, followed⟩
    exact ⟨_, by rw [followed]; rfl⟩

/-- Loading returns exactly when every piece of the file that holds a '=' outside comments
    and headers has something to split at it. -/
theorem load_returns_iff (host : Host) (files : Files) (ini : CIniFile) :
    (∃ result, ini.load host files = .ok result) ↔
      ∀ content, files ini.strFileName = some content →
        ∀ piece ∈ chunks content, Splits piece := by
  cases held : files ini.strFileName with
  | none => simp [CIniFile.load, held]
  | some content =>
    rw [load_sound host held]
    simp only [List.mem_map, not_exists, not_and, ← reading_splits, ne_eq, Option.some_inj,
      forall_eq']

/-- A key set with the default value is written as a line that load cannot split. -/
theorem empty_value_overruns :
    ¬ ∀ (host : Host) (fileName : Str) (files : Files) (calls : List IniCall),
      ∃ result, (CIniFile.new fileName).load host
        ((run fileName calls).write Stdio.reliable files).2.1 = .ok result := by
  intro returns
  obtain ⟨result, loads⟩ :=
    returns ⟨32, by decide⟩ [ch 'f'] (fun _ => none) [.set [ch 'n'] [ch 'k'] []]
  have fails : (CIniFile.new [ch 'f']).load ⟨32, by decide⟩
      ((run [ch 'f'] [.set [ch 'n'] [ch 'k'] []]).write Stdio.reliable fun _ => none).2.1 =
        .error .outOfBounds := rfl
  rw [fails] at loads
  cases loads

end IniReadings
