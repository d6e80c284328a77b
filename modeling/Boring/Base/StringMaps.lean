import Boring.Base.IniRoundTrip

/- StringUtil::str2map on entries that were written key, separator, value and joined by the
   delimiter. The splitter drops empty pieces, so an entry with an empty value has no second
   field, and the second field ends at the next separator. -/
namespace StringMaps
open StringUtil Bindings IniFile IniRoundTrip ListParts

section Reading

variable (host : Host)

def loadEntry (split : UInt8) (_map : Map Str) (it : Str) : Except Fault (Map Str) := do
  let it ← trim host it blanks
  let temp ← str2vector host it split
  -- neither access is checked, so their order does not matter
  let key ← index temp 0
  let key ← trim host key blanks
  let value ← index temp 1
  let value ← trim host value blanks
  .ok (_map.insert key value)

def str2map (str : Str) (delim split : UInt8) : Except Fault (Map Str) := do
  let szSrc ← trim host str blanks
  let result ← str2vector host szSrc delim
  result.foldlM (loadEntry host split) ∅

end Reading

structure Entry where
  before : Str
  key : Str
  afterKey : Str
  beforeValue : Str
  value : Str
  after : Str

def Entry.pair (e : Entry) : Str × Str := (e.key, e.value)

def Entry.text (split : UInt8) (e : Entry) : Str :=
  e.before ++ e.key ++ e.afterKey ++ split :: (e.beforeValue ++ e.value ++ e.after)

def joined (delim split : UInt8) (entries : List Entry) : Str :=
  [delim].intercalate (entries.map (Entry.text split))

structure Marks (delim split : UInt8) : Prop where
  distinct : delim ≠ split
  delimKept : delim ∉ blanks
  splitKept : split ∉ blanks

def Blank (s : Str) : Prop := ∀ c ∈ s, c ∈ blanks

instance (s : Str) : Decidable (Blank s) := List.decidableBAll (· ∈ blanks) s

/-- Only blanks are added, and neither the key nor the value begins or ends with one. -/
structure Entry.Written (delim split : UInt8) (e : Entry) : Prop where
  nonempty : e.key ≠ []
  keyUnblanked : Unblanked e.key
  valueUnblanked : Unblanked e.value
  keyDelim : delim ∉ e.key
  keySplit : split ∉ e.key
  valueDelim : delim ∉ e.value
  beforeBlank : Blank e.before
  afterKeyBlank : Blank e.afterKey
  beforeValueBlank : Blank e.beforeValue
  afterBlank : Blank e.after

def Entry.read (split : UInt8) (e : Entry) : Option Str :=
  (pieces ((e.beforeValue ++ e.value ++ e.after).rdropWhile (blanks.contains ·)) split).head?.map
    (trimmed blanks)

def Entry.load (split : UInt8) (_map : Map Str) (e : Entry) : Except Fault (Map Str) :=
  match e.read split with
  | some value => .ok (_map.insert e.key value)
  | none => .error .outOfBounds

def collected (pairs : List (Str × Str)) : Map Str :=
  pairs.foldl (fun _map pair => _map.insert pair.1 pair.2) ∅

theorem collected_lookup (pairs : List (Str × Str)) (k : Str) :
    (collected pairs)[k]? = replay unbound (assignments pairs) k := by
  induction pairs using List.reverseRecOn with
  | nil => simp [collected, assignments, replay, unbound]
  | append_singleton before pair ih =>
    rw [replay_concat, ← ih, collected, List.foldl_append, List.foldl_cons, List.foldl_nil,
      lookup_insert, collected]

theorem blank_iff {s : Str} : Blank s ↔ ∀ c ∈ s, blanks.contains c = true := by
  simp [Blank]

theorem blank_nil : Blank [] := List.forall_mem_nil _

theorem trimmed_padded {front back : Str} (inFront : Blank front) (inBack : Blank back)
    (s : Str) : trimmed blanks (front ++ s ++ back) = trimmed blanks s :=
  (core_unique (core_padded (core_drops (blanks.contains ·) s) (blank_iff.mp inFront)
    (blank_iff.mp inBack))).symm

theorem splitOn_padded {delim : UInt8} (kept : delim ∉ blanks) {front back : Str}
    (inFront : Blank front) (inBack : Blank back) (s : Str) :
    ((front ++ s ++ back).splitOn delim).map (trimmed blanks) =
      (s.splitOn delim).map (trimmed blanks) := by
  have noFront : delim ∉ front := fun member => kept (inFront _ member)
  have noBack : delim ∉ back := fun member => kept (inBack _ member)
  generalize length : s.length = n
  induction n using Nat.strong_induction_on generalizing s front with
  | _ n ih =>
    by_cases member : delim ∈ s
    · obtain ⟨first, rest, rfl, absent⟩ := List.eq_append_cons_of_mem member
      have later := @ih rest.length (by simp at length; omega) [] blank_nil rest (by simp) rfl
      have whole : front ++ (first ++ delim :: rest) ++ back =
          (front ++ first) ++ delim :: ([] ++ rest ++ back) := by simp
      have padded := @trimmed_padded front [] inFront blank_nil first
      rw [List.append_nil] at padded
      rw [whole, List.splitOn_append_cons_self_of_not_mem (by simp [noFront, absent]),
        List.splitOn_append_cons_self_of_not_mem absent, List.map_cons, List.map_cons, later,
        padded]
    · rw [List.splitOn_eq_singleton (by simp [noFront, noBack, member]),
        List.splitOn_eq_singleton member, List.map_singleton, List.map_singleton,
        trimmed_padded inFront inBack]

theorem pieces_joined {delim : UInt8} (kept : delim ∉ blanks) {texts : List Str}
    (absent : ∀ text ∈ texts, delim ∉ text) (filled : ∀ text ∈ texts, trimmed blanks text ≠ []) :
    (pieces (trimmed blanks ([delim].intercalate texts)) delim).map (trimmed blanks) =
      texts.map (trimmed blanks) := by
  by_cases none : texts = []
  · rw [none]
    rfl
  · have outer := core_drops (blanks.contains ·) ([delim].intercalate texts)
    obtain ⟨front, back, whole, inFront, inBack⟩ := outer.inside
    have same := splitOn_padded kept (blank_iff.mpr inFront) (blank_iff.mpr inBack)
      (trimmed blanks ([delim].intercalate texts))
    rw [trimmed, ← whole, List.splitOn_intercalate delim absent none] at same
    have nonempty : ∀ t ∈ (trimmed blanks ([delim].intercalate texts)).splitOn delim, t ≠ [] := by
      rintro t member rfl
      have inside := List.mem_map_of_mem (f := trimmed blanks) member
      rw [trimmed, ← same] at inside
      obtain ⟨text, isText, empty⟩ := List.mem_map.mp inside
      exact filled text isText empty
    rw [pieces, List.filter_eq_self.mpr (by simpa using nonempty), same, trimmed]

variable {host : Host} {delim split : UInt8}

theorem entry_trimmed (marks : Marks delim split) {e : Entry} (written : e.Written delim split) :
    trimmed blanks (e.text split) = e.key ++ e.afterKey ++
      split :: (e.beforeValue ++ e.value ++ e.after).rdropWhile (blanks.contains ·) := by
  obtain ⟨k, rest, key⟩ := List.exists_cons_of_ne_nil written.nonempty
  have kept : blanks.contains k = false := by
    simpa using written.keyUnblanked.1 k (by rw [key]; rfl)
  have separator : blanks.contains split = false := by simpa using marks.splitKept
  rw [Entry.text, key]
  simp only [List.append_assoc, List.cons_append]
  rw [trimmed_split (blank_iff.mp written.beforeBlank) kept, ← List.append_assoc,
    rdropWhile_kept separator, List.append_assoc]

theorem entry_pieces (marks : Marks delim split) {e : Entry} (written : e.Written delim split) :
    pieces (trimmed blanks (e.text split)) split = (e.key ++ e.afterKey) ::
      pieces ((e.beforeValue ++ e.value ++ e.after).rdropWhile (blanks.contains ·)) split := by
  have absent : split ∉ e.key ++ e.afterKey := by
    have behind : split ∉ e.afterKey := fun member =>
      marks.splitKept (written.afterKeyBlank split member)
    simp [written.keySplit, behind]
  rw [entry_trimmed marks written]
  exact pieces_first (by simp [written.nonempty]) absent _

theorem loadEntry_text (marks : Marks delim split) {e : Entry} (written : e.Written delim split)
    {it : Str} (short : it.length < npos host)
    (same : trimmed blanks it = trimmed blanks (e.text split)) (_map : Map Str) :
    loadEntry host split _map it = e.load split _map := by
  have shorter := Nat.lt_of_le_of_lt (trimmed_length blanks it) short
  have fields := entry_pieces marks written
  rw [← same] at fields
  have shortPiece : ∀ piece ∈ pieces (trimmed blanks it) split, piece.length < npos host :=
    fun piece member => Nat.lt_of_le_of_lt (piece_length member) shorter
  rw [fields] at shortPiece
  have key : trim host (e.key ++ e.afterKey) blanks = .ok e.key := by
    have padded := @trimmed_padded [] e.afterKey blank_nil written.afterKeyBlank e.key
    rw [trim_ok (shortPiece _ (by simp)), ← List.nil_append e.key, padded,
      trimmed_self written.keyUnblanked, List.nil_append]
  simp only [loadEntry, trim_ok short, str2vector_ok split shorter, fields, bind, Except.bind,
    index, List.getElem?_cons_zero, List.getElem?_cons_succ, key, Entry.load, Entry.read]
  generalize pieces ((e.beforeValue ++ e.value ++ e.after).rdropWhile (blanks.contains ·)) split =
    others at *
  cases others with
  | nil => rfl
  | cons value others =>
    simp only [List.getElem?_cons_zero, trim_ok (shortPiece value (by simp)), List.head?_cons,
      Option.map_some]

theorem loadEntries_text (marks : Marks delim split) {entries : List Entry}
    (written : ∀ e ∈ entries, e.Written delim split) {its : List Str}
    (short : ∀ it ∈ its, it.length < npos host)
    (same : its.map (trimmed blanks) = (entries.map (Entry.text split)).map (trimmed blanks))
    (_map : Map Str) :
    its.foldlM (loadEntry host split) _map = entries.foldlM (Entry.load split) _map := by
  induction entries generalizing its _map with
  | nil =>
    obtain rfl : its = [] := by simpa using same
    rfl
  | cons e entries ih =>
    obtain ⟨it, its, rfl, first, others⟩ := List.map_eq_cons_iff.mp same
    rw [List.foldlM_cons, List.foldlM_cons,
      loadEntry_text marks (written e (by simp)) (short it (by simp)) first]
    congr 1
    funext next
    exact ih (fun e member => written e (by simp [member]))
      (fun it member => short it (by simp [member])) others next

theorem text_filled (marks : Marks delim split) {e : Entry} (written : e.Written delim split) :
    trimmed blanks (e.text split) ≠ [] := by
  rw [entry_trimmed marks written]
  simp

theorem text_absent (marks : Marks delim split) {e : Entry} (written : e.Written delim split) :
    delim ∉ e.text split := by
  have outside {s : Str} (blank : Blank s) : delim ∉ s :=
    fun member => marks.delimKept (blank delim member)
  simp [Entry.text, outside written.beforeBlank, outside written.afterKeyBlank,
    outside written.beforeValueBlank, outside written.afterBlank, written.keyDelim,
    written.valueDelim, marks.distinct]

theorem str2map_joined (marks : Marks delim split) {entries : List Entry}
    (written : ∀ e ∈ entries, e.Written delim split) (str : Text host)
    (same : str.chars = joined delim split entries) :
    str2map host str.chars delim split = entries.foldlM (Entry.load split) ∅ := by
  have shorter := Nat.lt_of_le_of_lt (trimmed_length blanks str.chars) str.short
  have texts : (pieces (trimmed blanks str.chars) delim).map (trimmed blanks) =
      (entries.map (Entry.text split)).map (trimmed blanks) := by
    rw [same, joined]
    apply pieces_joined marks.delimKept
    · intro text member
      obtain ⟨e, inside, rfl⟩ := List.mem_map.mp member
      exact text_absent marks (written e inside)
    · intro text member
      obtain ⟨e, inside, rfl⟩ := List.mem_map.mp member
      exact text_filled marks (written e inside)
  have run := @loadEntries_text host delim split marks entries written _
    (fun it member => Nat.lt_of_le_of_lt (piece_length member) shorter) texts ∅
  simp only [str2map, trim_ok str.short, str2vector_ok delim shorter, bind, Except.bind]
  exact run

theorem foldlM_load {entries : List Entry} {_map result : Map Str} :
    entries.foldlM (Entry.load split) _map = .ok result ↔
      (∀ e ∈ entries, ∃ value, e.read split = some value) ∧
        (entries.map fun e => (e.key, (e.read split).getD [])).foldl
          (fun _map pair => _map.insert pair.1 pair.2) _map = result := by
  induction entries generalizing _map with
  | nil => simp [pure, Except.pure]
  | cons e entries ih =>
    cases second : e.read split with
    | none => simp [Entry.load, second, bind, Except.bind]
    | some value => simp [Entry.load, second, bind, Except.bind, ih]

theorem read_iff (marks : Marks delim split) {e : Entry} (written : e.Written delim split) :
    e.read split = some e.value ↔ e.value ≠ [] ∧ split ∉ e.value := by
  have blank {s : Str} (blanked : Blank s) : s.rdropWhile (blanks.contains ·) = [] :=
    List.rdropWhile_eq_nil_iff.mpr (blank_iff.mp blanked)
  rw [Entry.read]
  constructor
  · intro second
    obtain ⟨piece, first, value⟩ := Option.map_eq_some_iff.mp second
    constructor
    · intro empty
      have nothing : (e.beforeValue ++ e.value ++ e.after).rdropWhile (blanks.contains ·) = [] := by
        apply blank
        intro c member
        rw [empty, List.append_nil] at member
        exact (List.mem_append.mp member).elim (written.beforeValueBlank c) (written.afterBlank c)
      rw [nothing] at first
      exact absurd first (by simp [pieces])
    · intro separator
      rw [← value] at separator
      exact piece_undelimited (List.mem_of_mem_head? first) (trimmed_subset _ _ separator)
  · rintro ⟨nonempty, absent⟩
    have stripped : (e.beforeValue ++ e.value ++ e.after).rdropWhile (blanks.contains ·) =
        e.beforeValue ++ e.value := by
      obtain ⟨init, c, value⟩ := (List.eq_nil_or_concat' e.value).resolve_left nonempty
      have kept : blanks.contains c = false := by
        simpa using written.valueUnblanked.2 c (by rw [value, List.getLast?_concat])
      rw [value, ← List.append_assoc, List.append_assoc, List.singleton_append,
        rdropWhile_kept kept, blank written.afterBlank]
    have noSeparator : split ∉ e.beforeValue ++ e.value := by
      have around : split ∉ e.beforeValue := fun member =>
        marks.splitKept (written.beforeValueBlank split member)
      simp [around, absent]
    have padded := @trimmed_padded e.beforeValue [] written.beforeValueBlank blank_nil e.value
    rw [List.append_nil, trimmed_self written.valueUnblanked] at padded
    rw [stripped, pieces_whole noSeparator]
    simp [nonempty, padded]

theorem toList_iff (m M : Map Str) : m.toList = M.toList ↔ ∀ k : Str, m[k]? = M[k]? := by
  rw [← Std.TreeMap.equiv_iff_toList_eq]
  exact ⟨fun same k => same.getElem?_eq, Std.TreeMap.Equiv.of_forall_constGet?_eq⟩

theorem order_lookup {M : Map Str} {entries : List Entry}
    (order : (entries.map Entry.pair).Perm M.toList) (k v : Str) :
    (k, v) ∈ entries.map Entry.pair ↔ M[k]? = some v :=
  order.mem_iff.trans Std.TreeMap.mem_toList_iff_getElem?_eq_some

theorem loaded_iff {M : Map Str} {entries : List Entry}
    (order : (entries.map Entry.pair).Perm M.toList) :
    (∃ _map, entries.foldlM (Entry.load split) ∅ = .ok _map ∧ _map.toList = M.toList) ↔
      ∀ e ∈ entries, e.read split = some e.value := by
  have distinct : (entries.map Entry.key).Nodup := by
    have keys := (order.map Prod.fst).nodup_iff.mpr (keys_distinct M)
    rwa [List.map_map] at keys
  constructor
  · rintro ⟨_map, loaded, same⟩ e member
    obtain ⟨seconds, rfl⟩ := foldlM_load.mp loaded
    obtain ⟨value, second⟩ := seconds e member
    have lookup := (toList_iff _ M).mp same e.key
    have stored := (order_lookup order e.key e.value).mp (List.mem_map.mpr ⟨e, member, rfl⟩)
    have read : (e.key, value) ∈ entries.map fun e => (e.key, (e.read split).getD []) :=
      List.mem_map.mpr ⟨e, member, by rw [second]; rfl⟩
    rw [stored, ← collected, collected_lookup,
      (replay_distinct (by rwa [List.map_map]) ..).mpr read] at lookup
    rw [second, lookup]
  · intro all
    refine ⟨_, foldlM_load.mpr ⟨fun e member => ⟨e.value, all e member⟩, rfl⟩, ?_⟩
    have pairs : entries.map (fun e => (e.key, (e.read split).getD [])) =
        entries.map Entry.pair :=
      List.map_congr_left fun e member => by rw [all e member]; rfl
    rw [pairs, ← collected, toList_iff]
    intro k
    rw [collected_lookup, replay_entries _ (by rwa [List.map_map]) (fun k : Str => M[k]?)
      (order_lookup order)]

/-- Entries written in any order and with any blanks around their parts are read back as
    their map exactly if no value is empty or contains the separator. -/
theorem str2map_written_iff (marks : Marks delim split) {M : Map Str} {entries : List Entry}
    (order : (entries.map Entry.pair).Perm M.toList)
    (written : ∀ e ∈ entries, e.Written delim split) (str : Text host)
    (same : str.chars = joined delim split entries) :
    (∃ _map, str2map host str.chars delim split = .ok _map ∧ _map.toList = M.toList) ↔
      ∀ k v : Str, M[k]? = some v → v ≠ [] ∧ split ∉ v := by
  rw [str2map_joined marks written str same, loaded_iff order]
  constructor
  · intro all k v stored
    obtain ⟨e, member, pair⟩ := List.mem_map.mp ((order_lookup order k v).mpr stored)
    obtain ⟨rfl, rfl⟩ := Prod.mk.inj pair
    exact (read_iff marks (written e member)).mp (all e member)
  · intro all e member
    have stored := (order_lookup order e.key e.value).mp (List.mem_map.mpr ⟨e, member, rfl⟩)
    exact (read_iff marks (written e member)).mpr (all e.key e.value stored)

def ports : List Entry :=
  [⟨[ch ' '], [ch 'b'], [], [ch '\t'], [ch '2'], []⟩,
    ⟨[], [ch 'a'], [ch ' '], [], [ch '1', ch '-'], [ch '\n']⟩]

/-- The string " b=\t2;a =1-\n" holds two entries. -/
theorem ports_read :
    ∃ _map, str2map ⟨64, by decide⟩ (joined (ch ';') (ch '=') ports) (ch ';') (ch '=') = .ok _map ∧
      _map.toList = [([ch 'a'], [ch '1', ch '-']), ([ch 'b'], [ch '2'])] := by
  have order : (ports.map Entry.pair).Perm
      (collected (ports.map Entry.pair)).toList := by decide
  have written : ∀ e ∈ ports, e.Written (ch ';') (ch '=') := by
    simp only [ports, List.mem_cons, List.not_mem_nil, or_false]
    rintro e (rfl | rfl) <;> constructor <;> decide
  have marks : Marks (ch ';') (ch '=') := ⟨by decide, by decide, by decide⟩
  refine (@str2map_written_iff ⟨64, by decide⟩ (ch ';') (ch '=') marks _ _ order written
    ⟨_, by decide⟩ rfl).mpr ?_
  intro k v stored
  have member := (order_lookup order k v).mpr stored
  simp only [ports, Entry.pair, List.map_cons, List.map_nil, List.mem_cons, List.not_mem_nil,
    or_false, Prod.mk.injEq] at member
  obtain ⟨_, rfl⟩ | ⟨_, rfl⟩ := member <;> decide

def emptyEntry : Entry := ⟨[], [ch 'k'], [], [], [], []⟩

def cutEntry : Entry := ⟨[], [ch 'k'], [], [], [ch 'a', ch '=', ch 'b'], []⟩

/-- From "k=" the second field is read where there is none, and "k=a=b" gives k the value a. -/
theorem values_lost :
    Marks (ch ';') (ch '=') ∧
    (emptyEntry.Written (ch ';') (ch '=') ∧
      (collected [emptyEntry.pair]).toList = [([ch 'k'], [])] ∧
      str2map ⟨64, by decide⟩ (joined (ch ';') (ch '=') [emptyEntry]) (ch ';') (ch '=') =
        .error .outOfBounds) ∧
    cutEntry.Written (ch ';') (ch '=') ∧
      (collected [cutEntry.pair]).toList = [([ch 'k'], [ch 'a', ch '=', ch 'b'])] ∧
      (str2map ⟨64, by decide⟩ (joined (ch ';') (ch '=') [cutEntry]) (ch ';') (ch '=')).map
        (fun _map => _map.toList) = .ok [([ch 'k'], [ch 'a'])] := by
  refine ⟨⟨by decide, by decide, by decide⟩, ⟨?_, rfl, rfl⟩, ?_, rfl, rfl⟩ <;>
    constructor <;> decide

end StringMaps
