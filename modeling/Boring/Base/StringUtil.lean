import Boring.Library.ListParts
import Mathlib.Algebra.Order.Ring.Nat

/- std::string over bytes, as far as stringutil.cpp uses it, and the functions trim
   and str2vector of stringutil.cpp. Positions are of type size_t, of any width the
   C++ standard allows. -/
namespace StringUtil

abbrev Str := List UInt8

/-- std::out_of_range, an access outside an object, a loop that does not end. -/
inductive Fault where
  | outOfRange
  | outOfBounds
  | endlessLoop
  deriving DecidableEq, Repr

structure Host where
  sizeBits : Nat
  wide : 16 ≤ sizeBits

section Positions

variable (host : Host)

def sizeCount : Nat := 2 ^ host.sizeBits

def npos : Nat := sizeCount host - 1

def sizeAdd (a b : Nat) : Nat := (a + b) % sizeCount host

/-- The value of a std::string. Its characters and the NUL behind them, the object that
    points to them and the null pointer all have different addresses. -/
structure Text where
  chars : Str
  fits : chars.length + 2 < sizeCount host

def found (position : Option Nat) : Nat := position.getD (npos host)

def find (s : Str) (c : UInt8) (start : Nat) : Nat :=
  found host (((s.drop start).findIdx? (· = c)).map (start + ·))

def findFirstOf (s chars : Str) : Nat := found host (s.findIdx? (chars.contains ·))

def findFirstNotOf (s chars : Str) : Nat := found host (s.findIdx? (!chars.contains ·))

def findLastNotOf (s chars : Str) : Nat :=
  match (s.rdropWhile (chars.contains ·)).length with
  | 0 => npos host
  | n + 1 => n

def erase (s : Str) (pos n : Nat) : Except Fault Str :=
  if pos ≤ s.length then .ok (s.take pos ++ s.drop (pos + n)) else .error .outOfRange

def substr (s : Str) (pos n : Nat) : Except Fault Str :=
  if pos ≤ s.length then .ok ((s.drop pos).take n) else .error .outOfRange

def index {α : Type} (v : List α) (i : Nat) : Except Fault α :=
  match v[i]? with
  | some x => .ok x
  | none => .error .outOfBounds

def ch (c : Char) : UInt8 := UInt8.ofNat c.toNat

/-- The default of `drop`: blank, tab, newline and carriage return. -/
def blanks : Str := [ch ' ', ch '\t', ch '\n', ch '\r']

def trim (str drop : Str) : Except Fault Str := do
  let str ← erase str (sizeAdd host (findLastNotOf host str drop) 1) (npos host)
  erase str 0 (findFirstNotOf host str drop)

def pushBetween (str : Str) (start pos : Nat) : Except Fault (List Str) :=
  if start < pos then (substr str start (pos - start)).map ([·]) else .ok []

def str2vectorLoop (str : Str) (delim : UInt8) : Nat → Nat → Nat → Except Fault (List Str)
  | 0, _, _ => .error .endlessLoop
  | fuel + 1, start, pos =>
    if pos = npos host then
      if start < str.length then do
        let piece ← substr str start (npos host)
        .ok [piece]
      else .ok []
    else do
      let result ← pushBetween str start pos
      let start := sizeAdd host pos 1
      let rest ← str2vectorLoop str delim fuel start (find host str delim start)
      .ok (result ++ rest)

def str2vector (str : Str) (delim : UInt8) : Except Fault (List Str) :=
  str2vectorLoop host str delim (str.length + 1) 0 (find host str delim 0)

end Positions

/-- The specifications: both ends stripped, and the non-empty pieces. -/
def trimmed (drop str : Str) : Str :=
  (str.rdropWhile (drop.contains ·)).dropWhile (drop.contains ·)

def pieces (str : Str) (delim : UInt8) : List Str := (str.splitOn delim).filter (· ≠ [])

theorem trimmed_length (drop str : Str) : (trimmed drop str).length ≤ str.length :=
  Nat.le_trans (List.length_dropWhile_le ..) (List.rdropWhile_prefix ..).length_le

theorem trimmed_subset (drop str : Str) : trimmed drop str ⊆ str := fun _ member =>
  (List.rdropWhile_prefix ..).subset ((List.dropWhile_suffix _).subset member)

theorem trimmed_split {drop front back : Str} {c : UInt8}
    (dropped : ∀ x ∈ front, drop.contains x = true) (kept : drop.contains c = false) :
    trimmed drop (front ++ c :: back) = c :: back.rdropWhile (drop.contains ·) := by
  rw [trimmed, ListParts.rdropWhile_kept kept, List.dropWhile_append_of_pos dropped,
    List.dropWhile_cons_of_neg (by simpa using kept)]

variable {host : Host}

theorem npos_size : npos host + 1 = sizeCount host := by
  have : 0 < sizeCount host := Nat.two_pow_pos _
  simp only [npos]
  omega

theorem Text.short (text : Text host) : text.chars.length < npos host := by
  have := text.fits
  have := @npos_size host
  omega

theorem sizeAdd_fits {a b : Nat} (fits : a + b < sizeCount host) : sizeAdd host a b = a + b :=
  Nat.mod_eq_of_lt fits

theorem substr_rest {s : Str} {pos : Nat} (inside : pos ≤ s.length) (fits : s.length < npos host) :
    substr s pos (npos host) = .ok (s.drop pos) := by
  have whole : (s.drop pos).length ≤ npos host := by
    rw [List.length_drop]
    omega
  simp [substr, inside, List.take_of_length_le whole]

/-- A search that fails returns npos, behind every character, so dropping up to the
    first kept character drops everything. -/
theorem drop_findFirstNotOf {s chars : Str} (fits : s.length < npos host) :
    s.drop (findFirstNotOf host s chars) = s.dropWhile (chars.contains ·) := by
  rw [List.dropWhile_eq_drop_findIdx_not, findFirstNotOf, found]
  cases place : s.findIdx? (!chars.contains ·) with
  | none =>
    rw [List.findIdx?_eq_none_iff_findIdx_eq.mp place, Option.getD_none, List.drop_length]
    exact List.drop_eq_nil_of_le (by omega)
  | some i =>
    rw [(List.findIdx?_eq_some_iff_findIdx_eq.mp place).2, Option.getD_some]

/-- A failed search for the last kept character gives npos, and npos + 1 wraps to 0. -/
theorem take_findLastNotOf {s chars : Str} (fits : s.length < npos host) :
    s.take (sizeAdd host (findLastNotOf host s chars) 1) = s.rdropWhile (chars.contains ·) ∧
      sizeAdd host (findLastNotOf host s chars) 1 ≤ s.length := by
  have kept := (List.rdropWhile_prefix (chars.contains ·) s)
  have bounded := kept.length_le
  have position : sizeAdd host (findLastNotOf host s chars) 1 =
      (s.rdropWhile (chars.contains ·)).length := by
    rw [findLastNotOf]
    cases length : (s.rdropWhile (chars.contains ·)).length with
    | zero => simp [sizeAdd, npos_size]
    | succ n =>
      apply sizeAdd_fits
      have := @npos_size host
      simp only
      omega
  rw [position]
  exact ⟨(List.prefix_iff_eq_take.mp kept).symm, bounded⟩

theorem trim_ok {str drop : Str} (fits : str.length < npos host) :
    trim host str drop = .ok (trimmed drop str) := by
  obtain ⟨front, inside⟩ := @take_findLastNotOf host str drop fits
  have tail : str.drop (sizeAdd host (findLastNotOf host str drop) 1 + npos host) = [] :=
    List.drop_eq_nil_of_le (by omega)
  have shorter := (List.rdropWhile_prefix (drop.contains ·) str).length_le
  have first := @drop_findFirstNotOf host (str.rdropWhile (drop.contains ·)) drop (by omega)
  simp only [trim, erase, inside, if_true, front, tail, List.append_nil, bind, Except.bind,
    Nat.zero_le, List.take_zero, List.nil_append, Nat.zero_add, first, trimmed]

theorem find_cases (s : Str) (c : UInt8) {start : Nat} (inside : start ≤ s.length) :
    (find host s c start = npos host ∧ c ∉ s.drop start) ∨
    ∃ i, find host s c start = start + i ∧ start + i < s.length ∧ c ∉ (s.drop start).take i ∧
      s.drop start = (s.drop start).take i ++ c :: s.drop (start + i + 1) := by
  rw [find, found]
  cases place : (s.drop start).findIdx? (· = c) with
  | none =>
    left
    refine ⟨rfl, ?_⟩
    intro member
    have differs := List.findIdx?_eq_none_iff.mp place c member
    simp at differs
  | some i =>
    right
    obtain ⟨bound, hit, before⟩ := List.findIdx?_eq_some_iff_getElem.mp place
    simp only [decide_eq_true_eq] at hit before
    have room : start + i < s.length := by
      rw [List.length_drop] at bound
      omega
    refine ⟨i, rfl, room, ?_, ?_⟩
    · intro member
      obtain ⟨j, inTake, same⟩ := List.getElem_of_mem member
      simp only [List.length_take] at inTake
      rw [List.getElem_take] at same
      exact before j (by omega) same
    · have split := List.take_append_drop i (s.drop start)
      rw [List.drop_eq_getElem_cons bound, hit, List.drop_drop] at split
      exact split.symm

theorem pieces_whole {str : Str} {delim : UInt8} (absent : delim ∉ str) :
    pieces str delim = [str].filter (· ≠ []) := by
  rw [pieces, List.splitOn_eq_singleton absent]

theorem pieces_delimited (first rest : Str) (delim : UInt8) :
    pieces (first ++ delim :: rest) delim = pieces first delim ++ pieces rest delim := by
  rw [pieces, List.splitOn_append_cons_self, List.filter_append, pieces, pieces]

theorem pieces_first {first : Str} {delim : UInt8} (nonempty : first ≠ []) (absent : delim ∉ first)
    (rest : Str) : pieces (first ++ delim :: rest) delim = first :: pieces rest delim := by
  rw [pieces_delimited, pieces_whole absent]
  simp [nonempty]

theorem str2vectorLoop_ok {str : Str} {delim : UInt8} (fits : str.length < npos host)
    {fuel start : Nat} (inside : start ≤ str.length) (enough : str.length - start < fuel) :
    str2vectorLoop host str delim fuel start (find host str delim start) =
      .ok (pieces (str.drop start) delim) := by
  induction fuel generalizing start with
  | zero => omega
  | succ fuel ih =>
    rcases @find_cases host str delim start inside with
      ⟨missed, absent⟩ | ⟨i, at_i, room, absent, split⟩
    · rw [str2vectorLoop, if_pos missed, substr_rest inside fits, pieces_whole absent]
      by_cases more : start < str.length
      · simp [more, bind, Except.bind]
      · simp [more, List.drop_eq_nil_of_le (Nat.le_of_not_lt more)]
    · have later := @ih (start + i + 1) (by omega) (by omega)
      have next : sizeAdd host (start + i) 1 = start + i + 1 := by
        apply sizeAdd_fits
        have := @npos_size host
        omega
      simp only [str2vectorLoop, at_i, if_neg (show start + i ≠ npos host by omega), next, later]
      rw [split, pieces_delimited, pieces_whole absent, pushBetween, substr, if_pos inside]
      by_cases empty : i = 0
      · simp [empty, bind, Except.bind]
      · have piece : (str.drop start).take i ≠ [] := by
          intro none
          have := congrArg List.length none
          simp only [List.length_take, List.length_drop, List.length_nil] at this
          omega
        rw [Nat.add_sub_cancel_left]
        simp [Nat.pos_of_ne_zero empty, bind, Except.bind, Except.map, piece]

theorem str2vector_ok {str : Str} (delim : UInt8) (fits : str.length < npos host) :
    str2vector host str delim = .ok (pieces str delim) := by
  have run := @str2vectorLoop_ok host str delim fits (str.length + 1) 0 (by omega) (by omega)
  rwa [List.drop_zero] at run

theorem pieces_flatten (str : Str) (delim : UInt8) :
    (pieces str delim).flatten = str.filter (· ≠ delim) := by
  rw [pieces, List.flatten_filter_ne_nil]
  induction str with
  | nil => rfl
  | cons c rest ih =>
    rw [List.splitOn_cons_eq_if_modifyHead, List.filter_cons]
    obtain ⟨first, others, split⟩ := List.exists_cons_of_ne_nil (List.splitOn_ne_nil delim rest)
    by_cases same : c = delim
    · simp [same, ih]
    · rw [split] at ih ⊢
      simp only [List.flatten_cons] at ih
      simp [same, ih]

theorem piece_undelimited {str piece : Str} {delim : UInt8} (member : piece ∈ pieces str delim) :
    delim ∉ piece := by
  intro delimiter
  have inside : delim ∈ (pieces str delim).flatten :=
    List.mem_flatten.mpr ⟨piece, member, delimiter⟩
  rw [pieces_flatten] at inside
  simp at inside

theorem piece_length {str piece : Str} {delim : UInt8} (member : piece ∈ pieces str delim) :
    piece.length ≤ str.length := by
  have inside := (List.sublist_flatten_of_mem member).length_le
  rw [pieces_flatten] at inside
  exact Nat.le_trans inside (List.length_filter_le ..)

theorem pieces_nonempty {str : Str} {delim : UInt8} (filled : ∃ c ∈ str, c ≠ delim) :
    pieces str delim ≠ [] := by
  intro none
  obtain ⟨c, member, differs⟩ := filled
  have kept : c ∈ str.filter (· ≠ delim) := by simp [member, differs]
  rw [← pieces_flatten, none] at kept
  exact absurd kept (by simp)

end StringUtil
