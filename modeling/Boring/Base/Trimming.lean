import Boring.Base.StringUtil

/- The methods trim, ltrim and rtrim of stringutil.cpp on the string that they change. Each
   gives a pair: the string it returns, and the string it leaves in its argument. -/
namespace Trimming
open StringUtil ListParts

section Methods

variable (host : Host)

def erase (str : Str) (pos n : Nat) : Except Fault (Str × Str) := do
  let str ← StringUtil.erase str pos n
  .ok (str, str)

def trim (str drop : Str) : Except Fault (Str × Str) := do
  let (_, str) ← erase str (sizeAdd host (findLastNotOf host str drop) 1) (npos host)
  erase str 0 (findFirstNotOf host str drop)

def ltrim (str drop : Str) : Except Fault (Str × Str) :=
  erase str 0 (findFirstNotOf host str drop)

def rtrim (str drop : Str) : Except Fault (Str × Str) :=
  erase str (sizeAdd host (findLastNotOf host str drop) 1) (npos host)

def ltrimAfterRtrim (str drop : Str) : Except Fault (Str × Str) := do
  let (_, str) ← rtrim host str drop
  ltrim host str drop

def rtrimAfterLtrim (str drop : Str) : Except Fault (Str × Str) := do
  let (_, str) ← ltrim host str drop
  rtrim host str drop

end Methods

variable {host : Host} {str drop : Str}

theorem trim_halves (host : Host) (str drop : Str) :
    trim host str drop = ltrimAfterRtrim host str drop := rfl

theorem trim_value (host : Host) (str drop : Str) :
    trim host str drop = (StringUtil.trim host str drop).map fun t => (t, t) := by
  rw [trim, StringUtil.trim, erase]
  cases StringUtil.erase str (sizeAdd host (findLastNotOf host str drop) 1) (npos host) with
  | error fault => rfl
  | ok rest => simp only [erase, bind, Except.bind, Except.map]

/-- If nothing is kept, the search gives npos, and erasing npos characters empties the
    string. -/
theorem ltrim_ok (short : str.length < npos host) :
    ltrim host str drop =
      .ok (str.dropWhile (drop.contains ·), str.dropWhile (drop.contains ·)) := by
  simp only [ltrim, erase, StringUtil.erase, Nat.zero_le, if_true, List.take_zero,
    List.nil_append, Nat.zero_add, drop_findFirstNotOf short, bind, Except.bind]

theorem rtrim_ok (short : str.length < npos host) :
    rtrim host str drop =
      .ok (str.rdropWhile (drop.contains ·), str.rdropWhile (drop.contains ·)) := by
  obtain ⟨front, inside⟩ := @take_findLastNotOf host str drop short
  have tail : str.drop (sizeAdd host (findLastNotOf host str drop) 1 + npos host) = [] :=
    List.drop_eq_nil_of_le (by omega)
  simp only [rtrim, erase, StringUtil.erase, inside, if_true, front, tail, List.append_nil,
    bind, Except.bind]

theorem trim_core (short : str.length < npos host) :
    trim host str drop = .ok (trimmed drop str, trimmed drop str) := by
  rw [trim_value, trim_ok short]
  rfl

/-- The trimmed string is the core of the string, the only one; both orders of the halves
    leave it, and it is left alone. -/
theorem trim_exact (host : Host) (s : Text host) (drop : Str) :
    ∃ t, trim host s.chars drop = .ok (t, t) ∧
      Core (drop.contains ·) s.chars t ∧
      (∀ t', Core (drop.contains ·) s.chars t' → t' = t) ∧
      ltrimAfterRtrim host s.chars drop = .ok (t, t) ∧
      rtrimAfterLtrim host s.chars drop = .ok (t, t) ∧
      trim host t drop = .ok (t, t) := by
  have isCore := core_drops (drop.contains ·) s.chars
  have whole := @trim_core host s.chars drop s.short
  have other := core_unique (core_drops_front (drop.contains ·) s.chars)
  have shorter := trimmed_length drop s.chars
  have front : (s.chars.dropWhile (drop.contains ·)).length ≤ s.chars.length :=
    List.length_dropWhile_le ..
  refine ⟨trimmed drop s.chars, whole, isCore, fun t' => core_unique, ?_, ?_, ?_⟩
  · rw [← trim_halves, whole]
  · rw [rtrimAfterLtrim, ltrim_ok s.short]
    simp only [bind, Except.bind]
    rw [rtrim_ok (Nat.lt_of_le_of_lt front s.short), other, trimmed]
  · rw [trim_core (Nat.lt_of_le_of_lt shorter s.short)]
    have again := core_unique (core_self isCore)
    rw [trimmed, trimmed, ← again]

end Trimming
