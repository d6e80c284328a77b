import Boring.Base.StringUtil

/- StringUtil::str2list, which cuts a copy of the string in place, beside str2vector, which
   takes substrings: both return the maximal runs of characters other than the delimiter. -/
namespace Splitters
open StringUtil ListParts

def memcpy (buffer bytes : Str) : Except Fault Str :=
  if bytes.length ≤ buffer.length then .ok (bytes ++ buffer.drop bytes.length)
  else .error .outOfBounds

/-- The C string at p: what stands there before the next NUL. -/
def textAt (pSrc : Str) (p : Nat) : Except Fault Str :=
  if 0 ∈ pSrc.drop p then .ok ((pSrc.drop p).takeWhile (· ≠ 0)) else .error .outOfBounds

def pushText (pSrc : Str) (pVal : Nat) (_list : List Str) : Except Fault (List Str) := do
  let text ← textAt pSrc pVal
  .ok (if text.length > 0 then _list ++ [text] else _list)

def str2listLoop (delim : UInt8) : Nat → Str → Nat → Nat → List Str → Except Fault (List Str)
  | 0, _, _, _, _ => .error .endlessLoop
  | fuel + 1, pSrc, pCur, pVal, _list => do
    let c ← index pSrc pCur
    if c ≠ 0 then
      if c = delim then
        let pSrc := pSrc.set pCur 0
        let pCur := pCur + 1
        let _list ← pushText pSrc pVal _list
        str2listLoop delim fuel pSrc pCur pCur _list
      else str2listLoop delim fuel pSrc (pCur + 1) pVal _list
    else if pVal ≠ pCur then pushText pSrc pVal _list
    else .ok _list

/-- new throws when it has no memory, so its result is never NULL. -/
def str2list (host : Host) (str : Str) (delim : UInt8) : Except Fault (List Str) := do
  let pSrc ← memcpy (List.replicate (sizeAdd host str.length 2) 0) str
  str2listLoop delim (str.length + 1) pSrc 0 0 []

variable {delim : UInt8}

theorem index_behind (front back : Str) (c : UInt8) :
    index (front ++ c :: back) front.length = .ok c := by
  rw [index, List.getElem?_append_right (Nat.le_refl _), Nat.sub_self]
  rfl

theorem set_behind (front back : Str) (c d : UInt8) :
    (front ++ c :: back).set front.length d = front ++ d :: back := by
  rw [List.set_append_right _ _ (Nat.le_refl _), Nat.sub_self, List.set_cons_zero]

theorem textAt_word {word : Str} (noNul : 0 ∉ word) (done tail : Str) :
    textAt (done ++ word ++ 0 :: tail) done.length = .ok word := by
  have here : (done ++ word ++ 0 :: tail).drop done.length = word ++ 0 :: tail := by
    rw [List.append_assoc, List.drop_left]
  have all : ∀ c ∈ word, decide (c ≠ 0) = true := by
    intro c member
    exact decide_eq_true fun isNul => noNul (isNul ▸ member)
  rw [textAt, here, if_pos (by simp), List.takeWhile_append_of_pos all,
    List.takeWhile_cons_of_neg (by simp), List.append_nil]

theorem pushText_word {word : Str} (noNul : 0 ∉ word) (absent : delim ∉ word)
    (done tail : Str) (_list : List Str) :
    pushText (done ++ word ++ 0 :: tail) done.length _list = .ok (_list ++ pieces word delim) := by
  rw [pushText, textAt_word noNul, pieces_whole absent]
  cases word <;> simp [bind, Except.bind]

/-- The loop has the buffer cut behind `done`, has passed `word` since, and has `rest` to go:
    it adds the pieces of both together. The induction is on `rest`. -/
theorem str2listLoop_ok (delimited : delim ≠ 0) {rest : Str} {done word tail : Str}
    (noNul : 0 ∉ word ++ rest) (absent : delim ∉ word) {fuel : Nat} (enough : rest.length < fuel)
    (_list : List Str) :
    str2listLoop delim fuel (done ++ word ++ (rest ++ 0 :: tail)) (done.length + word.length)
      done.length _list = .ok (_list ++ pieces (word ++ rest) delim) := by
  induction rest generalizing done word fuel _list with
  | nil =>
    obtain ⟨fuel, rfl⟩ := Nat.exists_eq_add_of_lt enough
    rw [List.append_nil] at noNul ⊢
    have nul := index_behind (done ++ word) tail 0
    rw [List.length_append] at nul
    have pushed := pushText_word noNul absent done tail _list
    simp only [str2listLoop, List.length_nil, List.nil_append, nul, bind, Except.bind, pushed]
    cases word <;> simp [pieces]
  | cons c rest ih =>
    obtain ⟨fuel, rfl⟩ := Nat.exists_eq_add_of_lt enough
    have here := index_behind (done ++ word) (rest ++ 0 :: tail) c
    have cut := set_behind (done ++ word) (rest ++ 0 :: tail) c 0
    rw [List.length_append] at here cut
    simp only [str2listLoop, List.cons_append, here, cut, bind, Except.bind]
    simp only [List.mem_append, List.mem_cons, not_or] at noNul
    obtain ⟨noNul, notNul, later⟩ := noNul
    by_cases same : c = delim
    · have pushed := pushText_word noNul absent done (rest ++ 0 :: tail) _list
      have next := @ih (done ++ word ++ [0]) [] (by simpa using later) (by simp)
        ((c :: rest).length + fuel) (by simp only [List.length_cons]; omega)
        (_list ++ pieces word delim)
      simp only [List.append_assoc, List.nil_append, List.singleton_append, List.length_append,
        List.length_nil, List.length_singleton, Nat.add_zero] at next pushed ⊢
      subst same
      rw [if_pos (Ne.symm notNul), if_pos rfl, pushed, pieces_delimited]
      simp only [← Nat.add_assoc] at next ⊢
      exact next
    · have next := @ih done (word ++ [c]) (by simp [noNul, notNul, later])
        (by simp [absent, Ne.symm same]) ((c :: rest).length + fuel)
        (by simp only [List.length_cons]; omega) _list
      simp only [List.append_assoc, List.singleton_append, List.length_append,
        List.length_singleton] at next ⊢
      rw [if_pos (Ne.symm notNul), if_neg same]
      exact next

theorem pieces_runs (str : Str) (delim : UInt8) :
    ∃ runs, Runs (· ≠ delim) str runs ∧ pieces str delim = runs.map Prod.snd := by
  have filled {s : Str} (absent : delim ∉ s) :
      (∀ c ∈ s, c ≠ delim) ∧ pieces s delim = (filling s).map Prod.snd := by
    refine ⟨fun c member same => absent (same ▸ member), ?_⟩
    rw [pieces_whole absent]
    cases s <;> simp [filling]
  generalize length : str.length = n
  induction n using Nat.strong_induction_on generalizing str with
  | _ n ih =>
    by_cases member : delim ∈ str
    · obtain ⟨first, rest, rfl, absent⟩ := List.eq_append_cons_of_mem member
      obtain ⟨all, piece⟩ := filled absent
      obtain ⟨runs, behind, others⟩ := ih rest.length (by simp at length; omega) rest rfl
      refine ⟨_, runs_split all (by simp) behind, ?_⟩
      rw [pieces_delimited, piece, others, List.map_append, List.map_map]
      rfl
    · obtain ⟨all, piece⟩ := filled member
      exact ⟨filling str, runs_whole all, piece⟩

theorem str2list_ok {host : Host} (str : Text host) (noNul : 0 ∉ str.chars)
    (delimited : delim ≠ 0) : str2list host str.chars delim = .ok (pieces str.chars delim) := by
  have size : sizeAdd host str.chars.length 2 = str.chars.length + 2 := sizeAdd_fits str.fits
  have run := @str2listLoop_ok delim delimited str.chars [] [] [0] noNul (by simp)
    (str.chars.length + 1) (by omega) []
  simp only [List.nil_append, List.length_nil, Nat.add_zero] at run
  rw [str2list, memcpy, size, List.length_replicate, if_pos (by omega), List.drop_replicate,
    Nat.add_sub_cancel_left]
  exact run

/-- Both splitters return the maximal runs of characters other than the delimiter, each once
    and in order. -/
theorem splitters_agree {host : Host} (str : Text host) (noNul : 0 ∉ str.chars)
    (delimited : delim ≠ 0) : ∃ runs, Runs (· ≠ delim) str.chars runs ∧
      str2list host str.chars delim = .ok (runs.map Prod.snd) ∧
      str2vector host str.chars delim = .ok (runs.map Prod.snd) := by
  obtain ⟨runs, isRuns, same⟩ := pieces_runs str.chars delim
  rw [str2list_ok str noNul delimited, str2vector_ok delim str.short, same]
  exact ⟨runs, isRuns, rfl, rfl⟩

theorem splitters_agree_padded :
    ∃ runs, Runs (· ≠ ch ';') [ch ';', ch 'a', ch ';', ch ';', ch 'b'] runs ∧
      str2list ⟨64, by decide⟩ [ch ';', ch 'a', ch ';', ch ';', ch 'b'] (ch ';') =
        .ok (runs.map Prod.snd) ∧
      str2vector ⟨64, by decide⟩ [ch ';', ch 'a', ch ';', ch ';', ch 'b'] (ch ';') =
        .ok (runs.map Prod.snd) :=
  @splitters_agree (ch ';') ⟨64, by decide⟩
    ⟨[ch ';', ch 'a', ch ';', ch ';', ch 'b'], by decide⟩ (by decide) (by decide)

end Splitters
