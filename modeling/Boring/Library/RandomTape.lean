import Boring.Library.Bindings

/- A list of cells that is overwritten at a position and grown with blanks. `Records`
   compares the cells with the last value written at each position. -/
namespace RandomTape
open Bindings

variable {Cell : Type}

def overwrite (cells : List Cell) (start : Nat) (data : List Cell) : List Cell :=
  cells.take start ++ data ++ cells.drop (start + data.length)

def grow (blank : Cell) (cells : List Cell) (size : Nat) : List Cell :=
  cells ++ List.replicate (size - cells.length) blank

/-- One assignment for each cell of `data`, the first of them at `start`. -/
def placed (start : Nat) : List Cell → List (Nat × Cell)
  | [] => []
  | c :: rest => (start, c) :: placed (start + 1) rest

/-- Each cell shows what was last written at its position, or a blank. -/
structure Records (blank : Cell) (cells : List Cell) (written : Lookup Nat Cell) : Prop where
  beyond : ∀ i, cells.length ≤ i → written i = none
  reads : ∀ i, i < cells.length → cells[i]? = some ((written i).getD blank)

theorem overwrite_length {cells data : List Cell} {start : Nat} (inside : start ≤ cells.length) :
    (overwrite cells start data).length = max cells.length (start + data.length) := by
  simp only [overwrite, List.length_append, List.length_take, List.length_drop]
  omega

theorem overwrite_before {cells data : List Cell} {start i : Nat} (inside : start ≤ cells.length)
    (before : i < start) : (overwrite cells start data)[i]? = cells[i]? := by
  rw [overwrite, List.append_assoc, List.getElem?_append_left (by simp; omega),
    List.getElem?_take_of_lt before]

theorem overwrite_within {cells data : List Cell} {start i : Nat} (inside : start ≤ cells.length)
    (first : start ≤ i) (last : i < start + data.length) :
    (overwrite cells start data)[i]? = data[i - start]? := by
  have front : (cells.take start).length = start := by simp [inside]
  rw [overwrite, List.append_assoc, List.getElem?_append_right (by omega), front,
    List.getElem?_append_left (by omega)]

theorem overwrite_behind {cells data : List Cell} {start i : Nat} (inside : start ≤ cells.length)
    (behind : start + data.length ≤ i) : (overwrite cells start data)[i]? = cells[i]? := by
  have front : (cells.take start ++ data).length = start + data.length := by simp [inside]
  rw [overwrite, List.getElem?_append_right (by omega), front, List.getElem?_drop]
  congr 1
  omega

theorem overwrite_nil {cells : List Cell} (start : Nat) : overwrite cells start [] = cells := by
  rw [overwrite, List.append_nil, List.length_nil, Nat.add_zero, List.take_append_drop]

theorem overwrite_overwrite {cells first second : List Cell} {start : Nat}
    (inside : start ≤ cells.length) :
    overwrite (overwrite cells start first) (start + first.length) second =
      overwrite cells start (first ++ second) := by
  have front : (cells.take start ++ first).length = start + first.length := by simp [inside]
  have kept : (overwrite cells start first).take (start + first.length) =
      cells.take start ++ first := by
    rw [overwrite, ← front, List.take_left]
  have left : (overwrite cells start first).drop (start + first.length + second.length) =
      cells.drop (start + first.length + second.length) := by
    rw [overwrite, ← List.drop_drop, ← front, List.drop_left, front, List.drop_drop]
  rw [overwrite, kept, left, overwrite, List.length_append, Nat.add_assoc]
  simp only [List.append_assoc]

theorem replay_placed (b : Lookup Nat Cell) (start : Nat) (data : List Cell) (i : Nat) :
    replay b (assignments (placed start data)) i =
      if start ≤ i ∧ i < start + data.length then data[i - start]? else b i := by
  induction data generalizing b start with
  | nil => rw [if_neg (by simp only [List.length_nil]; omega)]; rfl
  | cons c rest ih =>
    have unfolded : replay b (assignments (placed start (c :: rest))) i =
        replay (Function.update b start (some c)) (assignments (placed (start + 1) rest)) i := rfl
    rw [unfolded, ih, List.length_cons]
    rcases Nat.lt_trichotomy i start with before | rfl | after
    · rw [if_neg (by omega), if_neg (by omega), Function.update_of_ne (by omega)]
    · rw [if_neg (by omega), if_pos (by omega), Function.update_self, Nat.sub_self]
      rfl
    · have next : i - start = i - (start + 1) + 1 := by omega
      by_cases last : i < start + (rest.length + 1)
      · rw [if_pos (by omega), if_pos (by omega), next, List.getElem?_cons_succ]
      · rw [if_neg (by omega), if_neg (by omega), Function.update_of_ne (by omega)]

theorem records_nil (blank : Cell) : Records blank [] unbound :=
  ⟨fun _ _ => rfl, fun i inside => absurd inside (Nat.not_lt_zero i)⟩

theorem records_blanks (blank : Cell) (size : Nat) :
    Records blank (List.replicate size blank) unbound := by
  constructor
  · intro i _
    rfl
  · intro i inside
    rw [List.length_replicate] at inside
    rw [List.getElem?_replicate_of_lt inside]
    rfl

theorem records_overwrite {blank : Cell} {cells data : List Cell} {written : Lookup Nat Cell}
    {start : Nat} (records : Records blank cells written) (inside : start ≤ cells.length) :
    Records blank (overwrite cells start data)
      (replay written (assignments (placed start data))) := by
  constructor
  · intro i beyond
    rw [overwrite_length inside] at beyond
    rw [replay_placed, if_neg (by omega)]
    exact records.beyond i (by omega)
  · intro i within
    rw [overwrite_length inside] at within
    rw [replay_placed]
    by_cases field : start ≤ i ∧ i < start + data.length
    · rw [if_pos field, overwrite_within inside field.1 field.2,
        List.getElem?_eq_getElem (by omega)]
      rfl
    · rw [if_neg field, ← records.reads i (by omega)]
      rcases Nat.lt_or_ge i start with before | first
      · exact overwrite_before inside before
      · exact overwrite_behind inside (by omega)

theorem grow_length (blank : Cell) (cells : List Cell) (size : Nat) :
    (grow blank cells size).length = max cells.length size := by
  rw [grow, List.length_append, List.length_replicate]
  omega

theorem grow_old (blank : Cell) {cells : List Cell} {i : Nat} (size : Nat)
    (old : i < cells.length) : (grow blank cells size)[i]? = cells[i]? :=
  List.getElem?_append_left old

theorem records_grow {blank : Cell} {cells : List Cell} {written : Lookup Nat Cell}
    (records : Records blank cells written) (size : Nat) :
    Records blank (grow blank cells size) written := by
  constructor
  · intro i beyond
    rw [grow_length] at beyond
    exact records.beyond i (by omega)
  · intro i within
    rw [grow_length] at within
    by_cases old : i < cells.length
    · rw [grow_old blank size old, records.reads i old]
    · rw [grow, List.getElem?_append_right (by omega), records.beyond i (by omega),
        List.getElem?_replicate_of_lt (by omega)]
      rfl

end RandomTape
