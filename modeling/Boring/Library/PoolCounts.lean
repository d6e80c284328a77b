import Mathlib.Data.List.Basic

/- Sums over the members of a pool of threads, one of which makes a step. -/
namespace PoolCounts

variable {α : Type}

def total (f : α → Nat) : List α → Nat
  | [] => 0
  | x :: pool => f x + total f pool

@[simp] theorem total_nil (f : α → Nat) : total f [] = 0 := rfl

@[simp] theorem total_cons (f : α → Nat) (x : α) (pool : List α) :
    total f (x :: pool) = f x + total f pool := rfl

@[simp] theorem total_append (f : α → Nat) (front back : List α) :
    total f (front ++ back) = total f front + total f back := by
  induction front with
  | nil => simp
  | cons x front ih => simp [ih, Nat.add_assoc]

theorem set_split {pool : List α} {i : Nat} {x : α} (member : pool[i]? = some x) :
    ∃ front back, pool = front ++ x :: back ∧ ∀ y, pool.set i y = front ++ y :: back := by
  obtain ⟨bound, rfl⟩ := List.getElem?_eq_some_iff.mp member
  refine ⟨pool.take i, pool.drop (i + 1), ?_, ?_⟩
  · rw [← List.drop_eq_getElem_cons bound, List.take_append_drop]
  · intro y
    rw [List.set_eq_take_append_cons_drop, if_pos bound]

theorem total_le_length {f : α → Nat} {pool : List α} (bounded : ∀ x ∈ pool, f x ≤ 1) :
    total f pool ≤ pool.length := by
  induction pool with
  | nil => exact Nat.le_refl 0
  | cons x pool ih =>
    have first := bounded x (by simp)
    have rest := ih fun y member => bounded y (by simp [member])
    rw [total_cons, List.length_cons]
    omega

theorem total_full {f : α → Nat} {pool : List α} (bounded : ∀ x ∈ pool, f x ≤ 1)
    (full : total f pool = pool.length) : ∀ x ∈ pool, f x = 1 := by
  induction pool with
  | nil => simp
  | cons x pool ih =>
    have first := bounded x (by simp)
    have others := total_le_length fun y member => bounded y (List.mem_cons_of_mem x member)
    rw [total_cons, List.length_cons] at full
    intro y member
    rcases List.mem_cons.mp member with rfl | later
    · omega
    · exact ih (fun z inside => bounded z (by simp [inside])) (by omega) y later

end PoolCounts
