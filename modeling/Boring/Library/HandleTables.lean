import Mathlib.Data.List.Nodup

/- Handles that a system gives out and may give out again once they are closed, with the
   close calls made on each since it was last given out. -/
namespace HandleTables

variable {Handle : Type} [DecidableEq Handle]

structure Table (Handle : Type) where
  opened : List Handle
  closes : List Handle
  deriving DecidableEq, Repr

namespace Table

def give (t : Table Handle) (h : Handle) : Table Handle :=
  ⟨h :: t.opened, t.closes.filter (· ≠ h)⟩

def close (t : Table Handle) (h : Handle) : Table Handle :=
  ⟨t.opened.filter (· ≠ h), t.closes ++ [h]⟩

/-- A close behind a test for the value that stands for no handle. -/
def closeValid (invalid : Handle) (t : Table Handle) (h : Handle) : Table Handle :=
  if h ≠ invalid then t.close h else t

def closeAll (invalid : Handle) (t : Table Handle) (hs : List Handle) : Table Handle :=
  hs.foldl (closeValid invalid) t

/-- Each handle in `owners` is open, has not been closed, and has one owner. -/
structure Sole (t : Table Handle) (owners : List Handle) : Prop where
  single : owners.Nodup
  opened : ∀ h ∈ owners, h ∈ t.opened
  shut : ∀ h ∈ t.closes, h ∉ t.opened

omit [DecidableEq Handle] in
theorem sole_unclosed {t : Table Handle} {owners : List Handle} (sole : t.Sole owners)
    {h : Handle} (owned : h ∈ owners) : h ∉ t.closes := by
  intro closed
  exact sole.shut h closed (sole.opened h owned)

omit [DecidableEq Handle] in
theorem sole_perm {t : Table Handle} {owners others : List Handle} (sole : t.Sole owners)
    (moved : others.Perm owners) : t.Sole others := by
  refine ⟨moved.nodup_iff.mpr sole.single, ?_, sole.shut⟩
  intro h owned
  exact sole.opened h (moved.mem_iff.mp owned)

theorem sole_give {t : Table Handle} {owners : List Handle} {h : Handle}
    (sole : t.Sole owners) (fresh : h ∉ t.opened) : (t.give h).Sole (h :: owners) := by
  obtain ⟨single, opened, shut⟩ := sole
  refine ⟨List.nodup_cons.mpr ⟨fun owned => fresh (opened h owned), single⟩, ?_, ?_⟩
  · intro x owned
    rcases List.mem_cons.mp owned with rfl | old
    · exact List.mem_cons_self
    · exact List.mem_cons_of_mem h (opened x old)
  · intro x closed
    simp only [give, List.mem_filter, decide_eq_true_eq] at closed
    intro listed
    rcases List.mem_cons.mp listed with same | old
    · exact closed.2 same
    · exact shut x closed.1 old

theorem sole_close {t : Table Handle} {owners : List Handle} {h : Handle}
    (sole : t.Sole (h :: owners)) : (t.close h).Sole owners := by
  obtain ⟨single, opened, shut⟩ := sole
  obtain ⟨other, single⟩ := List.nodup_cons.mp single
  refine ⟨single, ?_, ?_⟩
  · intro x owned
    have different : x ≠ h := by
      rintro rfl
      exact other owned
    simp [close, different, opened x (List.mem_cons_of_mem h owned)]
  · intro x closed listed
    simp only [close, List.mem_filter, decide_eq_true_eq] at listed
    rcases List.mem_append.mp closed with old | new
    · exact shut x old listed.1
    · exact listed.2 (List.mem_singleton.mp new)

theorem sole_closeValid {invalid : Handle} {t : Table Handle} {owners : List Handle}
    {h : Handle} (sole : t.Sole (h :: owners)) : (closeValid invalid t h).Sole owners := by
  unfold closeValid
  by_cases valid : h ≠ invalid
  · rw [if_pos valid]
    exact sole_close sole
  · rw [if_neg valid]
    refine ⟨(List.nodup_cons.mp sole.single).2, ?_, sole.shut⟩
    intro x owned
    exact sole.opened x (List.mem_cons_of_mem h owned)

theorem sole_closeAll {invalid : Handle} {t : Table Handle} {hs owners : List Handle}
    (sole : t.Sole (hs ++ owners)) : (closeAll invalid t hs).Sole owners := by
  induction hs generalizing t with
  | nil => exact sole
  | cons h hs ih => exact ih (sole_closeValid sole)

theorem mem_closeValid {invalid : Handle} {t : Table Handle} {h x : Handle} :
    x ∈ (closeValid invalid t h).closes ↔ x ∈ t.closes ∨ x ≠ invalid ∧ x = h := by
  unfold closeValid
  by_cases valid : h ≠ invalid
  · rw [if_pos valid, close, List.mem_append, List.mem_singleton]
    refine or_congr Iff.rfl ⟨?_, And.right⟩
    rintro rfl
    exact ⟨valid, rfl⟩
  · rw [if_neg valid]
    refine ⟨Or.inl, ?_⟩
    rintro (closed | ⟨different, rfl⟩)
    · exact closed
    · exact absurd different valid

theorem mem_closeAll {invalid : Handle} {t : Table Handle} {hs : List Handle} {x : Handle} :
    x ∈ (closeAll invalid t hs).closes ↔ x ∈ t.closes ∨ x ≠ invalid ∧ x ∈ hs := by
  induction hs generalizing t with
  | nil => simp [closeAll]
  | cons h hs ih =>
    have unfolded : closeAll invalid t (h :: hs) = closeAll invalid (closeValid invalid t h) hs :=
      rfl
    rw [unfolded, ih, mem_closeValid, List.mem_cons, or_assoc, ← and_or_left]

end Table

end HandleTables
