import Mathlib.Data.List.Nodup

/- What a component has created and what it has released, in order, one entry for each
   act, so that a second release of the same resource shows. -/
namespace Ledgers

variable {α : Type} [DecidableEq α]

structure Ledger (α : Type) where
  created : List α
  released : List α
  deriving DecidableEq, Repr

namespace Ledger

def Held (l : Ledger α) (r : α) : Prop := r ∈ l.created ∧ r ∉ l.released

instance (l : Ledger α) (r : α) : Decidable (l.Held r) :=
  inferInstanceAs (Decidable (_ ∧ _))

def create (l : Ledger α) (r : α) : Ledger α := { l with created := l.created ++ [r] }

def drop (l : Ledger α) (r : α) : Ledger α := { l with released := l.released ++ [r] }

/-- A release behind a test: what is not held is left alone. -/
def release (l : Ledger α) (r : α) : Ledger α := if l.Held r then l.drop r else l

def releaseAll (l : Ledger α) (rs : List α) : Ledger α := rs.foldl release l

/-- Nothing is created twice, released twice or released without being created. -/
structure Sound (l : Ledger α) : Prop where
  fresh : l.created.Nodup
  once : l.released.Nodup
  owned : ∀ r ∈ l.released, r ∈ l.created

/-- Everything created has been released exactly once. -/
def Settled (l : Ledger α) : Prop := ∀ r ∈ l.created, l.released.count r = 1

omit [DecidableEq α] in
theorem held_drop {l : Ledger α} {r x : α} : (l.drop r).Held x ↔ l.Held x ∧ x ≠ r := by
  simp only [Held, drop, List.mem_append, List.mem_singleton, not_or, and_assoc]

theorem held_release {l : Ledger α} {r x : α} : (l.release r).Held x ↔ l.Held x ∧ x ≠ r := by
  unfold release
  by_cases held : l.Held r
  · rw [if_pos held, held_drop]
  · rw [if_neg held]
    refine ⟨fun other => ⟨other, ?_⟩, And.left⟩
    rintro rfl
    exact held other

theorem held_releaseAll {l : Ledger α} {rs : List α} {x : α} :
    (l.releaseAll rs).Held x ↔ l.Held x ∧ x ∉ rs := by
  induction rs generalizing l with
  | nil => simp [releaseAll]
  | cons r rs ih =>
    have unfolded : l.releaseAll (r :: rs) = (l.release r).releaseAll rs := rfl
    rw [unfolded, ih, held_release, and_assoc, List.mem_cons, not_or]

omit [DecidableEq α] in
theorem sound_drop {l : Ledger α} {r : α} (sound : l.Sound) (held : l.Held r) :
    (l.drop r).Sound := by
  refine ⟨sound.fresh, ?_, ?_⟩
  · apply sound.once.append (List.nodup_singleton r)
    intro x released single
    obtain rfl := List.mem_singleton.mp single
    exact held.2 released
  · intro x member
    rcases List.mem_append.mp member with old | new
    · exact sound.owned x old
    · exact List.mem_singleton.mp new ▸ held.1

theorem sound_release {l : Ledger α} (r : α) (sound : l.Sound) : (l.release r).Sound := by
  unfold release
  by_cases held : l.Held r
  · rw [if_pos held]
    exact sound_drop sound held
  · rw [if_neg held]
    exact sound

theorem sound_releaseAll {l : Ledger α} (rs : List α) (sound : l.Sound) :
    (l.releaseAll rs).Sound := by
  induction rs generalizing l with
  | nil => exact sound
  | cons r rs ih => exact ih (sound_release r sound)

omit [DecidableEq α] in
theorem sound_unreleased {created : List α} (fresh : created.Nodup) :
    (⟨created, []⟩ : Ledger α).Sound :=
  ⟨fresh, List.nodup_nil, by simp⟩

theorem settled_of_sound {l : Ledger α} (sound : l.Sound) (none : ∀ r, ¬ l.Held r) :
    l.Settled := by
  intro r created
  have released : r ∈ l.released := by
    by_contra missing
    exact none r ⟨created, missing⟩
  exact List.count_eq_one_of_mem sound.once released

theorem not_settled {l : Ledger α} {r : α} (held : l.Held r) : ¬ l.Settled := by
  intro settled
  have once := settled r held.1
  rw [List.count_eq_zero_of_not_mem held.2] at once
  omega

end Ledger

end Ledgers
