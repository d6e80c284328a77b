import Mathlib.Data.List.Induction
import Mathlib.Data.List.Nodup
import Mathlib.Logic.Function.Basic

/- A finite map as the function of its lookups, and histories of assignments and
   removals. A map is determined by its entries when these repeat no key. -/
namespace Bindings

variable {Key Value : Type} [DecidableEq Key]

abbrev Lookup (Key Value : Type) := Key → Option Value

inductive Change (Key Value : Type) where
  | assign (k : Key) (v : Value)
  | remove (k : Key)

def Change.key : Change Key Value → Key
  | .assign k _ => k
  | .remove k => k

def apply (b : Lookup Key Value) : Change Key Value → Lookup Key Value
  | .assign k v => Function.update b k (some v)
  | .remove k => Function.update b k none

def unbound : Lookup Key Value := fun _ => none

def replay (b : Lookup Key Value) (history : List (Change Key Value)) : Lookup Key Value :=
  history.foldl apply b

def assignments (entries : List (Key × Value)) : List (Change Key Value) :=
  entries.map fun e => .assign e.1 e.2

theorem apply_other (b : Lookup Key Value) (c : Change Key Value) {k : Key} (other : c.key ≠ k) :
    apply b c k = b k := by
  cases c <;> exact Function.update_of_ne (Ne.symm other) ..

theorem replay_others (b : Lookup Key Value) {history : List (Change Key Value)} {k : Key}
    (others : ∀ c ∈ history, c.key ≠ k) : replay b history k = b k := by
  induction history generalizing b with
  | nil => rfl
  | cons c rest ih =>
    rw [replay, List.foldl_cons, ← replay,
      ih (apply b c) fun c member => others c (by simp [member])]
    exact apply_other b c (others c (by simp))

theorem replay_append (b : Lookup Key Value) (before after : List (Change Key Value)) :
    replay b (before ++ after) = replay (replay b before) after :=
  List.foldl_append

theorem replay_unbound_some (history : List (Change Key Value)) (k : Key) (v : Value) :
    replay unbound history k = some v ↔
      ∃ before after, history = before ++ .assign k v :: after ∧ ∀ c ∈ after, c.key ≠ k := by
  induction history using List.reverseRecOn with
  | nil => simp [replay, unbound]
  | append_singleton before c ih =>
    rw [replay_append]
    by_cases same : c.key = k
    · constructor
      · intro bound
        cases c with
        | assign k' v' =>
          obtain rfl : k' = k := same
          have value : v' = v := by simpa [replay, apply] using bound
          exact ⟨before, [], by rw [value], by simp⟩
        | remove k' =>
          obtain rfl : k' = k := same
          simp [replay, apply] at bound
      · rintro ⟨front, back, split, others⟩
        rcases List.eq_nil_or_concat' back with rfl | ⟨rest, last, rfl⟩
        · obtain ⟨_, rfl⟩ := List.append_inj' split rfl |>.imp id fun e => (List.cons.inj e).1
          simp [replay, apply]
        · rw [← List.cons_append, ← List.append_assoc] at split
          have lastSame : c = last := (List.cons.inj (List.append_inj' split rfl).2).1
          exact absurd same (others c (by simp [lastSame]))
    · rw [replay_others _ (by simpa using same), ih]
      constructor
      · rintro ⟨front, back, rfl, others⟩
        refine ⟨front, back ++ [c], by simp, ?_⟩
        intro x member
        rcases List.mem_append.mp member with old | new
        · exact others x old
        · exact List.mem_singleton.mp new ▸ same
      · rintro ⟨front, back, split, others⟩
        rcases List.eq_nil_or_concat' back with rfl | ⟨rest, last, rfl⟩
        · have lastSame : c = .assign k v := (List.cons.inj (List.append_inj' split rfl).2).1
          exact absurd (by rw [lastSame]; rfl) same
        · rw [← List.cons_append, ← List.append_assoc] at split
          obtain ⟨same, _⟩ := List.append_inj' split rfl
          exact ⟨front, rest, same, fun x member => others x (by simp [member])⟩

theorem replay_concat (b : Lookup Key Value) (before : List (Key × Value)) (e : Key × Value)
    (k : Key) : replay b (assignments (before ++ [e])) k =
      if k = e.1 then some e.2 else replay b (assignments before) k := by
  rw [assignments, List.map_append, replay_append]
  by_cases same : k = e.1
  · simp [replay, apply, same]
  · simp [replay, assignments, apply, same]

theorem replay_assignments (b : Lookup Key Value) (entries : List (Key × Value)) (k : Key) :
    replay b (assignments entries) k =
      (replay unbound (assignments entries) k).or (b k) := by
  induction entries using List.reverseRecOn with
  | nil => rfl
  | append_singleton before e ih =>
    rw [replay_concat, replay_concat, ih]
    split <;> rfl

theorem replay_values {Image : Type} (f : Value → Image) (entries : List (Key × Value))
    (k : Key) : replay unbound (assignments (entries.map fun e => (e.1, f e.2))) k =
      (replay unbound (assignments entries) k).map f := by
  induction entries using List.reverseRecOn with
  | nil => rfl
  | append_singleton before e ih =>
    rw [List.map_append, List.map_singleton, replay_concat, replay_concat, ih]
    split <;> rfl

theorem replay_keys (kept : Key → Prop) [DecidablePred kept] (entries : List (Key × Value))
    (k : Key) : replay unbound (assignments (entries.filter fun e => kept e.1)) k =
      if kept k then replay unbound (assignments entries) k else none := by
  induction entries using List.reverseRecOn with
  | nil => simp [assignments, replay, unbound]
  | append_singleton before e ih =>
    rw [List.filter_append, replay_concat]
    by_cases keep : kept e.1
    · have one : [e].filter (fun e => kept e.1) = [e] := by simp [keep]
      rw [one, replay_concat, ih]
      by_cases same : k = e.1
      · simp [same, keep]
      · simp [same]
    · have none : [e].filter (fun e => kept e.1) = [] := by simp [keep]
      rw [none, List.append_nil, ih]
      by_cases same : k = e.1
      · simp [same, keep]
      · simp [same]

theorem replay_distinct {entries : List (Key × Value)} (distinct : (entries.map Prod.fst).Nodup)
    (k : Key) (v : Value) :
    replay unbound (assignments entries) k = some v ↔ (k, v) ∈ entries := by
  rw [replay_unbound_some]
  constructor
  · rintro ⟨before, after, split, _⟩
    have member : Change.assign k v ∈ assignments entries := by simp [split]
    obtain ⟨⟨k', v'⟩, inside, equal⟩ := List.mem_map.mp member
    cases equal
    exact inside
  · intro member
    obtain ⟨before, after, rfl⟩ := List.append_of_mem member
    refine ⟨assignments before, assignments after, by simp [assignments], ?_⟩
    intro c inside
    obtain ⟨⟨k', v'⟩, later, rfl⟩ := List.mem_map.mp inside
    rw [List.map_append, List.map_cons, List.nodup_append, List.nodup_cons] at distinct
    rintro rfl
    exact distinct.2.1.1 (List.mem_map.mpr ⟨(k', v'), later, rfl⟩)

theorem replay_entries (entries : List (Key × Value)) (distinct : (entries.map Prod.fst).Nodup)
    (b : Lookup Key Value) (same : ∀ k v, (k, v) ∈ entries ↔ b k = some v) :
    replay unbound (assignments entries) = b := by
  funext k
  apply Option.ext
  intro v
  rw [← same, replay_distinct distinct]

end Bindings
