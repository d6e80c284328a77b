import Mathlib.Data.List.Basic
import Mathlib.Data.List.DropRight

/- Parts of a list that a test on its items singles out: the core that is left when items
   are dropped at both ends, and the maximal runs of kept items. -/
namespace ListParts

variable {α : Type}

section Cores

variable {p : α → Bool}

/-- `core` is `s` without a front and a back of dropped items, and empty or with items at
    both ends that are kept. -/
structure Core (p : α → Bool) (s core : List α) : Prop where
  inside : ∃ front back, s = front ++ core ++ back ∧ (∀ c ∈ front, p c = true) ∧
    ∀ c ∈ back, p c = true
  first : ∀ c, core.head? = some c → p c = false
  last : ∀ c, core.getLast? = some c → p c = false

theorem rdropWhile_kept {c : α} (kept : p c = false) (front back : List α) :
    (front ++ c :: back).rdropWhile p = front ++ c :: back.rdropWhile p := by
  rw [List.rdropWhile, List.reverse_append, List.reverse_cons, List.append_assoc,
    List.dropWhile_append]
  cases left : back.reverse.dropWhile p with
  | nil => simp [List.rdropWhile, left, kept]
  | cons d rest => simp [List.rdropWhile, left]

theorem rdropWhile_last {s : List α} (c : α) (last : (s.rdropWhile p).getLast? = some c) :
    p c = false := by
  have nonempty : s.rdropWhile p ≠ [] := by
    intro none
    simp [none] at last
  rw [List.getLast?_eq_some_getLast nonempty, Option.some_inj] at last
  have kept := List.rdropWhile_last_not p s nonempty
  rw [last] at kept
  simpa using kept

theorem core_drops (p : α → Bool) (s : List α) : Core p s ((s.rdropWhile p).dropWhile p) := by
  have rest := List.takeWhile_append_dropWhile (p := p) (l := s.rdropWhile p)
  constructor
  · refine ⟨(s.rdropWhile p).takeWhile p, s.rtakeWhile p, ?_, ?_, ?_⟩
    · rw [rest, List.rdropWhile_append_rtakeWhile]
    · exact fun c member => List.mem_takeWhile_imp member
    · exact fun c member => List.mem_rtakeWhile_imp member
  · intro c first
    have kept := List.head?_dropWhile_not p (s.rdropWhile p)
    rw [first] at kept
    simpa using kept
  · intro c last
    have same : (s.rdropWhile p).getLast? = some c := by
      rw [← rest, List.getLast?_append, last]
      rfl
    exact rdropWhile_last c same

theorem core_unique {s core : List α} (isCore : Core p s core) :
    core = (s.rdropWhile p).dropWhile p := by
  obtain ⟨⟨front, back, rfl, inFront, inBack⟩, first, last⟩ := isCore
  rcases List.eq_nil_or_concat' core with rfl | ⟨init, c, rfl⟩
  · have all : (front ++ [] ++ back).rdropWhile p = [] := by
      rw [List.rdropWhile_eq_nil_iff]
      intro x member
      simp only [List.append_nil, List.mem_append] at member
      exact member.elim (inFront x) (inBack x)
    rw [all]
    rfl
  · have kept := last c (by simp)
    have stripped : back.rdropWhile p = [] := List.rdropWhile_eq_nil_iff.mpr inBack
    have grouped : front ++ (init ++ [c]) ++ back = front ++ init ++ c :: back := by simp
    rw [grouped, rdropWhile_kept kept, stripped, List.append_assoc,
      List.dropWhile_append_of_pos inFront]
    obtain ⟨d, rest, begins⟩ := List.exists_cons_of_ne_nil (show init ++ [c] ≠ [] by simp)
    rw [begins, List.dropWhile_cons_of_neg]
    simp [first d (by rw [begins]; rfl)]

theorem core_self {s core : List α} (isCore : Core p s core) : Core p core core :=
  ⟨⟨[], [], by simp, by simp, by simp⟩, isCore.first, isCore.last⟩

theorem core_padded {front s core back : List α} (isCore : Core p s core)
    (inFront : ∀ c ∈ front, p c = true) (inBack : ∀ c ∈ back, p c = true) :
    Core p (front ++ s ++ back) core := by
  obtain ⟨⟨left, right, rfl, inLeft, inRight⟩, first, last⟩ := isCore
  refine ⟨⟨front ++ left, right ++ back, by simp, ?_, ?_⟩, first, last⟩
  · intro c member
    exact (List.mem_append.mp member).elim (inFront c) (inLeft c)
  · intro c member
    exact (List.mem_append.mp member).elim (inRight c) (inBack c)

theorem core_drops_front (p : α → Bool) (s : List α) :
    Core p s ((s.dropWhile p).rdropWhile p) := by
  have rest := List.rdropWhile_append_rtakeWhile (p := p) (l := s.dropWhile p)
  constructor
  · refine ⟨s.takeWhile p, (s.dropWhile p).rtakeWhile p, ?_, ?_, ?_⟩
    · rw [List.append_assoc, rest, List.takeWhile_append_dropWhile]
    · exact fun c member => List.mem_takeWhile_imp member
    · exact fun c member => List.mem_rtakeWhile_imp member
  · intro c first
    have same : (s.dropWhile p).head? = some c := by
      rw [← rest, List.head?_append, first]
      rfl
    have kept := List.head?_dropWhile_not p s
    rw [same] at kept
    simpa using kept
  · exact fun c => rdropWhile_last c

end Cores

section Runs

variable {kept : α → Prop}

/-- `run` stands in `s` behind `front`, all of it is kept, and neither neighbour is. -/
structure Maximal (kept : α → Prop) (s front run back : List α) : Prop where
  split : s = front ++ run ++ back
  nonempty : run ≠ []
  inside : ∀ c ∈ run, kept c
  before : ∀ c, front.getLast? = some c → ¬ kept c
  behind : ∀ c, back.head? = some c → ¬ kept c

/-- The maximal runs in their order, each once, with what stands before it. -/
structure Runs (kept : α → Prop) (s : List α) (runs : List (List α × List α)) : Prop where
  ordered : runs.Pairwise fun x y => x.1.length < y.1.length
  exactly : ∀ front run, (front, run) ∈ runs ↔ ∃ back, Maximal kept s front run back

theorem maximal_whole {s front run back : List α} (all : ∀ c ∈ s, kept c) :
    Maximal kept s front run back ↔ front = [] ∧ run = s ∧ back = [] ∧ s ≠ [] := by
  constructor
  · rintro ⟨rfl, nonempty, _, before, behind⟩
    have noFront : front = [] := by
      rcases List.eq_nil_or_concat' front with none | ⟨init, c, rfl⟩
      · exact none
      · exact absurd (all c (by simp)) (before c (by simp))
    have noBack : back = [] := by
      cases back with
      | nil => rfl
      | cons c rest => exact absurd (all c (by simp)) (behind c rfl)
    subst noFront noBack
    exact ⟨rfl, by simp, rfl, by simpa using nonempty⟩
  · rintro ⟨rfl, rfl, rfl, nonempty⟩
    exact ⟨by simp, nonempty, all, by simp, by simp⟩

theorem maximal_split {first rest front run back : List α} {d : α} (all : ∀ c ∈ first, kept c)
    (dropped : ¬ kept d) : Maximal kept (first ++ d :: rest) front run back ↔
      (front = [] ∧ run = first ∧ back = d :: rest ∧ first ≠ []) ∨
        ∃ front', front = first ++ d :: front' ∧ Maximal kept rest front' run back := by
  have last (front' : List α) (c : α) :
      (first ++ d :: front').getLast? = some c ↔ front'.getLast?.getD d = c := by
    rw [List.getLast?_append, List.getLast?_cons]
    simp
  constructor
  · rintro ⟨split, nonempty, inside, before, behind⟩
    obtain ⟨r, others, rfl⟩ := List.exists_cons_of_ne_nil nonempty
    rw [List.append_assoc, List.append_eq_append_iff] at split
    rcases split with ⟨between, rfl, left⟩ | ⟨between, rfl, left⟩
    · right
      cases between with
      | nil =>
        obtain rfl : d = r := (List.cons.inj left).1
        exact absurd (inside d (by simp)) dropped
      | cons e front' =>
        obtain ⟨rfl, same⟩ := List.cons.inj left
        refine ⟨front', rfl, ?_, nonempty, inside, ?_, behind⟩
        · exact same.trans (List.append_assoc ..).symm
        · intro c isLast
          exact before c ((last front' c).mpr (by rw [isLast]; rfl))
    · left
      have none : front = [] := by
        rcases List.eq_nil_or_concat' front with none | ⟨init, c, rfl⟩
        · exact none
        · exact absurd (all c (by simp)) (before c (by simp))
      subst none
      rw [List.nil_append] at all ⊢
      rw [List.append_eq_append_iff] at left
      rcases left with ⟨extra, rfl, rfl⟩ | ⟨extra, same, tail⟩
      · cases extra with
        | nil => simp
        | cons e extra => exact absurd (all e (by simp)) (behind e rfl)
      · cases extra with
        | nil =>
          rw [List.append_nil] at same
          exact ⟨rfl, same, tail.symm, same ▸ nonempty⟩
        | cons e extra =>
          obtain rfl : d = e := (List.cons.inj tail).1
          exact absurd (inside d (by simp [same])) dropped
  · rintro (⟨rfl, rfl, rfl, nonempty⟩ | ⟨front', rfl, split, nonempty, inside, before, behind⟩)
    · refine ⟨by simp, nonempty, all, by simp, ?_⟩
      intro c head
      obtain rfl : d = c := Option.some.inj head
      exact dropped
    · refine ⟨by simp [split], nonempty, inside, ?_, behind⟩
      intro c isLast
      rw [last] at isLast
      cases found : front'.getLast? with
      | none =>
        obtain rfl : d = c := by simpa [found] using isLast
        exact dropped
      | some e =>
        obtain rfl : e = c := by simpa [found] using isLast
        exact before e found

def filling (s : List α) : List (List α × List α) := match s with
  | [] => []
  | c :: rest => [([], c :: rest)]

theorem mem_filling {s front run : List α} :
    (front, run) ∈ filling s ↔ front = [] ∧ run = s ∧ s ≠ [] := by
  cases s with
  | nil => simp [filling]
  | cons c rest => simp [filling]

theorem runs_whole {s : List α} (all : ∀ c ∈ s, kept c) : Runs kept s (filling s) := by
  constructor
  · cases s <;> simp [filling]
  · intro front run
    rw [mem_filling]
    constructor
    · rintro ⟨rfl, rfl, nonempty⟩
      exact ⟨[], (maximal_whole all).mpr ⟨rfl, rfl, rfl, nonempty⟩⟩
    · rintro ⟨back, maximal⟩
      obtain ⟨noFront, same, _, nonempty⟩ := (maximal_whole all).mp maximal
      exact ⟨noFront, same, nonempty⟩

theorem runs_split {first rest : List α} {d : α} {runs : List (List α × List α)}
    (all : ∀ c ∈ first, kept c) (dropped : ¬ kept d) (behind : Runs kept rest runs) :
    Runs kept (first ++ d :: rest)
      (filling first ++ runs.map fun x => (first ++ d :: x.1, x.2)) := by
  constructor
  · rw [List.pairwise_append, List.pairwise_map]
    refine ⟨(runs_whole all).ordered, behind.ordered.imp ?_, ?_⟩
    · intro x y less
      simpa using less
    · rintro ⟨front, run⟩ member y later
      obtain ⟨rfl, _⟩ := mem_filling.mp member
      obtain ⟨x, _, rfl⟩ := List.mem_map.mp later
      simp only [List.length_nil, List.length_append, List.length_cons]
      omega
  · intro front run
    simp only [List.mem_append, mem_filling, List.mem_map, maximal_split all dropped]
    constructor
    · rintro (⟨rfl, rfl, nonempty⟩ | ⟨⟨front', run'⟩, member, same⟩)
      · exact ⟨d :: rest, .inl ⟨rfl, rfl, rfl, nonempty⟩⟩
      · obtain ⟨rfl, rfl⟩ := Prod.mk.inj same
        obtain ⟨back, maximal⟩ := (behind.exactly front' run').mp member
        exact ⟨back, .inr ⟨front', rfl, maximal⟩⟩
    · rintro ⟨back, ⟨rfl, rfl, _, nonempty⟩ | ⟨front', rfl, maximal⟩⟩
      · exact .inl ⟨rfl, rfl, nonempty⟩
      · exact .inr ⟨(front', run), (behind.exactly front' run).mpr ⟨back, maximal⟩, rfl⟩

end Runs

end ListParts
