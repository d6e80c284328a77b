import Mathlib.Data.List.Basic

/- Finite runs of a labelled step relation. A path lists the steps of one run, each
   with the state it enters, so that "every visited state" and "every step" range
   over the members of a list. Nothing here depends on what a state is. -/
namespace StepRuns

variable {State Label : Type}

abbrev StepRel (State Label : Type) := State → Label → State → Prop

def Path (step : StepRel State Label) : State → List (Label × State) → Prop
  | _, [] => True
  | s, (l, t) :: rest => step s l t ∧ Path step t rest

def last : State → List (Label × State) → State
  | s, [] => s
  | _, (_, t) :: rest => last t rest

def visited (s : State) (path : List (Label × State)) : List State :=
  s :: path.map Prod.snd

def labels (path : List (Label × State)) : List Label := path.map Prod.fst

/-- `allowed` is asked of each step in the state before it. -/
def StepsMeet (allowed : State → Label → Prop) : State → List (Label × State) → Prop
  | _, [] => True
  | s, (l, t) :: rest => allowed s l ∧ StepsMeet allowed t rest

def Reaches (step : StepRel State Label) (s t : State) : Prop :=
  ∃ path, Path step s path ∧ last s path = t

def trace (next : State → Label → State) : State → List Label → List (Label × State)
  | _, [] => []
  | s, l :: rest => (l, next s l) :: trace next (next s l) rest

def follow (next : State → Label → Option State) : State → List Label → Option State
  | s, [] => some s
  | s, l :: rest => (next s l).bind (follow next · rest)

theorem path_append (step : StepRel State Label) (s : State)
    (before after : List (Label × State)) :
    Path step s (before ++ after) ↔ Path step s before ∧ Path step (last s before) after := by
  induction before generalizing s with
  | nil => simp [Path, last]
  | cons first rest ih => simp [Path, last, ih, and_assoc]

theorem last_append (s : State) (before after : List (Label × State)) :
    last s (before ++ after) = last (last s before) after := by
  induction before generalizing s with
  | nil => rfl
  | cons first rest ih => simp [last, ih]

theorem last_visited (s : State) (path : List (Label × State)) :
    last s path ∈ visited s path := by
  induction path generalizing s with
  | nil => simp [last, visited]
  | cons first rest ih => exact List.mem_cons_of_mem s (ih first.2)

theorem reaches_refl (step : StepRel State Label) (s : State) : Reaches step s s :=
  ⟨[], trivial, rfl⟩

theorem reaches_one {step : StepRel State Label} {s t : State} {l : Label}
    (taken : step s l t) : Reaches step s t :=
  ⟨[(l, t)], ⟨taken, trivial⟩, rfl⟩

theorem reaches_trans {step : StepRel State Label} {s t u : State}
    (first : Reaches step s t) (second : Reaches step t u) : Reaches step s u := by
  obtain ⟨before, valid, rfl⟩ := first
  obtain ⟨after, validAfter, rfl⟩ := second
  exact ⟨before ++ after, (path_append step s before after).mpr ⟨valid, validAfter⟩,
    last_append s before after⟩

theorem path_follow {next : State → Label → Option State} {s t : State} {given : List Label}
    (run : follow next s given = some t) :
    ∃ path, Path (fun s l t => next s l = some t) s path ∧ labels path = given ∧
      last s path = t := by
  induction given generalizing s with
  | nil => exact ⟨[], trivial, rfl, Option.some.inj run⟩
  | cons l rest ih =>
    obtain ⟨middle, first, later⟩ := Option.bind_eq_some_iff.mp run
    obtain ⟨path, valid, same, ends⟩ := ih later
    exact ⟨(l, middle) :: path, ⟨first, valid⟩, congrArg (l :: ·) same, ends⟩

theorem path_checked {next : State → Label → Option State} {allowed : State → Label → Prop}
    [∀ s l, Decidable (allowed s l)] {s : State} {path : List (Label × State)}
    (valid : Path (fun s l t => (if allowed s l then next s l else none) = some t) s path) :
    Path (fun s l t => next s l = some t) s path ∧ StepsMeet allowed s path := by
  induction path generalizing s with
  | nil => exact ⟨trivial, trivial⟩
  | cons first rest ih =>
    obtain ⟨taken, later⟩ := valid
    rw [Option.ite_none_right_eq_some] at taken
    obtain ⟨steps, meets⟩ := ih later
    exact ⟨⟨taken.2, steps⟩, taken.1, meets⟩

theorem steps_meet_and {first second : State → Label → Prop} {s : State}
    {path : List (Label × State)} :
    StepsMeet (fun s l => first s l ∧ second s l) s path ↔
      StepsMeet first s path ∧ StepsMeet second s path := by
  induction path generalizing s with
  | nil => simp [StepsMeet]
  | cons step rest ih => simp only [StepsMeet, ih, and_and_and_comm]

theorem path_meets {step : StepRel State Label} {allowed : State → Label → Prop} {s : State}
    {path : List (Label × State)} (valid : Path step s path) (meets : StepsMeet allowed s path) :
    Path (fun s l t => allowed s l ∧ step s l t) s path := by
  induction path generalizing s with
  | nil => trivial
  | cons first rest ih => exact ⟨⟨meets.1, valid.1⟩, ih valid.2 meets.2⟩

theorem reaches_follow {next : State → Label → Option State} {s t : State} {given : List Label}
    (run : follow next s given = some t) : Reaches (fun s l t => next s l = some t) s t := by
  obtain ⟨path, valid, _, ends⟩ := path_follow run
  exact ⟨path, valid, ends⟩

theorem invariant_visited {step : StepRel State Label} {allowed : State → Label → Prop}
    {Inv : State → Prop}
    (kept : ∀ s l t, allowed s l → step s l t → Inv s → Inv t)
    {s : State} {path : List (Label × State)} (start : Inv s) (valid : Path step s path)
    (meets : StepsMeet allowed s path) : ∀ u ∈ visited s path, Inv u := by
  induction path generalizing s with
  | nil =>
    intro u member
    have same : u = s := by simpa [visited] using member
    exact same ▸ start
  | cons first rest ih =>
    have next := kept s first.1 first.2 meets.1 valid.1 start
    intro u member
    rcases List.mem_cons.mp member with same | later
    · exact same ▸ start
    · exact ih next valid.2 meets.2 u later

theorem steps_meet_true (s : State) (path : List (Label × State)) :
    StepsMeet (fun _ _ => True) s path := by
  induction path generalizing s with
  | nil => trivial
  | cons first rest ih => exact ⟨trivial, ih first.2⟩

theorem invariant_reaches {step : StepRel State Label} {Inv : State → Prop}
    (kept : ∀ s l t, step s l t → Inv s → Inv t) {s t : State}
    (start : Inv s) (run : Reaches step s t) : Inv t := by
  obtain ⟨path, valid, rfl⟩ := run
  exact invariant_visited (fun s l t _ => kept s l t) start valid (steps_meet_true s path) _
    (last_visited s path)

theorem invariant_history {step : StepRel State Label} {Inv : State → List Label → Prop}
    (kept : ∀ s past l t, step s l t → Inv s past → Inv t (past ++ [l])) {s : State}
    {past : List Label} {path : List (Label × State)} (start : Inv s past)
    (valid : Path step s path) : Inv (last s path) (past ++ labels path) := by
  induction path generalizing s past with
  | nil => simpa [labels, last] using start
  | cons first rest ih =>
    have next := ih (kept s past first.1 first.2 valid.1 start) valid.2
    rw [List.append_assoc] at next
    exact next

theorem visited_good_iff {step : StepRel State Label} {allowed : State → Label → Prop}
    {Inv Good : State → Prop} (good : ∀ s, Inv s → Good s)
    (kept : ∀ s l t, allowed s l → step s l t → Inv s → Inv t)
    (broken : ∀ s l t, ¬ allowed s l → step s l t → Inv s → ¬ Good t)
    {s : State} {path : List (Label × State)} (start : Inv s) (valid : Path step s path) :
    (∀ u ∈ visited s path, Good u) ↔ StepsMeet allowed s path := by
  constructor
  · intro every
    induction path generalizing s with
    | nil => trivial
    | cons first rest ih =>
      have here : allowed s first.1 := by
        by_contra refused
        exact broken s first.1 first.2 refused valid.1 start (every first.2 (by simp [visited]))
      refine ⟨here, ih (kept s first.1 first.2 here valid.1 start) valid.2 ?_⟩
      intro u member
      exact every u (List.mem_cons_of_mem s member)
  · intro meets u member
    exact good u (invariant_visited kept start valid meets u member)

end StepRuns
