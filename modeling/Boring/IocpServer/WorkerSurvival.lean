import Boring.IocpServer.ResourceAccounts

/- Which workers are still in the loop of _WorkerThread before Stop, from the completions
   that each of them has been given. -/
namespace WorkerSurvival
open StepRuns Ledgers WorkerLoop IocpLifecycle ResourceAccounts

def delivered (i : Nat) (events : List Event) : List Completion :=
  events.filterMap fun
    | .dequeue j c => if j = i then some c else none
    | _ => none

theorem delivered_append (i : Nat) (past : List Event) (event : Event) :
    delivered i (past ++ [event]) = delivered i past ++ delivered i [event] :=
  List.filterMap_append

theorem delivered_other {i : Nat} {event : Event} (other : ∀ c, event ≠ .dequeue i c) :
    delivered i [event] = [] := by
  cases event with
  | dequeue j c =>
    have different : j ≠ i := by
      rintro rfl
      exact other c rfl
    simp [delivered, different]
  | _ => rfl

theorem delivered_dequeue (i : Nat) (c : Completion) : delivered i [.dequeue i c] = [c] := by
  simp [delivered]

theorem before_stop_calm {processors : Nat} {s : System} (held : Accounted processors s)
    (before : BeforeStop s.main) : Undisturbed s := by
  have early : ¬ Stopping s.main ∧ ¬ Failing s.main ∧ ¬ ByStop s.main := by
    cases pc : s.main <;>
      simp [pc, BeforeStop, Stopping, StopCalled, Failing, ByStop] at before ⊢
  exact ⟨held.unsignalled early.1, nothing_closed held early.2.1 early.2.2⟩

theorem before_stop_back {processors : Nat} {s t : System} {event : Event}
    (run : step processors s event t) (before : BeforeStop t.main) : BeforeStop s.main := by
  by_cases main : ∃ ok, event = .call ok
  · obtain ⟨ok, rfl⟩ := main
    obtain ⟨_, ⟨early, _⟩ | ⟨_, _, rfl⟩ | ⟨_, _, ledger, rfl⟩ | ⟨_, late, _⟩ | ⟨_, _, rfl⟩ |
      ⟨caller, next, _, rfl⟩⟩ := main_cases run
    · exact early
    · cases before
    · cases before
    · cases pc : t.main <;> simp [pc, StopCalled, BeforeStop] at late before
    · cases before
    · rcases deInitialize_main processors caller s next with last | ⟨after, moved⟩
      · rw [last] at before
        cases caller <;> cases before
      · rw [moved] at before
        cases before
  · rwa [← (step_frame run fun ok same => main ⟨ok, same⟩).1]

theorem afterCall_left {c : Completion} (key : c.pSocketContext ≠ EXIT_CODE) :
    (afterCall c).stage = .left ↔ Fatal c := by
  have leaves := leave_iff c
  simp only [key, false_or] at leaves
  rw [← leaves]
  cases turn : loopBody c <;> simp [afterCall, afterTurn, turn]

/-- Before Stop, a worker has left exactly when a fatal completion was given to it. -/
structure Survival (processors : Nat) (s : System) (past : List Event) : Prop where
  accounted : Accounted processors s
  unborn : BeforeStop s.main → ∀ i, s.workers.length ≤ i → delivered i past = []
  left : BeforeStop s.main → ∀ i w, s.workers[i]? = some w →
    (w.stage = .left ↔ ∃ c ∈ delivered i past, Fatal c)

theorem call_survival {processors : Nat} {ok : Bool} {s t : System} {past : List Event}
    (run : step processors s (.call ok) t) (held : Survival processors s past) :
    Survival processors t (past ++ [.call ok]) := by
  have silent : ∀ i, delivered i (past ++ [.call ok]) = delivered i past := by
    intro i
    rw [delivered_append, delivered_other (by simp), List.append_nil]
  refine ⟨step_accounted s _ t run held.accounted, fun before i beyond => ?_,
    fun before i w found => ?_⟩
  · have earlier := held.unborn (before_stop_back run before) i
    rw [silent]
    rcases main_workers run with same | grown
    · exact earlier (same ▸ beyond)
    · rw [grown, List.length_append] at beyond
      exact earlier (by omega)
  · rw [silent]
    have earlier := held.left (before_stop_back run before) i
    rcases main_workers run with same | grown
    · exact earlier w (same ▸ found)
    · rw [grown] at found
      rcases Nat.lt_trichotomy i s.workers.length with old | rfl | beyond
      · rw [List.getElem?_append_left old] at found
        exact earlier w found
      · rw [List.getElem?_concat_length] at found
        obtain rfl := Option.some.inj found
        simp [held.unborn (before_stop_back run before) _ (Nat.le_refl _)]
      · rw [List.getElem?_eq_none (by rw [List.length_append]; exact beyond)] at found
        cases found

theorem worker_survival {processors i : Nat} {s t : System} {event : Event} {past : List Event}
    (who : event.worker = some i) (run : step processors s event t)
    (held : Survival processors s past) : Survival processors t (past ++ [event]) := by
  have accounted := step_accounted s _ t run held.accounted
  obtain ⟨w, next, packets, misused, found, inside, _, _, outcome, rfl⟩ := worker_step who run
  have bound := (List.getElem?_eq_some_iff.mp found).1
  refine ⟨accounted, ?_, ?_⟩
  · intro before j beyond
    rw [List.length_set] at beyond
    rw [delivered_append, held.unborn before j beyond, List.nil_append]
    apply delivered_other
    rintro c rfl
    obtain rfl := Option.some.inj who
    omega
  · intro before j x present
    rw [delivered_append]
    by_cases same : j = i
    · subst same
      rw [List.getElem?_set_self bound] at present
      obtain rfl := Option.some.inj present
      have fresh : ∀ c ∈ delivered j past, ¬ Fatal c := by
        intro c member fatal
        exact inside ((held.left before j w found).mpr ⟨c, member, fatal⟩)
      rcases outcome (before_stop_calm held.accounted before) with
        ⟨stays, silent⟩ | ⟨c, queued, rfl, rfl⟩
      · rw [delivered_other silent, List.append_nil]
        simp only [stays, false_iff, not_exists, not_and]
        exact fresh
      · rw [delivered_dequeue, afterCall_left (held.accounted.io ?_ c queued)]
        · constructor
          · intro fatal
            exact ⟨c, by simp, fatal⟩
          · rintro ⟨other, member, fatal⟩
            rcases List.mem_append.mp member with old | new
            · exact absurd fatal (fresh other old)
            · exact List.mem_singleton.mp new ▸ fatal
        · intro stopping
          cases pc : s.main <;>
            simp [pc, BeforeStop, Stopping, StopCalled, ByStop] at before stopping
    · rw [List.getElem?_set_ne (Ne.symm same)] at present
      rw [delivered_other, List.append_nil]
      · exact held.left before j x present
      · rintro c rfl
        exact same (Option.some.inj who)

theorem step_survival {processors : Nat} (s : System) (past : List Event) (event : Event)
    (t : System) (run : step processors s event t) (held : Survival processors s past) :
    Survival processors t (past ++ [event]) := by
  rcases step_cases run with ⟨ok, rfl, _⟩ | ⟨c, rfl, _, rfl⟩ | ⟨i, who⟩
  · exact call_survival run held
  · have silent : ∀ i, delivered i (past ++ [.arrive c]) = delivered i past := by
      intro i
      rw [delivered_append, delivered_other (by simp), List.append_nil]
    refine ⟨step_accounted s _ _ run held.accounted, ?_, ?_⟩
    · simpa only [silent] using held.unborn
    · simpa only [silent] using held.left
  · exact worker_survival who run held

theorem initial_survival (processors : Nat) : Survival processors initial [] :=
  ⟨initial_accounted processors, fun _ _ _ => rfl, by simp [initial]⟩

theorem run_survival {processors : Nat} {path : List (Event × System)}
    (valid : Path (step processors) initial path) :
    Survival processors (last initial path) (labels path) :=
  invariant_history step_survival (initial_survival processors) valid

def running (s : System) : Nat := s.workers.countP fun w => w.stage ≠ .left

/-- While the server runs, a worker is in its loop as long as no completion it was given
    failed with an error other than the two, and no worker is missing as long as none was. -/
theorem workers_survive_iff {processors : Nat} {path : List (Event × System)}
    (valid : Path (step processors) initial path)
    (serving : (last initial path).main = .started) :
    (∀ i w, (last initial path).workers[i]? = some w →
      (w.stage ≠ .left ↔ ∀ c ∈ delivered i (labels path), ¬ Fatal c)) ∧
    (running (last initial path) = nThreads processors ↔
      ∀ i, ∀ c ∈ delivered i (labels path), ¬ Fatal c) := by
  have held := run_survival valid
  have before : BeforeStop (last initial path).main := by simp [serving, BeforeStop]
  have each : ∀ i w, (last initial path).workers[i]? = some w →
      (w.stage ≠ .left ↔ ∀ c ∈ delivered i (labels path), ¬ Fatal c) := by
    intro i w found
    rw [Ne, held.left before i w found]
    simp only [not_exists, not_and]
  have all : (last initial path).workers.length = nThreads processors := by
    have workers := held.accounted.workers
    simpa only [WorkersFit, serving] using workers
  refine ⟨each, ?_⟩
  rw [running, ← all, List.countP_eq_length]
  simp only [decide_eq_true_eq]
  constructor
  · intro inside i
    by_cases born : i < (last initial path).workers.length
    · have found := List.getElem?_eq_getElem born
      exact (each i _ found).mp (inside _ (List.getElem_mem born))
    · rw [held.unborn before i (by omega)]
      simp
  · intro harmless w member
    obtain ⟨i, found⟩ := List.mem_iff_getElem?.mp member
    exact (each i w found).mpr (harmless i)

/-- ERROR_SEM_TIMEOUT, on an accept whose client has vanished. -/
def timedOut : Completion := ⟨false, 121, 0, 4096, .postedAccept⟩

def timeoutRun : List Event :=
  List.replicate 23 (.call true) ++
    [.test 0, .getStatus 0, .arrive timedOut, .dequeue 0 timedOut]

theorem timeout_ends_worker : ¬ ∀ processors s, Reaches (step processors) initial s →
    s.main = .started → running s = nThreads processors := by
  intro allStay
  have full := allStay 1 _ (@reaches_follow _ _ (advance 1) initial _ timeoutRun rfl) rfl
  exact absurd full (by decide)

theorem survivors_of_timeout : ∃ path, Path (step 1) initial path ∧ labels path = timeoutRun ∧
    (∀ i w, (last initial path).workers[i]? = some w →
      (w.stage ≠ .left ↔ ∀ c ∈ delivered i (labels path), ¬ Fatal c)) ∧
    (running (last initial path) = nThreads 1 ↔
      ∀ i, ∀ c ∈ delivered i (labels path), ¬ Fatal c) := by
  obtain ⟨path, valid, same, ends⟩ := @path_follow _ _ (advance 1) initial _ timeoutRun rfl
  exact ⟨path, valid, same, workers_survive_iff valid (by rw [ends])⟩

end WorkerSurvival
