import Boring.IocpServer.ResourceAccounts

/- What is left running and what is left held when Start returns false. -/
namespace FailedStart
open StepRuns Ledgers WorkerLoop IocpLifecycle ResourceAccounts

/-- A failed Start is clean when at its return no worker is in its loop and everything
    has been released once, and no worker meets a closed handle, then or before. -/
structure CleanFailure (s : System) : Prop where
  gone : s.main = .failed → Gone s.workers
  settled : s.main = .failed → s.ledger.Settled
  unused : Failing s.main → s.misused = false

/-- A call that fails is not the creation of the port, and finds that every worker has
    left if it sends Start to _DeInitialize. -/
def FailsClean (s : System) : Event → Prop
  | .call false => s.main ≠ .createPort ∧ (fallible s.main = true → Gone s.workers)
  | _ => True

instance (s : System) (event : Event) : Decidable (FailsClean s event) :=
  match event with
  | .call false => inferInstanceAs (Decidable (_ ∧ (_ → _)))
  | .call true => .isTrue trivial
  | .arrive _ => .isTrue trivial
  | .test _ => .isTrue trivial
  | .getStatus _ => .isTrue trivial
  | .dequeue _ _ => .isTrue trivial
  | .abandoned _ => .isTrue trivial
  | .handled _ => .isTrue trivial

structure Orderly (processors : Nat) (s : System) : Prop where
  accounted : Accounted processors s
  gone : Failing s.main → Gone s.workers
  released : s.main = .failed → Released s.ledger
  unused : ¬ ByStop s.main → s.misused = false

theorem orderly_clean {processors : Nat} {s : System} (held : Orderly processors s) :
    CleanFailure s := by
  refine ⟨fun failed => held.gone (by simp [failed, Failing]), ?_, ?_⟩
  · intro failed
    exact Ledger.settled_of_sound (held.released failed).1 (held.released failed).2
  · intro failing
    apply held.unused
    cases pc : s.main <;> simp [pc, Failing, ByStop] at failing ⊢
    simp [failing]

theorem call_orderly {processors : Nat} {ok : Bool} {s t : System}
    (clean : FailsClean s (.call ok)) (run : step processors s (.call ok) t)
    (held : Orderly processors s) : Orderly processors t := by
  have accounted := step_accounted s _ t run held.accounted
  obtain ⟨misused, ⟨early, before, _, _, _⟩ | ⟨rfl, pc, rfl⟩ | ⟨rfl, fails, ledger, rfl⟩ |
    ⟨called, stop, _⟩ | ⟨_, _, rfl⟩ | ⟨caller, next, pc, rfl⟩⟩ := main_cases run
  · have unstopped : ¬ ByStop s.main := by
      cases pc : s.main <;> simp [pc, BeforeStop, ByStop] at early ⊢
    refine ⟨accounted, ?_, ?_, fun _ => misused.trans (held.unused unstopped)⟩
    · intro failing
      cases pc : t.main <;> simp [pc, BeforeStop, Failing] at before failing
    · intro failed
      simp [failed, BeforeStop] at before
  · exact absurd pc clean.1
  · have unstopped : ¬ ByStop s.main := by
      cases pc : s.main <;> simp [pc, fallible, ByStop] at fails ⊢
    exact ⟨accounted, fun _ => clean.2 fails, by simp [giveUp], fun _ => held.unused unstopped⟩
  · have unstopped : ¬ ByStop s.main := by
      rcases called with started | called
      · simp [started, ByStop]
      · cases pc : s.main <;> simp [pc, StopCalled, ByStop] at called ⊢
    refine ⟨accounted, ?_, ?_, fun _ => misused.trans (held.unused unstopped)⟩
    · intro failing
      cases pc : t.main <;> simp [pc, StopCalled, Failing] at stop failing
    · intro failed
      simp [failed, StopCalled] at stop
  · exact ⟨accounted, by simp [Failing], by simp, by simp [ByStop]⟩
  · have closing := held.accounted.ledger
    simp only [LedgerFits, pc] at closing
    have workers := (deInitialize_frame processors caller s next).1
    have closes := @deInitialize_closes processors caller next s closing
    cases caller with
    | start =>
      refine ⟨accounted, ?_, ?_, ?_⟩
      · intro _
        rw [workers]
        exact held.gone (by simp [pc, Failing])
      · intro failed
        rcases closes with ⟨_, released, _⟩ | ⟨after, moved, _⟩
        · exact released
        · rw [moved] at failed
          cases failed
      · intro _
        exact misused.trans (held.unused (by simp [pc, ByStop]))
    | stop =>
      rcases closes with ⟨_, _, moved⟩ | ⟨after, moved, _⟩ <;>
        exact ⟨accounted, by simp [moved, Failing], by simp [moved], by simp [moved, ByStop]⟩

theorem step_orderly {processors : Nat} (s : System) (event : Event) (t : System)
    (clean : FailsClean s event) (run : step processors s event t)
    (held : Orderly processors s) : Orderly processors t := by
  by_cases main : ∃ ok, event = .call ok
  · obtain ⟨ok, rfl⟩ := main
    exact call_orderly clean run held
  have other : ∀ ok, event ≠ .call ok := fun ok same => main ⟨ok, same⟩
  obtain ⟨sameMain, sameLedger, _⟩ := step_frame run other
  refine ⟨step_accounted s event t run held.accounted, ?_, ?_, ?_⟩
  · rw [sameMain]
    intro failing
    rw [(gone_stays run other (held.gone failing)).1]
    exact held.gone failing
  · rw [sameMain, sameLedger]
    exact held.released
  · rw [sameMain]
    intro unstopped
    have unused := held.unused unstopped
    by_cases failing : Failing s.main
    · rw [(gone_stays run other (held.gone failing)).2]
      exact unused
    rcases step_cases run with ⟨ok, called, _⟩ | ⟨c, _, _, rfl⟩ | ⟨i, who⟩
    · exact absurd called (other ok)
    · exact unused
    · obtain ⟨w, next, packets, misused, _, _, _, uses, _, rfl⟩ := worker_step who run
      have usable := nothing_closed held.accounted failing unstopped
      simpa [unused, usable] using uses

theorem initial_orderly (processors : Nat) : Orderly processors initial :=
  ⟨initial_accounted processors, by simp [initial, Failing], by simp [initial], fun _ => rfl⟩

theorem deInitialize_alone {processors : Nat} {s : System}
    (pc : s.main = .deInitialize .start .csMutex) :
    ∃ u, Reaches (step processors) s u ∧ u.main = .failed ∧ u.workers = s.workers := by
  have release : ∀ (s : System) (next : Releasing), s.main = .deInitialize .start next →
      Reaches (step processors) s (deInitialize processors .start s next) := by
    intro s next here
    have called : step processors s (.call true) (deInitialize processors .start s next) := by
      simp only [step, advance, mainCall, here]
    exact reaches_one called
  have mutex := release s .csMutex pc
  have event := reaches_trans mutex (release _ .hShutdownEvent rfl)
  have threads := reaches_trans event (release _ .phWorkerThreads rfl)
  have port := reaches_trans threads (release _ .hIOCompletionPort rfl)
  exact ⟨_, reaches_trans port (release _ .pListenContext rfl), rfl, rfl⟩

theorem refused_breaks {processors : Nat} {s t : System} {event : Event}
    (before : Reaches (step processors) initial s) (run : step processors s event t)
    (refused : ¬ FailsClean s event) : ∃ u, Reaches (step processors) t u ∧ ¬ CleanFailure u := by
  have failing : event = .call false ∧
      (s.main = .createPort ∨ (fallible s.main = true ∧ ¬ Gone s.workers)) := by
    cases event with
    | call ok =>
      cases ok with
      | true => exact absurd trivial refused
      | false =>
        refine ⟨rfl, ?_⟩
        by_cases port : s.main = .createPort
        · exact .inl port
        · right
          by_contra clean
          exact refused ⟨port, fun fails => by_contra fun inside => clean ⟨fails, inside⟩⟩
    | _ => exact absurd trivial refused
  obtain ⟨rfl, port | ⟨fails, inside⟩⟩ := failing
  · have ledger := (reaches_accounted before).ledger
    simp only [LedgerFits, port] at ledger
    simp only [step, advance, mainCall, port] at run
    obtain rfl := Option.some.inj run
    refine ⟨_, reaches_refl _ _, ?_⟩
    intro clean
    have kept : s.ledger.Held .hShutdownEvent := by
      rw [ledger]
      exact ⟨by simp [createdBefore], by simp⟩
    exact Ledger.not_settled kept (clean.settled rfl)
  · have gave : t.main = .deInitialize .start .csMutex ∧ t.workers = s.workers := by
      simp only [step, advance, mainCall] at run
      cases pc : s.main <;>
        simp only [pc, fallible, Bool.false_eq_true, decide_eq_true_eq] at fails run
      case postAccept i =>
        rw [if_pos fails] at run
        obtain rfl := Option.some.inj run
        exact ⟨rfl, rfl⟩
      all_goals
        obtain rfl := Option.some.inj run
        exact ⟨rfl, rfl⟩
    obtain ⟨u, later, failed, same⟩ := deInitialize_alone gave.1
    refine ⟨u, later, fun clean => inside ?_⟩
    rw [← gave.2, ← same]
    exact clean.gone failed

/-- A run in which Start fails clean, if it fails, satisfies `CleanFailure` in every state,
    and after any other failure some interleaving breaks it. -/
theorem failed_start_clean (processors : Nat) :
    (∀ path, Path (step processors) initial path → StepsMeet FailsClean initial path →
      ∀ s ∈ visited initial path, CleanFailure s) ∧
    (∀ s event t, Reaches (step processors) initial s → step processors s event t →
      ¬ FailsClean s event → ∃ u, Reaches (step processors) t u ∧ ¬ CleanFailure u) := by
  constructor
  · intro path valid meets s member
    exact orderly_clean
      (invariant_visited step_orderly (initial_orderly processors) valid meets s member)
  · intro s event t before run refused
    exact refused_breaks before run refused

/-- Four workers each take an accept that failed with ERROR_SEM_TIMEOUT and leave, then the
    fifth accept cannot be posted. -/
def timedOut : Completion := ⟨false, 121, 0, 4096, .postedAccept⟩

def takesTimeout (i : Nat) : List Event :=
  [.test i, .getStatus i, .arrive timedOut, .dequeue i timedOut]

def cleanRun : List Event :=
  List.replicate 16 (.call true) ++ (List.range 4).flatMap takesTimeout ++ [.call false] ++
    List.replicate 5 (.call true)

theorem clean_after_timeouts : ∃ path, Path (step 1) initial path ∧ labels path = cleanRun ∧
    (last initial path).main = .failed ∧ ∀ s ∈ visited initial path, CleanFailure s := by
  obtain ⟨path, checked, same, ends⟩ := @path_follow _ _
    (fun s event => if FailsClean s event then advance 1 s event else none) initial _ cleanRun rfl
  obtain ⟨valid, meets⟩ := @path_checked _ _ (advance 1) FailsClean _ _ _ checked
  exact ⟨path, valid, same, congrArg System.main ends, (failed_start_clean 1).1 path valid meets⟩

def socketFails : List Event :=
  List.replicate 8 (.call true) ++ [.call false] ++ List.replicate 5 (.call true)

theorem failed_socket_leaves_workers : ¬ ∀ processors s,
    Reaches (step processors) initial s → CleanFailure s := by
  intro alwaysClean
  have clean := alwaysClean 1 _ (@reaches_follow _ _ (advance 1) initial _ socketFails rfl)
  have left := clean.gone rfl ⟨.testing, 0⟩ (by decide)
  cases left

end FailedStart
