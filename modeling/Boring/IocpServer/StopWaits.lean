import Boring.IocpServer.ResourceAccounts

/- Stop waits for the workers before _DeInitialize, if there are few enough of them for
   one WaitForMultipleObjects. -/
namespace StopWaits
open StepRuns Ledgers WorkerLoop IocpLifecycle ResourceAccounts

theorem by_stop_back {processors : Nat} {ok : Bool} {s t : System}
    (called : mainCall processors ok s = some t) (late : ByStop t.main) :
    t.workers = s.workers ∧ (ByStop s.main ∨ (s.main = .wait ∧
      ¬ (nThreads processors ≤ MAXIMUM_WAIT_OBJECTS ∧ ¬ Gone s.workers))) := by
  obtain ⟨_, ⟨_, early, _, _, _⟩ | ⟨_, _, rfl⟩ | ⟨_, _, ledger, rfl⟩ | ⟨_, early, _⟩ |
    ⟨waiting, ended, rfl⟩ | ⟨caller, next, pc, rfl⟩⟩ := main_cases called
  · cases pc : t.main <;> simp [pc, ByStop, BeforeStop] at late early
  · cases late
  · cases late
  · cases pc : t.main <;> simp [pc, ByStop, StopCalled] at late early
  · exact ⟨rfl, .inr ⟨waiting, ended⟩⟩
  · refine ⟨(deInitialize_frame processors caller s next).1, .inl ?_⟩
    rw [pc]
    rcases deInitialize_main processors caller s next with last | ⟨after, moved⟩
    · rw [last] at late
      cases caller with
      | start => cases late
      | stop => rfl
    · rw [moved] at late
      exact late

structure Waited (processors : Nat) (s : System) : Prop where
  accounted : Accounted processors s
  gone : ByStop s.main → Gone s.workers

theorem step_waited {processors : Nat} (few : nThreads processors ≤ MAXIMUM_WAIT_OBJECTS)
    (s : System) (event : Event) (t : System) (run : step processors s event t)
    (held : Waited processors s) : Waited processors t := by
  refine ⟨step_accounted s event t run held.accounted, ?_⟩
  intro late
  by_cases main : ∃ ok, event = .call ok
  · obtain ⟨ok, rfl⟩ := main
    obtain ⟨same, already | ⟨_, ended⟩⟩ := by_stop_back run late
    · rw [same]
      exact held.gone already
    · rw [same]
      by_contra inside
      exact ended ⟨few, inside⟩
  · have other : ∀ ok, event ≠ .call ok := fun ok same => main ⟨ok, same⟩
    rw [(step_frame run other).1] at late
    rw [(gone_stays run other (held.gone late)).1]
    exact held.gone late

/-- The thread that calls Start and Stop can get to `m` before any worker makes a step. -/
def RunsAlone (processors : Nat) (m : Main) : Prop :=
  ∃ s, Reaches (step processors) initial s ∧ s.main = m ∧ ∀ w ∈ s.workers, w.stage = .testing

theorem alone_next {processors : Nat} {m next : Main} (alone : RunsAlone processors m)
    (moves : ∀ s, Accounted processors s → s.main = m →
      ∃ t, mainCall processors true s = some t ∧ t.main = next) : RunsAlone processors next := by
  obtain ⟨s, run, pc, idle⟩ := alone
  obtain ⟨t, called, arrived⟩ := moves s (reaches_accounted run) pc
  have taken : step processors s (.call true) t := called
  refine ⟨t, reaches_trans run (reaches_one taken), arrived, ?_⟩
  rcases main_workers called with same | grown
  · rwa [same]
  · rw [grown]
    intro w member
    rcases List.mem_append.mp member with old | new
    · exact idle w old
    · rw [List.mem_singleton.mp new]

theorem creates_threads {processors : Nat} (i : Nat) (bound : i ≤ nThreads processors) :
    RunsAlone processors (.createThread i) := by
  induction i with
  | zero =>
    have constructed : RunsAlone processors .constructed :=
      ⟨initial, reaches_refl _ _, rfl, by simp [initial]⟩
    have event : RunsAlone processors .createEvent :=
      alone_next constructed fun s _ pc => ⟨_, by simp only [mainCall, pc]; rfl, rfl⟩
    have port : RunsAlone processors .createPort :=
      alone_next event fun s _ pc => ⟨_, by simp only [mainCall, pc]; rfl, rfl⟩
    exact alone_next port fun s _ pc => ⟨_, by simp only [mainCall, pc]; rfl, rfl⟩
  | succ i ih =>
    apply alone_next (ih (by omega))
    intro s _ pc
    have more : i < nThreads processors := by omega
    exact ⟨_, by simp only [mainCall, pc, if_pos more]; rfl, rfl⟩

theorem posts_accepts {processors : Nat} (i : Nat) (bound : i ≤ MAX_POST_ACCEPT) :
    RunsAlone processors (.postAccept i) := by
  induction i with
  | zero =>
    have socket : RunsAlone processors .createSocket :=
      alone_next (creates_threads _ (Nat.le_refl _)) fun s _ pc =>
        ⟨_, by simp only [mainCall, pc, Nat.lt_irrefl, if_false]; rfl, rfl⟩
    have associate : RunsAlone processors .associate :=
      alone_next socket fun s _ pc => ⟨_, by simp only [mainCall, pc]; rfl, rfl⟩
    have bind : RunsAlone processors .bind :=
      alone_next associate fun s _ pc => ⟨_, by simp only [mainCall, pc]; rfl, rfl⟩
    have listen : RunsAlone processors .listen :=
      alone_next bind fun s _ pc => ⟨_, by simp only [mainCall, pc]; rfl, rfl⟩
    exact alone_next listen fun s _ pc => ⟨_, by simp only [mainCall, pc]; rfl, rfl⟩
  | succ i ih =>
    apply alone_next (ih (by omega))
    intro s _ pc
    have more : i < MAX_POST_ACCEPT := by omega
    exact ⟨_, by simp only [mainCall, pc, if_pos more]; rfl, rfl⟩

theorem posts_exits {processors : Nat} (i : Nat) (bound : i ≤ nThreads processors) :
    RunsAlone processors (.postExit i) := by
  induction i with
  | zero =>
    have started : RunsAlone processors .started :=
      alone_next (posts_accepts _ (Nat.le_refl _)) fun s _ pc =>
        ⟨_, by simp only [mainCall, pc, Nat.lt_irrefl, if_false]; rfl, rfl⟩
    have setEvent : RunsAlone processors .setEvent := by
      apply alone_next started
      intro s held pc
      -- The guard of Stop holds of a server that has started.
      have ledger := held.ledger
      simp only [LedgerFits, pc] at ledger
      have listening : s.ledger.Held .listenContext ∧ s.ledger.Held .listenSocket := by
        rw [ledger]
        exact ⟨⟨mem_createdWith.mpr (by simp), by simp⟩, ⟨mem_createdWith.mpr (by simp), by simp⟩⟩
      exact ⟨_, by simp only [mainCall, pc, if_pos listening]; rfl, rfl⟩
    exact alone_next setEvent fun s _ pc => ⟨_, by simp only [mainCall, pc]; rfl, rfl⟩
  | succ i ih =>
    apply alone_next (ih (by omega))
    intro s _ pc
    have more : i < nThreads processors := by omega
    exact ⟨_, by simp only [mainCall, pc, if_pos more]; rfl, rfl⟩

theorem failed_wait {processors : Nat} (many : MAXIMUM_WAIT_OBJECTS < nThreads processors) :
    ∃ s, Reaches (step processors) initial s ∧ s.main = .deInitialize .stop .csMutex ∧
      ∃ w ∈ s.workers, w.stage ≠ .left := by
  have wait : RunsAlone processors .wait :=
    alone_next (posts_exits _ (Nat.le_refl _)) fun s _ pc =>
      ⟨_, by simp only [mainCall, pc, Nat.lt_irrefl, if_false]; rfl, rfl⟩
  have ended : RunsAlone processors (.deInitialize .stop .csMutex) := by
    apply alone_next wait
    intro s _ pc
    have refused : ¬ (nThreads processors ≤ MAXIMUM_WAIT_OBJECTS ∧ ¬ Gone s.workers) := by omega
    exact ⟨_, by simp only [mainCall, pc, if_neg refused]; rfl, rfl⟩
  obtain ⟨s, run, pc, idle⟩ := ended
  have workers := (reaches_accounted run).workers
  simp only [WorkersFit, pc] at workers
  have first : 0 < s.workers.length := by omega
  exact ⟨s, run, pc, _, List.getElem_mem first, by simp [idle _ (List.getElem_mem first)]⟩

/-- All `nThreads` workers have left whenever Stop calls _DeInitialize, in every
    interleaving, exactly when there are at most 31 processors. -/
theorem stop_waits_iff (processors : Nat) :
    (∀ s, Reaches (step processors) initial s → s.main = .deInitialize .stop .csMutex →
      s.workers.length = nThreads processors ∧ ∀ w ∈ s.workers, w.stage = .left) ↔
    processors ≤ 31 := by
  constructor
  · intro waits
    by_contra many
    have more : MAXIMUM_WAIT_OBJECTS < nThreads processors := by
      simp only [MAXIMUM_WAIT_OBJECTS, nThreads]
      omega
    obtain ⟨s, run, pc, w, member, inside⟩ := failed_wait more
    exact inside ((waits s run pc).2 w member)
  · intro few s run pc
    have bound : nThreads processors ≤ MAXIMUM_WAIT_OBJECTS := by
      simp only [MAXIMUM_WAIT_OBJECTS, nThreads]
      omega
    have start : Waited processors initial :=
      ⟨initial_accounted processors, by simp [initial, ByStop]⟩
    have held := invariant_reaches (step_waited bound) start run
    have workers := held.accounted.workers
    simp only [WorkersFit, pc] at workers
    exact ⟨workers, held.gone (by simp [pc, ByStop])⟩

theorem many_processors_stop_early : ¬ ∀ processors s, Reaches (step processors) initial s →
    s.main = .deInitialize .stop .csMutex → ∀ w ∈ s.workers, w.stage = .left := by
  intro allLeft
  obtain ⟨s, run, pc, w, member, inside⟩ := @failed_wait 32 (by decide)
  exact inside (allLeft 32 s run pc w member)

end StopWaits
