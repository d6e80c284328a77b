import Boring.IocpServer.IocpLifecycle

/- What CIocpModel holds at each call of Start and Stop, how many workers there are, and
   what the port contains before Stop. -/
namespace ResourceAccounts
open StepRuns Ledgers WorkerLoop IocpLifecycle

theorem handles_succ (i : Nat) : handles (i + 1) = handles i ++ [.workerThread i] := by
  simp [handles, List.range_succ]

theorem mem_handles {n : Nat} {r : Resource} :
    r ∈ handles n ↔ ∃ i, i < n ∧ r = .workerThread i := by
  simp only [handles, List.mem_map, List.mem_range]
  constructor
  · rintro ⟨i, below, rfl⟩
    exact ⟨i, below, rfl⟩
  · rintro ⟨i, below, rfl⟩
    exact ⟨i, below, rfl⟩

def due : Resource → Releasing
  | .csMutex => .csMutex
  | .hShutdownEvent => .hShutdownEvent
  | .hIOCompletionPort => .hIOCompletionPort
  | .workerThread _ => .phWorkerThreads
  | .listenContext => .pListenContext
  | .listenSocket => .pListenContext

def createdWith (i : Nat) (rest : List Resource) : List Resource :=
  [.csMutex, .hShutdownEvent, .hIOCompletionPort] ++ handles i ++ rest

def createdBefore (n : Nat) : Main → List Resource
  | .constructed => []
  | .createEvent => [.csMutex]
  | .createPort => [.csMutex, .hShutdownEvent]
  | .createThread i => createdWith i []
  | .createSocket => createdWith n [.listenContext]
  | _ => createdWith n [.listenContext, .listenSocket]

theorem mem_createdWith {i : Nat} {rest : List Resource} {r : Resource} :
    r ∈ createdWith i rest ↔ r = .csMutex ∨ r = .hShutdownEvent ∨ r = .hIOCompletionPort ∨
      (∃ j, j < i ∧ r = .workerThread j) ∨ r ∈ rest := by
  simp only [createdWith, List.mem_append, mem_handles, List.mem_cons, List.not_mem_nil, or_false,
    or_assoc]

theorem createdWith_fresh (i : Nat) {rest : List Resource} (fresh : rest.Nodup)
    (socket : ∀ r ∈ rest, due r = .pListenContext) : (createdWith i rest).Nodup := by
  have threads : (handles i).Nodup := by
    refine List.Nodup.map ?_ List.nodup_range
    intro a b same
    injection same
  have first : ∀ r ∈ rest, r ≠ .csMutex ∧ r ≠ .hShutdownEvent ∧ r ≠ .hIOCompletionPort ∧
      r ∉ handles i := by
    intro r member
    have later := socket r member
    refine ⟨?_, ?_, ?_, ?_⟩
    · rintro rfl
      cases later
    · rintro rfl
      cases later
    · rintro rfl
      cases later
    · intro thread
      obtain ⟨j, _, rfl⟩ := mem_handles.mp thread
      cases later
  unfold createdWith
  refine List.Nodup.append (List.Nodup.append (by decide) threads ?_) fresh ?_
  · intro r early thread
    obtain ⟨j, _, rfl⟩ := mem_handles.mp thread
    simp at early
  · intro r early late
    obtain ⟨mutex, event, port, thread⟩ := first r late
    simp [mutex, event, port, thread] at early

theorem created_fresh (n : Nat) (m : Main) : (createdBefore n m).Nodup := by
  unfold createdBefore
  split
  · exact List.nodup_nil
  · decide
  · decide
  · exact createdWith_fresh _ List.nodup_nil (by simp)
  · exact createdWith_fresh n (by decide) (by simp [due])
  · exact createdWith_fresh n (by decide) (by simp [due])

def rank : Releasing → Nat
  | .csMutex => 0
  | .hShutdownEvent => 1
  | .phWorkerThreads => 2
  | .hIOCompletionPort => 3
  | .pListenContext => 4

/-- In _DeInitialize, what is still held is released by the calls to come. -/
structure Closing (n : Nat) (next : Releasing) (l : Ledger Resource) : Prop where
  sound : l.Sound
  pending : ∀ r, l.Held r → rank next ≤ rank (due r)
  mutex : next = .csMutex → l.Held .csMutex
  socket : l.Held .listenSocket → l.Held .listenContext
  threads : ∀ i, l.Held (.workerThread i) → i < n

def Released (l : Ledger Resource) : Prop := l.Sound ∧ ∀ r, ¬ l.Held r

def LedgerFits (n : Nat) (s : System) : Prop :=
  match s.main with
  | .deInitialize _ next => Closing n next s.ledger
  | .stopped => Released s.ledger
  | .failed => True
  | m => s.ledger = ⟨createdBefore n m, []⟩

def WorkersFit (n : Nat) (s : System) : Prop :=
  match s.main with
  | .constructed => s.workers.length = 0
  | .createEvent => s.workers.length = 0
  | .createPort => s.workers.length = 0
  | .createThread i => s.workers.length = i ∧ i ≤ n
  | .failed => True
  | _ => s.workers.length = n

def Failing : Main → Prop
  | .deInitialize caller _ => caller = .start
  | .failed => True
  | _ => False

def ByStop : Main → Prop
  | .deInitialize caller _ => caller = .stop
  | .stopped => True
  | _ => False

def Stopping (m : Main) : Prop := StopCalled m ∨ ByStop m

structure Accounted (processors : Nat) (s : System) : Prop where
  ledger : LedgerFits (nThreads processors) s
  workers : WorkersFit (nThreads processors) s
  unsignalled : ¬ Stopping s.main → s.signalled = false
  io : ¬ Stopping s.main → ∀ c ∈ s.packets, c.pSocketContext ≠ EXIT_CODE

theorem closing_next {n : Nat} {next after : Releasing} {l l' : Ledger Resource}
    (closing : Closing n next l) (sound : l'.Sound) (later : after ≠ .csMutex)
    (held : ∀ r, l'.Held r ↔ l.Held r ∧ due r ≠ next)
    (following : ∀ r, rank next ≤ rank (due r) → due r ≠ next → rank after ≤ rank (due r)) :
    Closing n after l' := by
  refine ⟨sound, ?_, fun first => absurd first later, ?_, ?_⟩
  · intro r kept
    obtain ⟨before, other⟩ := (held r).mp kept
    exact following r (closing.pending r before) other
  · intro kept
    obtain ⟨before, other⟩ := (held _).mp kept
    exact (held _).mpr ⟨closing.socket before, other⟩
  · intro i kept
    exact closing.threads i ((held _).mp kept).1

theorem closing_full {n : Nat} {rest : List Resource} {created : List Resource}
    (fresh : created.Nodup) (same : created = createdWith n rest)
    (socket : .listenSocket ∈ rest → .listenContext ∈ rest)
    (thread : ∀ i, .workerThread i ∉ rest) : Closing n .csMutex ⟨created, []⟩ := by
  subst same
  refine ⟨Ledger.sound_unreleased fresh, fun r _ => Nat.zero_le _, ?_, ?_, ?_⟩
  · intro first
    exact ⟨mem_createdWith.mpr (.inl rfl), by simp⟩
  · intro held
    have inRest : .listenSocket ∈ rest := by simpa [mem_createdWith] using held.1
    exact ⟨mem_createdWith.mpr (by simp [socket inRest]), by simp⟩
  · intro i held
    simpa [mem_createdWith, thread i] using held.1

theorem closing_all (n : Nat) :
    Closing n .csMutex ⟨createdWith n [.listenContext, .listenSocket], []⟩ :=
  closing_full (created_fresh n .bind) rfl (by simp) (by simp)

theorem closing_deleted (n : Nat) :
    Closing n .csMutex (deleteListenContext ⟨createdBefore n .associate, []⟩) := by
  have full : Closing n .csMutex ⟨createdBefore n .associate, []⟩ :=
    closing_full (created_fresh n _) rfl (by simp) (by simp)
  have context : Ledger.Held ⟨createdBefore n .associate, []⟩ .listenContext :=
    ⟨mem_createdWith.mpr (by simp), by simp⟩
  have held : ∀ r, (deleteListenContext ⟨createdBefore n .associate, []⟩).Held r ↔
      Ledger.Held ⟨createdBefore n .associate, []⟩ r ∧ r ≠ .listenSocket ∧ r ≠ .listenContext := by
    intro r
    rw [deleteListenContext, Ledger.held_drop, Ledger.held_release, and_assoc]
  refine ⟨?_, fun r _ => Nat.zero_le _, ?_, ?_, ?_⟩
  · apply Ledger.sound_drop (Ledger.sound_release _ full.sound)
    exact Ledger.held_release.mpr ⟨context, by simp⟩
  · intro first
    exact (held _).mpr ⟨full.mutex first, by simp⟩
  · intro kept
    exact absurd rfl ((held _).mp kept).2.1
  · intro i kept
    exact full.threads i ((held _).mp kept).1

theorem released_last {n : Nat} {l : Ledger Resource} (closing : Closing n .pListenContext l) :
    Released (if l.Held .listenContext then deleteListenContext l else l) := by
  have last : ∀ r, l.Held r → r = .listenContext ∨ r = .listenSocket := by
    intro r held
    have late := closing.pending r held
    cases r <;> simp_all [rank, due]
  by_cases context : l.Held .listenContext
  · rw [if_pos context]
    refine ⟨Ledger.sound_drop (Ledger.sound_release _ closing.sound) ?_, ?_⟩
    · exact Ledger.held_release.mpr ⟨context, by simp⟩
    · intro r held
      obtain ⟨kept, other⟩ := Ledger.held_drop.mp held
      obtain ⟨before, different⟩ := Ledger.held_release.mp kept
      rcases last r before with same | same
      · exact other same
      · exact different same
  · rw [if_neg context]
    refine ⟨closing.sound, ?_⟩
    intro r held
    rcases last r held with rfl | rfl
    · exact context held
    · exact context (closing.socket held)

theorem deInitialize_closes {processors : Nat} {caller : Caller} {next : Releasing} {s : System}
    (closing : Closing (nThreads processors) next s.ledger) :
    (next = .pListenContext ∧ Released (deInitialize processors caller s next).ledger ∧
      (deInitialize processors caller s next).main =
        if caller = .start then .failed else .stopped) ∨
    ∃ after, (deInitialize processors caller s next).main = .deInitialize caller after ∧
      Closing (nThreads processors) after (deInitialize processors caller s next).ledger := by
  cases next with
  | csMutex =>
    refine .inr ⟨.hShutdownEvent, rfl, closing_next closing ?_ (by simp) ?_ ?_⟩
    · exact Ledger.sound_drop closing.sound (closing.mutex rfl)
    · intro r
      rw [deInitialize, Ledger.held_drop]
      cases r <;> simp [due]
    · intro r _ other
      cases r <;> simp_all [rank, due]
  | hShutdownEvent =>
    refine .inr ⟨.phWorkerThreads, rfl, closing_next closing ?_ (by simp) ?_ ?_⟩
    · exact Ledger.sound_release _ closing.sound
    · intro r
      rw [deInitialize, Ledger.held_release]
      cases r <;> simp [due]
    · intro r later other
      cases r <;> simp_all [rank, due]
  | phWorkerThreads =>
    refine .inr ⟨.hIOCompletionPort, rfl, closing_next closing ?_ (by simp) ?_ ?_⟩
    · exact Ledger.sound_releaseAll _ closing.sound
    · intro r
      rw [deInitialize, Ledger.held_releaseAll, mem_handles]
      cases r with
      | workerThread i =>
        have bound := closing.threads i
        simp [due]
        exact bound
      | _ => simp [due]
    · intro r later other
      cases r <;> simp_all [rank, due]
  | hIOCompletionPort =>
    refine .inr ⟨.pListenContext, rfl, closing_next closing ?_ (by simp) ?_ ?_⟩
    · exact Ledger.sound_release _ closing.sound
    · intro r
      rw [deInitialize, Ledger.held_release]
      cases r <;> simp [due]
    · intro r later other
      cases r <;> simp_all [rank, due]
  | pListenContext => exact .inl ⟨rfl, released_last closing, rfl⟩

theorem gave_up_fits {n : Nat} {s : System}
    (ledger : s.ledger = ⟨createdWith n [.listenContext, .listenSocket], []⟩) :
    LedgerFits n (giveUp s) := by
  simp only [LedgerFits, giveUp, ledger]
  exact closing_all n

theorem main_fits {processors : Nat} {ok : Bool} {s t : System}
    (called : mainCall processors ok s = some t) (ledger : LedgerFits (nThreads processors) s)
    (workers : WorkersFit (nThreads processors) s) :
    LedgerFits (nThreads processors) t ∧ WorkersFit (nThreads processors) t := by
  unfold mainCall at called
  cases pc : s.main with
  | constructed =>
    simp only [LedgerFits, WorkersFit, pc] at ledger workers called
    obtain rfl := Option.some.inj called
    refine ⟨?_, workers⟩
    simp [LedgerFits, ledger, Ledger.create, createdBefore]
  | createEvent =>
    simp only [LedgerFits, WorkersFit, pc] at ledger workers called
    obtain rfl := Option.some.inj called
    refine ⟨?_, workers⟩
    simp [LedgerFits, ledger, Ledger.create, createdBefore]
  | createPort =>
    simp only [LedgerFits, WorkersFit, pc] at ledger workers called
    cases ok <;> obtain rfl := Option.some.inj called
    · exact ⟨trivial, trivial⟩
    · refine ⟨?_, workers, Nat.zero_le _⟩
      simp [LedgerFits, ledger, Ledger.create, createdBefore, createdWith, handles]
  | createThread i =>
    simp only [LedgerFits, WorkersFit, pc] at ledger workers called
    by_cases more : i < nThreads processors
    · rw [if_pos more] at called
      obtain rfl := Option.some.inj called
      refine ⟨?_, ?_, more⟩
      · simp [LedgerFits, ledger, Ledger.create, createdBefore, createdWith, handles_succ]
      · simp [workers.1]
    · rw [if_neg more] at called
      obtain rfl := Option.some.inj called
      have all : i = nThreads processors := by omega
      subst all
      refine ⟨?_, workers.1⟩
      simp [LedgerFits, ledger, Ledger.create, createdBefore, createdWith]
  | createSocket =>
    simp only [LedgerFits, WorkersFit, pc] at ledger workers called
    cases ok <;> obtain rfl := Option.some.inj called
    · refine ⟨?_, workers⟩
      simp only [LedgerFits, giveUp, ledger]
      exact closing_full (created_fresh _ _) rfl (by simp) (by simp)
    · refine ⟨?_, workers⟩
      simp [LedgerFits, ledger, Ledger.create, createdBefore, createdWith]
  | associate =>
    simp only [LedgerFits, WorkersFit, pc] at ledger workers called
    cases ok <;> obtain rfl := Option.some.inj called
    · refine ⟨?_, workers⟩
      simp only [LedgerFits, giveUp, ledger]
      exact closing_deleted _
    · exact ⟨ledger, workers⟩
  | bind =>
    simp only [LedgerFits, WorkersFit, pc] at ledger workers called
    cases ok <;> obtain rfl := Option.some.inj called
    · exact ⟨gave_up_fits ledger, workers⟩
    · exact ⟨ledger, workers⟩
  | listen =>
    simp only [LedgerFits, WorkersFit, pc] at ledger workers called
    cases ok <;> obtain rfl := Option.some.inj called
    · exact ⟨gave_up_fits ledger, workers⟩
    · exact ⟨ledger, workers⟩
  | postAccept i =>
    simp only [LedgerFits, WorkersFit, pc] at ledger workers called
    split at called
    · cases ok <;> obtain rfl := Option.some.inj called
      · exact ⟨gave_up_fits ledger, workers⟩
      · exact ⟨ledger, workers⟩
    · obtain rfl := Option.some.inj called
      exact ⟨ledger, workers⟩
  | started =>
    simp only [LedgerFits, WorkersFit, pc, Option.ite_none_right_eq_some] at ledger workers called
    obtain rfl := Option.some.inj called.2
    exact ⟨ledger, workers⟩
  | setEvent =>
    simp only [LedgerFits, WorkersFit, pc] at ledger workers called
    obtain rfl := Option.some.inj called
    exact ⟨ledger, workers⟩
  | postExit i =>
    simp only [LedgerFits, WorkersFit, pc] at ledger workers called
    split at called <;> obtain rfl := Option.some.inj called <;> exact ⟨ledger, workers⟩
  | wait =>
    simp only [LedgerFits, WorkersFit, pc, Option.ite_none_left_eq_some] at ledger workers called
    obtain rfl := Option.some.inj called.2
    exact ⟨ledger ▸ closing_all _, workers⟩
  | deInitialize caller next =>
    simp only [LedgerFits, WorkersFit, pc] at ledger workers called
    obtain rfl := Option.some.inj called
    have kept := (deInitialize_frame processors caller s next).1
    rcases @deInitialize_closes processors caller next s ledger with
      ⟨_, released, last⟩ | ⟨after, moved, closing⟩
    · cases caller with
      | start => exact ⟨by simp [LedgerFits, last], by simp [WorkersFit, last]⟩
      | stop =>
        simp only [reduceCtorEq, if_false] at last
        constructor
        · simpa only [LedgerFits, last] using released
        · simpa only [WorkersFit, last, kept] using workers
    · constructor
      · simpa only [LedgerFits, moved] using closing
      · simpa only [WorkersFit, moved, kept] using workers
  | failed => simp [pc] at called
  | stopped => simp [pc] at called

theorem main_quiet {processors : Nat} {ok : Bool} {s t : System}
    (called : mainCall processors ok s = some t) (running : ¬ Stopping t.main) :
    ¬ Stopping s.main ∧ t.signalled = s.signalled ∧ t.packets = s.packets := by
  obtain ⟨_, ⟨early, _, signalled, packets, _⟩ | ⟨_, pc, rfl⟩ | ⟨_, fails, ledger, rfl⟩ |
    ⟨_, stop, _⟩ | ⟨_, _, rfl⟩ | ⟨caller, next, pc, rfl⟩⟩ := main_cases called
  · refine ⟨?_, signalled, packets⟩
    cases pc : s.main <;> simp [pc, BeforeStop, Stopping, StopCalled, ByStop] at early ⊢
  · exact ⟨by simp [pc, Stopping, StopCalled, ByStop], rfl, rfl⟩
  · refine ⟨?_, rfl, rfl⟩
    cases pc : s.main <;> simp [pc, fallible, Stopping, StopCalled, ByStop] at fails ⊢
  · exact absurd (.inl stop) running
  · exact absurd (.inr rfl) running
  · obtain ⟨_, signalled, packets⟩ := deInitialize_frame processors caller s next
    refine ⟨?_, signalled, packets⟩
    rw [pc]
    cases caller with
    | start => simp [Stopping, StopCalled, ByStop]
    | stop =>
      refine absurd (.inr ?_) running
      rcases deInitialize_main processors .stop s next with last | ⟨after, moved⟩
      · rw [last]
        trivial
      · rw [moved]
        rfl

theorem step_accounted {processors : Nat} (s : System) (event : Event) (t : System)
    (run : step processors s event t) (held : Accounted processors s) : Accounted processors t := by
  obtain ⟨ledger, workers, unsignalled, io⟩ := held
  by_cases main : ∃ ok, event = .call ok
  · obtain ⟨ok, rfl⟩ := main
    obtain ⟨ledgerAfter, workersAfter⟩ := main_fits run ledger workers
    refine ⟨ledgerAfter, workersAfter, ?_, ?_⟩
    · intro running
      obtain ⟨before, signalled, _⟩ := main_quiet run running
      rw [signalled]
      exact unsignalled before
    · intro running
      obtain ⟨before, _, packets⟩ := main_quiet run running
      rw [packets]
      exact io before
  · obtain ⟨sameMain, sameLedger, sameSignal, sameLength, packets⟩ :=
      step_frame run fun ok same => main ⟨ok, same⟩
    refine ⟨?_, ?_, ?_, ?_⟩
    · simpa only [LedgerFits, sameMain, sameLedger] using ledger
    · simpa only [WorkersFit, sameMain, sameLength] using workers
    · rwa [sameMain, sameSignal]
    · rw [sameMain]
      intro running c member
      rcases packets c member with old | key
      · exact io running c old
      · exact key

theorem initial_accounted (processors : Nat) : Accounted processors initial :=
  ⟨rfl, rfl, fun _ => rfl, by simp [initial]⟩

theorem reaches_accounted {processors : Nat} {s : System}
    (run : Reaches (step processors) initial s) : Accounted processors s :=
  invariant_reaches step_accounted (initial_accounted processors) run

theorem nothing_closed {processors : Nat} {s : System} (held : Accounted processors s)
    (working : ¬ Failing s.main) (unstopped : ¬ ByStop s.main) (r : Resource) :
    closed s r = false := by
  have ledger := held.ledger
  cases pc : s.main with
  | deInitialize caller next => cases caller <;> simp [pc, Failing, ByStop] at working unstopped
  | failed => simp [pc, Failing] at working
  | stopped => simp [pc, ByStop] at unstopped
  | _ =>
    simp only [LedgerFits, pc] at ledger
    simp [closed, ledger]

end ResourceAccounts
