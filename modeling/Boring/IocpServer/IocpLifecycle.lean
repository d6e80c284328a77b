import Boring.Library.Ledgers
import Boring.Library.PoolCounts
import Boring.Library.StepRuns
import Boring.IocpServer.WorkerLoop

/- CIocpModel from Start to Stop: the thread that calls both, the workers and the
   completion port, in any interleaving. CreateEvent, CreateThread, SetEvent and
   PostQueuedCompletionStatus succeed; the other calls may fail. -/
namespace IocpLifecycle
open StepRuns PoolCounts Ledgers WorkerLoop

def MAX_POST_ACCEPT : Nat := 10

def MAXIMUM_WAIT_OBJECTS : Nat := 64

/-- What Start creates. A handle or pointer member is not NULL exactly while its resource
    is held: the RELEASE macros test it and set it back to NULL. -/
inductive Resource where
  | csMutex
  | hShutdownEvent
  | hIOCompletionPort
  | workerThread (i : Nat)
  | listenContext
  | listenSocket
  deriving DecidableEq, Repr

inductive Caller where
  | start
  | stop
  deriving DecidableEq, Repr

inductive Releasing where
  | csMutex
  | hShutdownEvent
  | phWorkerThreads
  | hIOCompletionPort
  | pListenContext
  deriving DecidableEq, Repr

inductive Main where
  | constructed
  | createEvent
  | createPort
  | createThread (i : Nat)
  | createSocket
  | associate
  | bind
  | listen
  | postAccept (i : Nat)
  | started
  | failed
  | setEvent
  | postExit (i : Nat)
  | wait
  | deInitialize (caller : Caller) (next : Releasing)
  | stopped
  deriving DecidableEq, Repr

inductive Stage where
  | testing
  | calling
  | blocked
  | handling
  | left
  deriving DecidableEq, Repr

/-- A worker with its variable pSocketContext, NULL before the first packet. -/
structure Worker where
  stage : Stage
  pSocketContext : UInt32
  deriving DecidableEq, Repr

structure System where
  main : Main
  ledger : Ledger Resource
  signalled : Bool
  associated : Bool
  packets : List Completion
  workers : List Worker
  misused : Bool
  deriving DecidableEq, Repr

inductive Event where
  | call (ok : Bool)
  | arrive (c : Completion)
  | test (i : Nat)
  | getStatus (i : Nat)
  | dequeue (i : Nat) (c : Completion)
  | abandoned (i : Nat)
  | handled (i : Nat)

def Gone (workers : List Worker) : Prop := ∀ w ∈ workers, w.stage = .left

instance (workers : List Worker) : Decidable (Gone workers) := List.decidableBAll _ workers

def nThreads (processors : Nat) : Nat := 2 * processors + 2

def handles (n : Nat) : List Resource := (List.range n).map .workerThread

/-- ~_PER_SOCKET_CONTEXT closes the socket it has, then the memory goes. -/
def deleteListenContext (l : Ledger Resource) : Ledger Resource :=
  (l.release .listenSocket).drop .listenContext

def afterTurn : Turn → Stage
  | .doAccpet => .handling
  | .doRecv => .handling
  | .doSend => .handling
  | .again => .testing
  | .leave => .left

def afterCall (c : Completion) : Worker := ⟨afterTurn (loopBody c), c.pSocketContext⟩

section Steps

variable (processors : Nat)

def deInitialize (caller : Caller) (s : System) : Releasing → System
  | .csMutex =>
    { s with main := .deInitialize caller .hShutdownEvent, ledger := s.ledger.drop .csMutex }
  | .hShutdownEvent =>
    { s with main := .deInitialize caller .phWorkerThreads,
             ledger := s.ledger.release .hShutdownEvent }
  | .phWorkerThreads =>
    { s with main := .deInitialize caller .hIOCompletionPort,
             ledger := s.ledger.releaseAll (handles (nThreads processors)) }
  | .hIOCompletionPort =>
    { s with main := .deInitialize caller .pListenContext,
             ledger := s.ledger.release .hIOCompletionPort }
  | .pListenContext =>
    { s with main := if caller = .start then .failed else .stopped,
             ledger := if s.ledger.Held .listenContext then deleteListenContext s.ledger
                       else s.ledger }

def giveUp (s : System) : System := { s with main := .deInitialize .start .csMutex }

/-- One call of Start or Stop, which succeeds or fails with `ok`. The wait is for all handles
    when there are at most 64 of them, and otherwise fails at once. -/
def mainCall (ok : Bool) (s : System) : Option System :=
  match s.main with
  | .constructed => some { s with main := .createEvent, ledger := s.ledger.create .csMutex }
  | .createEvent => some { s with main := .createPort, ledger := s.ledger.create .hShutdownEvent }
  | .createPort =>
    if ok then
      some { s with main := .createThread 0, ledger := s.ledger.create .hIOCompletionPort }
    else some { s with main := .failed }
  | .createThread i =>
    if i < nThreads processors then
      some { s with main := .createThread (i + 1), ledger := s.ledger.create (.workerThread i),
                    workers := s.workers ++ [⟨.testing, 0⟩] }
    else some { s with main := .createSocket, ledger := s.ledger.create .listenContext }
  | .createSocket =>
    if ok then some { s with main := .associate, ledger := s.ledger.create .listenSocket }
    else some (giveUp s)
  | .associate =>
    if ok then some { s with main := .bind, associated := true }
    else some (giveUp { s with ledger := deleteListenContext s.ledger })
  | .bind => if ok then some { s with main := .listen } else some (giveUp s)
  | .listen => if ok then some { s with main := .postAccept 0 } else some (giveUp s)
  | .postAccept i =>
    if i < MAX_POST_ACCEPT then
      if ok then some { s with main := .postAccept (i + 1) } else some (giveUp s)
    else some { s with main := .started }
  | .started =>
    if s.ledger.Held .listenContext ∧ s.ledger.Held .listenSocket then
      some { s with main := .setEvent }
    else none
  | .setEvent => some { s with main := .postExit 0, signalled := true }
  | .postExit i =>
    if i < nThreads processors then
      some { s with main := .postExit (i + 1), packets := s.packets ++ [exitPacket] }
    else some { s with main := .wait }
  | .wait =>
    if nThreads processors ≤ MAXIMUM_WAIT_OBJECTS ∧ ¬ Gone s.workers then none
    else some { s with main := .deInitialize .stop .csMutex }
  | .deInitialize caller next => some (deInitialize processors caller s next)
  | .failed => none
  | .stopped => none

def closed (s : System) (r : Resource) : Bool := decide (r ∈ s.ledger.released)

def moveWorker (s : System) (i : Nat) (stage : Stage) (next : Worker → System → Option System) :
    Option System :=
  match s.workers[i]? with
  | some w => if w.stage = stage then next w s else none
  | none => none

/-- Operations of the server's sockets complete at any time once the listen socket is bound
    to the port. A wait on a closed event is not WAIT_OBJECT_0, a call on a closed port
    fails, and closing the port ends the calls that are blocked on it. -/
def advance (s : System) : Event → Option System
  | .call ok => mainCall processors ok s
  | .arrive c =>
    if s.associated ∧ closed s .hIOCompletionPort = false ∧ c.pSocketContext ≠ EXIT_CODE then
      some { s with packets := s.packets ++ [c] }
    else none
  | .test i => moveWorker s i .testing fun w s =>
    let lost := closed s .hShutdownEvent
    let stage := if lost = false ∧ s.signalled then Stage.left else Stage.calling
    some { s with workers := s.workers.set i { w with stage }, misused := s.misused || lost }
  | .getStatus i => moveWorker s i .calling fun w s =>
    if closed s .hIOCompletionPort then
      let w := afterCall (failedCall w.pSocketContext ERROR_INVALID_HANDLE)
      some { s with workers := s.workers.set i w, misused := true }
    else some { s with workers := s.workers.set i { w with stage := .blocked } }
  | .dequeue i c => moveWorker s i .blocked fun _ s =>
    if closed s .hIOCompletionPort = false ∧ c ∈ s.packets then
      some { s with workers := s.workers.set i (afterCall c), packets := s.packets.erase c }
    else none
  | .abandoned i => moveWorker s i .blocked fun w s =>
    if closed s .hIOCompletionPort then
      let w := afterCall (failedCall w.pSocketContext ERROR_ABANDONED_WAIT_0)
      some { s with workers := s.workers.set i w }
    else none
  | .handled i => moveWorker s i .handling fun w s =>
    some { s with workers := s.workers.set i { w with stage := .testing } }

def step : StepRel System Event := fun s event t => advance processors s event = some t

def initial : System := ⟨.constructed, ⟨[], []⟩, false, false, [], [], false⟩

end Steps

def Event.worker : Event → Option Nat
  | .call _ => none
  | .arrive _ => none
  | .test i => some i
  | .getStatus i => some i
  | .dequeue i _ => some i
  | .abandoned i => some i
  | .handled i => some i

theorem moveWorker_some {s t : System} {i : Nat} {stage : Stage}
    {next : Worker → System → Option System} (run : moveWorker s i stage next = some t) :
    ∃ w, s.workers[i]? = some w ∧ w.stage = stage ∧ next w s = some t := by
  unfold moveWorker at run
  cases found : s.workers[i]? with
  | none => simp [found] at run
  | some w =>
    simp only [found, Option.ite_none_right_eq_some] at run
    exact ⟨w, rfl, run⟩

def Undisturbed (s : System) : Prop := s.signalled = false ∧ ∀ r, closed s r = false

theorem worker_step {processors i : Nat} {s t : System} {event : Event}
    (who : event.worker = some i) (run : step processors s event t) :
    ∃ w next packets misused, s.workers[i]? = some w ∧ w.stage ≠ .left ∧
      (∀ c ∈ packets, c ∈ s.packets) ∧
      (misused = true → s.misused = true ∨ closed s .hShutdownEvent = true ∨
        closed s .hIOCompletionPort = true) ∧
      (Undisturbed s → (next.stage ≠ .left ∧ ∀ c, event ≠ .dequeue i c) ∨
        ∃ c ∈ s.packets, event = .dequeue i c ∧ next = afterCall c) ∧
      t = { s with workers := s.workers.set i next, packets, misused } := by
  cases event with
  | call ok => simp [Event.worker] at who
  | arrive c => simp [Event.worker] at who
  | test j =>
    obtain rfl := Option.some.inj who
    simp only [step, advance] at run
    obtain ⟨w, found, stage, moved⟩ := moveWorker_some run
    refine ⟨w, _, _, _, found, by simp [stage], fun c member => member, ?_, ?_,
      (Option.some.inj moved).symm⟩
    · intro misused
      rcases Bool.or_eq_true_iff.mp misused with before | lost
      · exact .inl before
      · exact .inr (.inl lost)
    · intro calm
      exact .inl ⟨by simp [calm.1], by simp⟩
  | getStatus j =>
    obtain rfl := Option.some.inj who
    simp only [step, advance] at run
    obtain ⟨w, found, stage, moved⟩ := moveWorker_some run
    by_cases lost : closed s .hIOCompletionPort = true
    · rw [if_pos lost] at moved
      refine ⟨w, _, _, _, found, by simp [stage], fun c member => member,
        fun _ => .inr (.inr lost), fun calm => ?_, (Option.some.inj moved).symm⟩
      rw [calm.2] at lost
      cases lost
    · rw [if_neg lost] at moved
      exact ⟨w, _, _, _, found, by simp [stage], fun c member => member, .inl,
        fun _ => .inl ⟨by simp, by simp⟩, (Option.some.inj moved).symm⟩
  | dequeue j c =>
    obtain rfl := Option.some.inj who
    simp only [step, advance] at run
    obtain ⟨w, found, stage, moved⟩ := moveWorker_some run
    rw [Option.ite_none_right_eq_some] at moved
    exact ⟨w, _, _, _, found, by simp [stage], fun c member => List.mem_of_mem_erase member, .inl,
      fun _ => .inr ⟨c, moved.1.2, rfl, rfl⟩, (Option.some.inj moved.2).symm⟩
  | abandoned j =>
    obtain rfl := Option.some.inj who
    simp only [step, advance] at run
    obtain ⟨w, found, stage, moved⟩ := moveWorker_some run
    rw [Option.ite_none_right_eq_some] at moved
    refine ⟨w, _, _, _, found, by simp [stage], fun c member => member, .inl, fun calm => ?_,
      (Option.some.inj moved.2).symm⟩
    simp [calm.2] at moved
  | handled j =>
    obtain rfl := Option.some.inj who
    simp only [step, advance] at run
    obtain ⟨w, found, stage, moved⟩ := moveWorker_some run
    exact ⟨w, _, _, _, found, by simp [stage], fun c member => member, .inl,
      fun _ => .inl ⟨by simp, by simp⟩, (Option.some.inj moved).symm⟩

theorem step_cases {processors : Nat} {s t : System} {event : Event}
    (run : step processors s event t) :
    (∃ ok, event = .call ok ∧ mainCall processors ok s = some t) ∨
    (∃ c, event = .arrive c ∧ c.pSocketContext ≠ EXIT_CODE ∧
      t = { s with packets := s.packets ++ [c] }) ∨
    ∃ i, event.worker = some i := by
  cases event with
  | call ok => exact .inl ⟨ok, rfl, run⟩
  | arrive c =>
    simp only [step, advance, Option.ite_none_right_eq_some, Option.some.injEq] at run
    exact .inr (.inl ⟨c, rfl, run.1.2.2, run.2.symm⟩)
  | test i => exact .inr (.inr ⟨i, rfl⟩)
  | getStatus i => exact .inr (.inr ⟨i, rfl⟩)
  | dequeue i c => exact .inr (.inr ⟨i, rfl⟩)
  | abandoned i => exact .inr (.inr ⟨i, rfl⟩)
  | handled i => exact .inr (.inr ⟨i, rfl⟩)

def BeforeStop : Main → Prop
  | .failed => False
  | .setEvent => False
  | .postExit _ => False
  | .wait => False
  | .deInitialize _ _ => False
  | .stopped => False
  | _ => True

def StopCalled : Main → Prop
  | .setEvent => True
  | .postExit _ => True
  | .wait => True
  | _ => False

def fallible : Main → Bool
  | .createSocket => true
  | .associate => true
  | .bind => true
  | .listen => true
  | .postAccept i => decide (i < MAX_POST_ACCEPT)
  | _ => false

theorem main_cases {processors : Nat} {ok : Bool} {s t : System}
    (called : mainCall processors ok s = some t) : t.misused = s.misused ∧
    ((BeforeStop s.main ∧ BeforeStop t.main ∧ t.signalled = s.signalled ∧ t.packets = s.packets ∧
        (t.workers = s.workers ∨ t.workers = s.workers ++ [⟨.testing, 0⟩])) ∨
      (ok = false ∧ s.main = .createPort ∧ t = { s with main := .failed }) ∨
      (ok = false ∧ fallible s.main = true ∧ ∃ ledger, t = giveUp { s with ledger }) ∨
      ((s.main = .started ∨ StopCalled s.main) ∧ StopCalled t.main ∧ t.workers = s.workers) ∨
      (s.main = .wait ∧ ¬ (nThreads processors ≤ MAXIMUM_WAIT_OBJECTS ∧ ¬ Gone s.workers) ∧
        t = { s with main := .deInitialize .stop .csMutex }) ∨
      ∃ caller next, s.main = .deInitialize caller next ∧
        t = deInitialize processors caller s next) := by
  unfold mainCall at called
  cases pc : s.main with
  | constructed =>
    simp only [pc] at called
    obtain rfl := Option.some.inj called
    exact ⟨rfl, .inl ⟨trivial, trivial, rfl, rfl, .inl rfl⟩⟩
  | createEvent =>
    simp only [pc] at called
    obtain rfl := Option.some.inj called
    exact ⟨rfl, .inl ⟨trivial, trivial, rfl, rfl, .inl rfl⟩⟩
  | createPort =>
    simp only [pc] at called
    cases ok <;> obtain rfl := Option.some.inj called
    · exact ⟨rfl, .inr (.inl ⟨rfl, rfl, rfl⟩)⟩
    · exact ⟨rfl, .inl ⟨trivial, trivial, rfl, rfl, .inl rfl⟩⟩
  | createThread i =>
    simp only [pc] at called
    split at called <;> obtain rfl := Option.some.inj called
    · exact ⟨rfl, .inl ⟨trivial, trivial, rfl, rfl, .inr rfl⟩⟩
    · exact ⟨rfl, .inl ⟨trivial, trivial, rfl, rfl, .inl rfl⟩⟩
  | postAccept i =>
    simp only [pc] at called
    split at called
    · cases ok <;> obtain rfl := Option.some.inj called
      · exact ⟨rfl, .inr (.inr (.inl ⟨rfl, by simpa [fallible], _, rfl⟩))⟩
      · exact ⟨rfl, .inl ⟨trivial, trivial, rfl, rfl, .inl rfl⟩⟩
    · obtain rfl := Option.some.inj called
      exact ⟨rfl, .inl ⟨trivial, trivial, rfl, rfl, .inl rfl⟩⟩
  | started =>
    simp only [pc, Option.ite_none_right_eq_some] at called
    obtain rfl := Option.some.inj called.2
    exact ⟨rfl, .inr (.inr (.inr (.inl ⟨.inl rfl, trivial, rfl⟩)))⟩
  | setEvent =>
    simp only [pc] at called
    obtain rfl := Option.some.inj called
    exact ⟨rfl, .inr (.inr (.inr (.inl ⟨.inr trivial, trivial, rfl⟩)))⟩
  | postExit i =>
    simp only [pc] at called
    split at called <;> obtain rfl := Option.some.inj called <;>
      exact ⟨rfl, .inr (.inr (.inr (.inl ⟨.inr trivial, trivial, rfl⟩)))⟩
  | wait =>
    simp only [pc, Option.ite_none_left_eq_some] at called
    obtain rfl := Option.some.inj called.2
    exact ⟨rfl, .inr (.inr (.inr (.inr (.inl ⟨rfl, called.1, rfl⟩))))⟩
  | deInitialize caller next =>
    simp only [pc] at called
    obtain rfl := Option.some.inj called
    refine ⟨?_, .inr (.inr (.inr (.inr (.inr ⟨caller, next, rfl, rfl⟩))))⟩
    cases next <;> rfl
  | failed => simp [pc] at called
  | stopped => simp [pc] at called
  | _ =>
    simp only [pc] at called
    cases ok <;> obtain rfl := Option.some.inj called
    · exact ⟨rfl, .inr (.inr (.inl ⟨rfl, rfl, _, rfl⟩))⟩
    · exact ⟨rfl, .inl ⟨trivial, trivial, rfl, rfl, .inl rfl⟩⟩

theorem deInitialize_frame (processors : Nat) (caller : Caller) (s : System) (next : Releasing) :
    (deInitialize processors caller s next).workers = s.workers ∧
      (deInitialize processors caller s next).signalled = s.signalled ∧
      (deInitialize processors caller s next).packets = s.packets := by
  cases next <;> exact ⟨rfl, rfl, rfl⟩

theorem deInitialize_main (processors : Nat) (caller : Caller) (s : System) (next : Releasing) :
    (deInitialize processors caller s next).main =
        (if caller = .start then .failed else .stopped) ∨
      ∃ after, (deInitialize processors caller s next).main = .deInitialize caller after := by
  cases next with
  | pListenContext => exact .inl rfl
  | _ => exact .inr ⟨_, rfl⟩

theorem main_workers {processors : Nat} {ok : Bool} {s t : System}
    (called : mainCall processors ok s = some t) :
    t.workers = s.workers ∨ t.workers = s.workers ++ [⟨.testing, 0⟩] := by
  obtain ⟨_, ⟨_, _, _, _, workers⟩ | ⟨_, _, rfl⟩ | ⟨_, _, ledger, rfl⟩ | ⟨_, _, same⟩ |
    ⟨_, _, rfl⟩ | ⟨caller, next, _, rfl⟩⟩ := main_cases called
  · exact workers
  · exact .inl rfl
  · exact .inl rfl
  · exact .inl same
  · exact .inl rfl
  · exact .inl (deInitialize_frame processors caller s next).1

theorem step_frame {processors : Nat} {s t : System} {event : Event}
    (run : step processors s event t) (other : ∀ ok, event ≠ .call ok) :
    t.main = s.main ∧ t.ledger = s.ledger ∧ t.signalled = s.signalled ∧
      t.workers.length = s.workers.length ∧
      ∀ c ∈ t.packets, c ∈ s.packets ∨ c.pSocketContext ≠ EXIT_CODE := by
  rcases step_cases run with ⟨ok, called, _⟩ | ⟨c, _, key, rfl⟩ | ⟨i, who⟩
  · exact absurd called (other ok)
  · refine ⟨rfl, rfl, rfl, rfl, ?_⟩
    intro x member
    rcases List.mem_append.mp member with old | new
    · exact .inl old
    · exact .inr (List.mem_singleton.mp new ▸ key)
  · obtain ⟨w, next, packets, misused, _, _, taken, _, _, rfl⟩ := worker_step who run
    exact ⟨rfl, rfl, rfl, List.length_set, fun c member => .inl (taken c member)⟩

theorem gone_stays {processors : Nat} {s t : System} {event : Event}
    (run : step processors s event t) (other : ∀ ok, event ≠ .call ok) (gone : Gone s.workers) :
    t.workers = s.workers ∧ t.misused = s.misused := by
  rcases step_cases run with ⟨ok, called, _⟩ | ⟨c, _, _, rfl⟩ | ⟨i, who⟩
  · exact absurd called (other ok)
  · exact ⟨rfl, rfl⟩
  · obtain ⟨w, next, packets, misused, found, inside, _⟩ := worker_step who run
    exact absurd (gone w (List.mem_of_getElem? found)) inside

end IocpLifecycle
