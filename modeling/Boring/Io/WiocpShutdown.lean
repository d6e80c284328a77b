import Boring.Library.PoolCounts
import Boring.Library.StepRuns

/- net_wiocp_module: its workers, its completion port and the steps of shutdown, in any
   interleaving. The port is a queue that gives each packet to one waiter. -/
namespace WiocpShutdown
open StepRuns PoolCounts

/-- What GetQueuedCompletionStatus returns. A pointer is a 32-bit word, NULL is 0. -/
structure Completion where
  ok : Bool
  bytes : UInt32
  key : UInt32
  overlapped : UInt32
  deriving DecidableEq, Repr

def EXIT_CODE : UInt32 := 0

def exitPacket : Completion := ⟨true, 0, EXIT_CODE, 0⟩

/-- What the body of the loop does with a completion: call the callback of its record,
    leave the loop, or test the event again. -/
inductive Turn where
  | callback (eo key bytes : UInt32) (ok : Bool)
  | leave
  | again
  deriving DecidableEq, Repr

def loopBody (c : Completion) : Turn :=
  if c.key ≠ EXIT_CODE ∧ c.overlapped ≠ 0 then .callback c.overlapped c.key c.bytes c.ok
  else if c.overlapped = 0 then .leave
  else .again

inductive Stage where
  | testing
  | waiting
  | inCallback
  | left
  deriving DecidableEq, Repr

/-- A worker in `loop`, with the number of exit packets it has taken from the port. -/
structure Worker where
  stage : Stage
  exits : Nat
  deriving DecidableEq, Repr

structure System where
  workers : List Worker
  queue : List Completion
  handleShutdown : Bool
  posted : Nat
  deriving DecidableEq, Repr

inductive Event where
  | createThread
  | arrive (c : Completion)
  | setEvent
  | post
  | test (i : Nat)
  | dequeue (i : Nat)
  | callbackReturns (i : Nat)

def afterTurn : Turn → Stage
  | .callback .. => .inCallback
  | .leave => .left
  | .again => .testing

def taken (w : Worker) (c : Completion) : Worker :=
  ⟨afterTurn (loopBody c), if c = exitPacket then w.exits + 1 else w.exits⟩

section Steps

variable (ithreads : Nat)

/-- `start` creates the threads and `shutdown` runs after it; completions of I/O carry a
    non-NULL overlapped and arrive at any time. -/
def advance (s : System) : Event → Option System
  | .createThread =>
    if s.workers.length < ithreads then some { s with workers := s.workers ++ [⟨.testing, 0⟩] }
    else none
  | .arrive c => if c.overlapped = 0 then none else some { s with queue := s.queue ++ [c] }
  | .setEvent =>
    if s.workers.length = ithreads then some { s with handleShutdown := true } else none
  | .post =>
    if s.handleShutdown ∧ s.posted < ithreads then
      some { s with queue := s.queue ++ [exitPacket], posted := s.posted + 1 }
    else none
  | .test i =>
    match s.workers[i]? with
    | some w =>
      if w.stage = .testing then
        let stage := if s.handleShutdown then Stage.left else Stage.waiting
        some { s with workers := s.workers.set i { w with stage } }
      else none
    | none => none
  | .dequeue i =>
    match s.workers[i]?, s.queue with
    | some w, c :: queue =>
      if w.stage = .waiting then some { s with queue, workers := s.workers.set i (taken w c) }
      else none
    | _, _ => none
  | .callbackReturns i =>
    match s.workers[i]? with
    | some w =>
      if w.stage = .inCallback then
        some { s with workers := s.workers.set i { w with stage := .testing } }
      else none
    | none => none

def step : StepRel System Event := fun s event t => advance ithreads s event = some t

def initial : System := ⟨[], [], false, 0⟩

end Steps

theorem step_cases {ithreads : Nat} {s t : System} {event : Event} (run : step ithreads s event t) :
    (s.workers.length < ithreads ∧ t = { s with workers := s.workers ++ [⟨.testing, 0⟩] }) ∨
    (∃ c, c.overlapped ≠ 0 ∧ t = { s with queue := s.queue ++ [c] }) ∨
    (s.workers.length = ithreads ∧ t = { s with handleShutdown := true }) ∨
    (s.handleShutdown = true ∧ s.posted < ithreads ∧
      t = { s with queue := s.queue ++ [exitPacket], posted := s.posted + 1 }) ∨
    (∃ front w back stage, s.workers = front ++ w :: back ∧ w.stage ≠ .left ∧
      t = { s with workers := front ++ ⟨stage, w.exits⟩ :: back }) ∨
    ∃ front w back c queue, s.workers = front ++ w :: back ∧ w.stage = .waiting ∧
      s.queue = c :: queue ∧ t = { s with queue, workers := front ++ taken w c :: back } := by
  cases event with
  | createThread =>
    simp only [step, advance, Option.ite_none_right_eq_some, Option.some.injEq] at run
    exact .inl ⟨run.1, run.2.symm⟩
  | arrive c =>
    simp only [step, advance, Option.ite_none_left_eq_some, Option.some.injEq] at run
    exact .inr (.inl ⟨c, run.1, run.2.symm⟩)
  | setEvent =>
    simp only [step, advance, Option.ite_none_right_eq_some, Option.some.injEq] at run
    exact .inr (.inr (.inl ⟨run.1, run.2.symm⟩))
  | post =>
    simp only [step, advance, Option.ite_none_right_eq_some, Option.some.injEq] at run
    exact .inr (.inr (.inr (.inl ⟨run.1.1, run.1.2, run.2.symm⟩)))
  | test i =>
    cases found : s.workers[i]? with
    | none => simp [step, advance, found] at run
    | some w =>
      simp only [step, advance, found, Option.ite_none_right_eq_some, Option.some.injEq] at run
      obtain ⟨front, back, split, moved⟩ := set_split found
      rw [moved] at run
      exact .inr (.inr (.inr (.inr (.inl ⟨front, w, back, _, split, by simp [run.1], run.2.symm⟩))))
  | dequeue i =>
    cases found : s.workers[i]? with
    | none => simp [step, advance, found] at run
    | some w =>
      cases queued : s.queue with
      | nil => simp [step, advance, found, queued] at run
      | cons c queue =>
        simp only [step, advance, found, queued, Option.ite_none_right_eq_some,
          Option.some.injEq] at run
        obtain ⟨front, back, split, moved⟩ := set_split found
        rw [moved] at run
        exact .inr (.inr (.inr (.inr (.inr
          ⟨front, w, back, c, queue, split, run.1, rfl, run.2.symm⟩))))
  | callbackReturns i =>
    cases found : s.workers[i]? with
    | none => simp [step, advance, found] at run
    | some w =>
      simp only [step, advance, found, Option.ite_none_right_eq_some, Option.some.injEq] at run
      obtain ⟨front, back, split, moved⟩ := set_split found
      rw [moved] at run
      exact .inr (.inr (.inr (.inr (.inl ⟨front, w, back, _, split, by simp [run.1], run.2.symm⟩))))

/-- Exit packets are in the port or were taken by a worker that has left, one by each. -/
structure Accounted (ithreads : Nat) (s : System) : Prop where
  created : s.workers.length ≤ ithreads
  complete : s.handleShutdown = true → s.workers.length = ithreads
  notified : 0 < s.posted → s.handleShutdown = true
  balance : s.queue.count exitPacket + total Worker.exits s.workers = s.posted
  once : ∀ w ∈ s.workers, w.exits ≤ 1 ∧ (w.exits = 1 → w.stage = .left)

theorem exits_zero {w : Worker} (once : w.exits ≤ 1 ∧ (w.exits = 1 → w.stage = .left))
    (inside : w.stage ≠ .left) : w.exits = 0 := by
  have : w.exits ≠ 1 := fun one => inside (once.2 one)
  omega

theorem taken_once {w : Worker} (fresh : w.exits = 0) (c : Completion) :
    (taken w c).exits = (if c = exitPacket then 1 else 0) ∧ (taken w c).exits ≤ 1 ∧
      ((taken w c).exits = 1 → (taken w c).stage = .left) := by
  by_cases exit : c = exitPacket
  · subst c
    simp [taken, fresh, loopBody, exitPacket, EXIT_CODE, afterTurn]
  · simp [taken, exit, fresh]

theorem step_accounted {ithreads : Nat} (s : System) (event : Event) (t : System)
    (run : step ithreads s event t) (held : Accounted ithreads s) : Accounted ithreads t := by
  obtain ⟨created, complete, notified, balance, once⟩ := held
  rcases step_cases run with ⟨room, rfl⟩ | ⟨c, io, rfl⟩ | ⟨full, rfl⟩ | ⟨set, room, rfl⟩ |
    ⟨front, w, back, stage, split, inside, rfl⟩ |
    ⟨front, w, back, c, queue, split, waiting, queued, rfl⟩
  · refine ⟨?_, ?_, notified, ?_, ?_⟩
    · rw [List.length_append]
      exact room
    · intro set
      exact absurd (complete set) (Nat.ne_of_lt room)
    · simpa using balance
    · intro w member
      rcases List.mem_append.mp member with old | new
      · exact once w old
      · rw [List.mem_singleton.mp new]
        simp
  · refine ⟨created, complete, notified, ?_, once⟩
    have other : exitPacket ≠ c := by
      rintro rfl
      exact io rfl
    simpa [List.count_append, other.symm] using balance
  · exact ⟨created, fun _ => full, fun _ => rfl, balance, once⟩
  · refine ⟨created, complete, fun _ => set, ?_, once⟩
    rw [List.count_append, List.count_singleton_self]
    simp only
    omega
  · rw [split] at created complete balance once
    simp only [List.length_append, List.length_cons, total_append, total_cons]
      at created complete balance
    have fresh := exits_zero (once w (by simp)) inside
    refine ⟨by simpa using created, by simpa using complete, notified, by simpa using balance, ?_⟩
    intro x member
    rcases List.mem_append.mp member with old | rest
    · exact once x (by simp [old])
    · rcases List.mem_cons.mp rest with rfl | old
      · simp [fresh]
      · exact once x (by simp [old])
  · rw [split] at created complete balance once
    simp only [List.length_append, List.length_cons, total_append, total_cons]
      at created complete balance
    have fresh := exits_zero (once w (by simp)) (by simp [waiting])
    obtain ⟨exits, atMost, leaves⟩ := taken_once fresh c
    refine ⟨by simpa using created, by simpa using complete, notified, ?_, ?_⟩
    · rw [queued, List.count_cons, fresh] at balance
      simp only [total_append, total_cons, exits]
      by_cases exit : c = exitPacket
      · simp only [exit, beq_self_eq_true, if_true] at balance ⊢
        omega
      · simp only [beq_iff_eq, exit, if_false] at balance ⊢
        omega
    · intro x member
      rcases List.mem_append.mp member with old | rest
      · exact once x (by simp [old])
      · rcases List.mem_cons.mp rest with rfl | old
        · exact ⟨atMost, leaves⟩
        · exact once x (by simp [old])

theorem initial_accounted (ithreads : Nat) : Accounted ithreads initial :=
  ⟨Nat.zero_le _, by simp [initial], by simp [initial], rfl, by simp [initial]⟩

theorem all_left {ithreads : Nat} {s : System} (held : Accounted ithreads s)
    (all : s.posted = ithreads) (empty : s.queue = []) : ∀ w ∈ s.workers, w.stage = .left := by
  have balance := held.balance
  rw [empty, List.count_nil, Nat.zero_add] at balance
  have full : total Worker.exits s.workers = s.workers.length := by
    by_cases none : ithreads = 0
    · have created := held.created
      omega
    · have complete := held.complete (held.notified (by omega))
      omega
  intro w member
  exact (held.once w member).2 (total_full (fun x inside => (held.once x inside).1) full w member)

/-- In any interleaving each worker takes at most one exit packet, and no worker waits
    on an empty port after all exit packets have been posted. -/
theorem shutdown_strands_no_worker {ithreads : Nat} {s : System}
    (run : Reaches (step ithreads) initial s) :
    (∀ w ∈ s.workers, w.exits ≤ 1) ∧
      ¬ (s.posted = ithreads ∧ s.queue = [] ∧ ∃ w ∈ s.workers, w.stage = .waiting) := by
  have held := invariant_reaches step_accounted (initial_accounted ithreads) run
  refine ⟨fun w member => (held.once w member).1, ?_⟩
  rintro ⟨all, empty, w, member, waiting⟩
  have left := all_left held all empty w member
  rw [waiting] at left
  cases left

def received : Completion := ⟨true, 5, 7, 64⟩

def shutdownRun : List Event :=
  [.createThread, .createThread, .test 0, .test 1, .arrive received, .dequeue 0, .setEvent, .post,
    .callbackReturns 0, .post, .test 0, .dequeue 1]

theorem two_workers_shut_down : ∃ s, follow (advance 2) initial shutdownRun = some s ∧
    (∀ w ∈ s.workers, w.exits ≤ 1) ∧
      ¬ (s.posted = 2 ∧ s.queue = [] ∧ ∃ w ∈ s.workers, w.stage = .waiting) :=
  ⟨_, rfl, shutdown_strands_no_worker (@reaches_follow _ _ (advance 2) initial _ shutdownRun rfl)⟩

end WiocpShutdown
