import Boring.IocpServer.IoContexts
import Boring.IocpServer.IocpLifecycle

/- The accepts that CIocpModel has posted, from the loop in Start on, while clients connect
   and workers handle the connections in any order. The Win32 calls succeed, AcceptEx among
   them, so no accept completes with an error. -/
namespace AcceptPool
open StepRuns WorkerLoop IoContexts
open IocpLifecycle (MAX_POST_ACCEPT nThreads)

/-- The contexts of the listen context and, by index, those with an AcceptEx that is
    outstanding, has completed, or is being handled by a worker. -/
structure Pool where
  posted : Nat
  contexts : List PerIoContext
  outstanding : List Nat
  completed : List Nat
  handling : List Nat
  clients : List PerSocketContext
  deriving DecidableEq, Repr

inductive Event where
  | post (calls : Calls)
  | connect (k : Nat) (received : String)
  | dequeue (k : Nat) (c : Completion)
  | handled (k : Nat) (calls : Calls) (clientAddr : SockaddrIn)

section Steps

variable (processors : Nat)

def postNew (calls : Calls) (s : Pool) : Option Pool :=
  let posted := postAccept calls newIoContext
  if posted.1 then
    some { s with posted := s.posted + 1, contexts := s.contexts ++ [posted.2],
                  outstanding := s.outstanding ++ [s.contexts.length] }
  else none

def rearm (k : Nat) (accepted : Accepted) (s : Pool) : Pool :=
  { s with contexts := s.contexts.set k accepted.context,
           handling := s.handling.erase k,
           clients := s.clients ++ [accepted.client],
           outstanding := if accepted.result then s.outstanding ++ [k] else s.outstanding }

def advance (s : Pool) : Event → Option Pool
  | .post calls =>
    if s.posted < MAX_POST_ACCEPT ∧ Succeed calls then postNew calls s else none
  | .connect k received =>
    match s.contexts[k]? with
    | some context =>
      if k ∈ s.outstanding then
        some { s with contexts := s.contexts.set k { context with szBuffer := received },
                      outstanding := s.outstanding.erase k, completed := s.completed ++ [k] }
      else none
    | none => none
  | .dequeue k c =>
    match s.contexts[k]? with
    | some context =>
      if k ∈ s.completed ∧ s.handling.length < nThreads processors ∧ c.bReturn = true ∧
          c.pSocketContext ≠ EXIT_CODE ∧ c.opType = context.opType then
        some { s with completed := s.completed.erase k,
                      handling := if loopBody c = .doAccpet then s.handling ++ [k]
                                  else s.handling }
      else none
    | none => none
  | .handled k calls clientAddr =>
    match s.contexts[k]? with
    | some context =>
      if k ∈ s.handling ∧ Succeed calls then some (rearm k (doAccpet calls clientAddr context) s)
      else none
    | none => none

def step : StepRel Pool Event := fun s event t => advance processors s event = some t

def initial : Pool := ⟨0, [], [], [], [], []⟩

end Steps

def pool (s : Pool) : Nat := s.outstanding.length + (s.completed.length + s.handling.length)

def Handled : Event → Prop
  | .handled _ _ _ => True
  | _ => False

instance (event : Event) : Decidable (Handled event) := by
  cases event <;> unfold Handled <;> infer_instance

/-- Every context keeps the socket of its first accept, so what has been posted is in the
    pool or has been handled for good. -/
structure Balanced (s : Pool) (past : List Event) : Prop where
  armed : ∀ context ∈ s.contexts, Armed context
  total : pool s + past.countP Handled = s.posted
  clients : s.clients.length = past.countP Handled
  bound : s.posted ≤ MAX_POST_ACCEPT

theorem count_handled (past : List Event) {event : Event} (handled : Handled event) :
    (past ++ [event]).countP Handled = past.countP Handled + 1 := by
  simp [List.countP_append, handled]

theorem count_other (past : List Event) {event : Event} (other : ¬ Handled event) :
    (past ++ [event]).countP Handled = past.countP Handled := by
  simp [List.countP_append, other]

theorem erase_length {k : Nat} {ks : List Nat} (member : k ∈ ks) :
    (ks.erase k).length + 1 = ks.length := by
  have := List.length_erase_add_one member
  omega

theorem set_armed {contexts : List PerIoContext} {k : Nat} {context : PerIoContext}
    (armed : ∀ x ∈ contexts, Armed x) (new : Armed context) :
    ∀ x ∈ contexts.set k context, Armed x := by
  intro x member
  rcases List.mem_or_eq_of_mem_set member with old | rfl
  · exact armed x old
  · exact new

theorem other_balanced {s t : Pool} {past : List Event} {event : Event} (other : ¬ Handled event)
    (held : Balanced s past) (armed : ∀ context ∈ t.contexts, Armed context)
    (pooled : pool t + s.posted = pool s + t.posted) (clients : t.clients = s.clients)
    (bound : t.posted ≤ MAX_POST_ACCEPT) : Balanced t (past ++ [event]) := by
  refine ⟨armed, ?_, ?_, bound⟩
  · have total := held.total
    rw [count_other past other]
    omega
  · rw [count_other past other, clients]
    exact held.clients

theorem step_balanced {processors : Nat} (s : Pool) (past : List Event) (event : Event) (t : Pool)
    (run : step processors s event t) (held : Balanced s past) :
    Balanced t (past ++ [event]) := by
  cases event with
  | post calls =>
    simp only [step, advance, Option.ite_none_right_eq_some] at run
    obtain ⟨⟨room, ok⟩, posted⟩ := run
    obtain ⟨accepted, new⟩ := post_new ok
    simp only [postNew, accepted, if_true] at posted
    obtain rfl := Option.some.inj posted
    refine other_balanced (by simp [Handled]) held ?_ ?_ rfl room
    · intro x member
      rcases List.mem_append.mp member with old | last
      · exact held.armed x old
      · exact List.mem_singleton.mp last ▸ new
    · simp only [pool, List.length_append, List.length_singleton]
      omega
  | connect k received =>
    cases found : s.contexts[k]? with
    | none => simp [step, advance, found] at run
    | some context =>
      simp only [step, advance, found, Option.ite_none_right_eq_some] at run
      obtain ⟨pending, moved⟩ := run
      obtain rfl := Option.some.inj moved
      have before := held.armed context (List.mem_of_getElem? found)
      have length := erase_length pending
      refine other_balanced (by simp [Handled]) held (set_armed held.armed before) ?_ rfl held.bound
      simp only [pool, List.length_append, List.length_singleton]
      omega
  | dequeue k c =>
    cases found : s.contexts[k]? with
    | none => simp [step, advance, found] at run
    | some context =>
      simp only [step, advance, found, Option.ite_none_right_eq_some] at run
      obtain ⟨⟨queued, _, ok, key, opType⟩, moved⟩ := run
      have accept := (held.armed context (List.mem_of_getElem? found)).2
      rw [accept_handled key ok (opType.trans accept), if_pos rfl] at moved
      obtain rfl := Option.some.inj moved
      have length := erase_length queued
      refine other_balanced (by simp [Handled]) held held.armed ?_ rfl held.bound
      simp only [pool, List.length_append, List.length_singleton]
      omega
  | handled k calls clientAddr =>
    cases found : s.contexts[k]? with
    | none => simp [step, advance, found] at run
    | some context =>
      simp only [step, advance, found, Option.ite_none_right_eq_some] at run
      obtain ⟨⟨busy, _⟩, moved⟩ := run
      obtain rfl := Option.some.inj moved
      obtain ⟨armed, total, clients, bound⟩ := held
      obtain ⟨refused, kept⟩ := @doAccpet_refused calls clientAddr context
        (armed context (List.mem_of_getElem? found))
      have length := erase_length busy
      have finished : Handled (.handled k calls clientAddr) := trivial
      refine ⟨set_armed armed kept, ?_, ?_, bound⟩
      · rw [count_handled past finished]
        simp only [pool, rearm, refused, Bool.false_eq_true, if_false] at total ⊢
        omega
      · rw [count_handled past finished]
        simp only [rearm, List.length_append, List.length_singleton]
        omega

theorem initial_balanced : Balanced initial [] :=
  ⟨by simp [initial], rfl, rfl, Nat.zero_le _⟩

theorem run_balanced {processors : Nat} {path : List (Event × Pool)}
    (valid : Path (step processors) initial path) :
    Balanced (last initial path) (labels path) :=
  invariant_history step_balanced initial_balanced valid

/-- Once Start has posted its accepts, the pool is full exactly as long as no worker has come
    to the end of _DoAccpet. -/
theorem accept_pool_full_iff {processors : Nat} {path : List (Event × Pool)}
    (valid : Path (step processors) initial path)
    (started : (last initial path).posted = MAX_POST_ACCEPT) :
    pool (last initial path) = MAX_POST_ACCEPT ↔ ∀ event ∈ labels path, ¬ Handled event := by
  have total := (run_balanced valid).total
  rw [started] at total
  have none : (labels path).countP Handled = 0 ↔ ∀ event ∈ labels path, ¬ Handled event := by
    rw [List.countP_eq_zero]
    simp only [decide_eq_true_eq]
  rw [← none]
  omega

theorem clients_bounded {processors : Nat} {s : Pool}
    (run : Reaches (step processors) initial s) : s.clients.length ≤ MAX_POST_ACCEPT := by
  obtain ⟨path, valid, rfl⟩ := run
  obtain ⟨_, total, clients, bound⟩ := run_balanced valid
  omega

def opening (wsaSocket : Socket) : Calls := ⟨wsaSocket, true, true⟩

def firstClient : SockaddrIn := ⟨16777343, 36895⟩

def oneClient : List Event :=
  [100, 104, 108, 112, 116, 120, 124, 128, 132, 136].map (fun s => .post (opening s)) ++
    [.connect 0 "G", .dequeue 0 ⟨true, 0, 1, 4096, .postedAccept⟩,
      .handled 0 (opening 140) firstClient]

theorem one_client_shrinks_pool : ¬ ∀ processors s, Reaches (step processors) initial s →
    s.posted = MAX_POST_ACCEPT → pool s = MAX_POST_ACCEPT := by
  intro alwaysFull
  have full := alwaysFull 1 _ (@reaches_follow _ _ (advance 1) initial _ oneClient rfl) rfl
  exact absurd full (by decide)

theorem pool_after_one_client : ∃ path, Path (step 1) initial path ∧ labels path = oneClient ∧
    (pool (last initial path) = MAX_POST_ACCEPT ↔ ∀ event ∈ labels path, ¬ Handled event) := by
  obtain ⟨path, valid, same, ends⟩ := @path_follow _ _ (advance 1) initial _ oneClient rfl
  exact ⟨path, valid, same, accept_pool_full_iff valid (congrArg Pool.posted ends)⟩

end AcceptPool
