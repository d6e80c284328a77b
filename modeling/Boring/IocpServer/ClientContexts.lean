import Boring.IocpServer.IoContexts
import Boring.Library.CompletionPorts
import Boring.Library.StepRuns

/- The contexts of the clients of a started CIocpModel: what of them is associated with the
   completion port, recorded in m_arrayClientContext and released, while workers take
   completions in any order, up to Stop. _AssociateWithIOCP has no caller. -/
namespace ClientContexts
open StepRuns CompletionPorts WorkerLoop IoContexts

inductive PIoContext where
  | accept (k : Nat)
  | client (pSocketContext : UInt32) (i : Nat)
  deriving DecidableEq, Repr

structure Client where
  pointer : UInt32
  context : PerSocketContext
  deriving DecidableEq, Repr

structure Outcome where
  bReturn : Bool
  dwErr : UInt32
  dwBytesTransfered : UInt32
  deriving DecidableEq, Repr

/-- `released` has the contexts that have been deleted, and `disconnected` those for which a
    worker has been through its disconnect branch. -/
structure Server where
  pListenContext : UInt32
  listenSocket : Socket
  accepts : List PerIoContext
  clients : List Client
  hIOCompletionPort : Port Socket UInt32 PIoContext Outcome
  arrayClientContext : List UInt32
  disconnected : List UInt32
  released : List UInt32
  stopped : Bool
  deriving DecidableEq, Repr

/-- What the calls of a worker in _DoAccpet return: the new context, and whether WSASend
    leaves an operation in progress. -/
structure Handling where
  calls : Calls
  clientAddr : SockaddrIn
  pNewSocketContext : UInt32
  wsaSend : Bool

inductive Event where
  | post (calls : Calls)
  | complete (n : Nat) (outcome : Outcome)
  | dequeue (n : Nat) (handling : Handling)
  | stop

def ioContext (s : Server) : PIoContext → Option PerIoContext
  | .accept k => s.accepts[k]?
  | .client pointer i =>
    (s.clients.find? fun client => client.pointer = pointer).bind fun client =>
      client.context.arrayIoContext[i]?

def taken (s : Server) (n : Nat) : Option (PIoContext × Completion) :=
  s.hIOCompletionPort.packets[n]?.bind fun packet =>
    (ioContext s packet.overlapped).map fun context =>
      (packet.overlapped, ⟨packet.result.bReturn, packet.result.dwErr,
        packet.result.dwBytesTransfered, packet.key, context.opType⟩)

def Disconnected (c : Completion) : Prop :=
  c.pSocketContext ≠ EXIT_CODE ∧ c.bReturn = true ∧ c.dwBytesTransfered = 0 ∧
    (c.opType = .postedRecv ∨ c.opType = .postedSend)

instance (c : Completion) : Decidable (Disconnected c) :=
  inferInstanceAs (Decidable (_ ∧ _ ∧ _ ∧ _))

def post (calls : Calls) (s : Server) : Server :=
  let posted := postAccept calls newIoContext
  if posted.1 then
    { s with
      accepts := s.accepts ++ [posted.2]
      hIOCompletionPort := s.hIOCompletionPort.start s.listenSocket (.accept s.accepts.length) }
  else s

/-- The send is posted for the first context of the new client and the receive, if WSARecv
    takes it, for the second; the accept is posted again if doAccpet says so. -/
def accept (k : Nat) (handling : Handling) (context : PerIoContext) (s : Server) : Server :=
  let accepted := doAccpet handling.calls handling.clientAddr context
  let socket := accepted.client.socket
  let port := if handling.wsaSend then
    s.hIOCompletionPort.start socket (.client handling.pNewSocketContext 0)
    else s.hIOCompletionPort
  let port := if handling.calls.wsaRecv then
    port.start socket (.client handling.pNewSocketContext 1)
    else port
  let port := if accepted.result then port.start s.listenSocket (.accept k) else port
  { s with
    accepts := s.accepts.set k accepted.context
    clients := s.clients ++ [⟨handling.pNewSocketContext, accepted.client⟩]
    hIOCompletionPort := port }

/-- The disconnect branch prints the address of the client and nothing else. -/
def turn (handling : Handling) (pIoContext : PIoContext) (c : Completion) (s : Server) : Server :=
  match loopBody c, pIoContext with
  | .doAccpet, .accept k =>
    match s.accepts[k]? with
    | some context => accept k handling context s
    | none => s
  | _, _ =>
    if Disconnected c then { s with disconnected := s.disconnected ++ [c.pSocketContext] } else s

/-- The listening socket is open and the contexts are allocated until Stop. -/
def FreshSocket (s : Server) (calls : Calls) : Prop := calls.wsaSocket ≠ s.listenSocket

def FreshContext (s : Server) (pointer : UInt32) : Prop :=
  pointer ≠ s.pListenContext ∧ pointer ∉ s.clients.map Client.pointer

instance (s : Server) (calls : Calls) : Decidable (FreshSocket s calls) :=
  inferInstanceAs (Decidable (_ ≠ _))

instance (s : Server) (pointer : UInt32) : Decidable (FreshContext s pointer) :=
  inferInstanceAs (Decidable (_ ∧ _))

def advance (s : Server) (event : Event) : Option Server :=
  if s.stopped then none
  else
    match event with
    | .post calls => if FreshSocket s calls then some (post calls s) else none
    | .complete n outcome =>
      (s.hIOCompletionPort.complete n outcome).map fun port => { s with hIOCompletionPort := port }
    | .dequeue n handling =>
      if FreshSocket s handling.calls ∧ FreshContext s handling.pNewSocketContext then
        (taken s n).map fun packet => turn handling packet.1 packet.2
          { s with hIOCompletionPort := s.hIOCompletionPort.dequeue n }
      else none
    | .stop =>
      some { s with
        accepts := []
        released := s.released ++ [s.pListenContext]
        stopped := true }

def step : StepRel Server Event := fun s event t => advance s event = some t

def initial (pListenContext : UInt32) (listenSocket : Socket) : Server where
  pListenContext
  listenSocket
  accepts := []
  clients := []
  hIOCompletionPort := ⟨[(listenSocket, pListenContext)], [], []⟩
  arrayClientContext := []
  disconnected := []
  released := []
  stopped := false

def Finished (s : Server) (client : Client) : Prop :=
  client.pointer ∈ s.disconnected ∨ s.stopped = true

/-- Until it is finished a client is recorded, with its socket associated under its own
    context, and from then on its context is released. -/
structure Tended (s : Server) : Prop where
  associated : s.stopped = false → ∀ client ∈ s.clients,
    (client.context.socket, client.pointer) ∈ s.hIOCompletionPort.associations
  recorded : ∀ client ∈ s.clients, ¬ Finished s client → client.pointer ∈ s.arrayClientContext
  released : ∀ client ∈ s.clients, Finished s client → client.pointer ∈ s.released

def Accepts (s : Server) : Event → Prop
  | .dequeue n _ => ∃ packet, taken s n = some packet ∧ loopBody packet.2 = .doAccpet
  | _ => False

instance (s : Server) (event : Event) : Decidable (Accepts s event) :=
  match event with
  | .post _ => .isFalse id
  | .complete _ _ => .isFalse id
  | .dequeue n _ =>
    match found : taken s n with
    | some packet => decidable_of_iff (loopBody packet.2 = .doAccpet) (by simp [Accepts, found])
    | none => .isFalse (by simp [Accepts, found])
  | .stop => .isFalse id

def Listening (pListenContext key : UInt32) (pIoContext : PIoContext) : Prop :=
  key = pListenContext ∧ ∃ k, pIoContext = .accept k

/-- What holds in every reachable state. Only the listening socket is associated, so no
    packet is ever about a client, and only the listen context is ever released. -/
structure Untended (s : Server) : Prop where
  associations : s.hIOCompletionPort.associations = [(s.listenSocket, s.pListenContext)]
  routed : s.hIOCompletionPort.Routed (Listening s.pListenContext)
  accepts : ∀ context ∈ s.accepts, Armed context ∧ context.sockAccept ≠ s.listenSocket
  clients : ∀ client ∈ s.clients, client.pointer ≠ s.pListenContext
  recorded : s.arrayClientContext = []
  disconnected : s.disconnected = []
  released : ∀ pointer ∈ s.released, pointer = s.pListenContext

theorem untended_unassociated {s : Server} (untended : Untended s) {client : Client}
    (member : client ∈ s.clients) :
    (client.context.socket, client.pointer) ∉ s.hIOCompletionPort.associations := by
  rw [untended.associations, List.mem_singleton]
  intro same
  exact untended.clients client member (congrArg Prod.snd same)

theorem tended_iff {s : Server} (untended : Untended s) : Tended s ↔ s.clients = [] := by
  constructor
  · intro tended
    apply List.eq_nil_iff_forall_not_mem.mpr
    intro client member
    cases stopped : s.stopped with
    | false =>
      exact untended_unassociated untended member (tended.associated stopped client member)
    | true =>
      have released := tended.released client member (.inr stopped)
      exact untended.clients client member (untended.released _ released)
  · intro none
    refine ⟨?_, ?_, ?_⟩ <;> simp [none]

theorem post_untended {s : Server} {calls : Calls} (fresh : FreshSocket s calls)
    (untended : Untended s) : Untended (post calls s) := by
  obtain ⟨associations, routed, accepts, clients, recorded, disconnected, released⟩ := untended
  by_cases none : calls.wsaSocket = INVALID_SOCKET
  · obtain ⟨context, refused, _⟩ := post_unopened none
    simp only [post, refused, Bool.false_eq_true, if_false]
    exact ⟨associations, routed, accepts, clients, recorded, disconnected, released⟩
  obtain ⟨context, posted, armed, socket⟩ := post_opened none
  cases accept : calls.acceptEx with
  | false =>
    simp only [post, posted, accept, Bool.false_eq_true, if_false]
    exact ⟨associations, routed, accepts, clients, recorded, disconnected, released⟩
  | true =>
    simp only [post, posted, accept, if_true]
    refine ⟨associations, Port.routed_start routed ?_, ?_, clients, recorded, disconnected,
      released⟩
    · intro key associated
      rw [associations, List.mem_singleton] at associated
      exact ⟨congrArg Prod.snd associated, _, rfl⟩
    · intro x member
      rcases List.mem_append.mp member with old | new
      · exact accepts x old
      · obtain rfl := List.mem_singleton.mp new
        exact ⟨armed, socket ▸ fresh⟩

theorem start_untended {port : Port Socket UInt32 PIoContext Outcome} {listenSocket : Socket}
    {pListenContext : UInt32} {socket : Socket}
    (associations : port.associations = [(listenSocket, pListenContext)])
    (routed : port.Routed (Listening pListenContext)) (other : socket ≠ listenSocket)
    (pIoContext : PIoContext) :
    (port.start socket pIoContext).Routed (Listening pListenContext) := by
  apply Port.routed_start routed
  intro key associated
  rw [associations, List.mem_singleton] at associated
  exact absurd (congrArg Prod.fst associated) other

theorem accept_untended {s : Server} {k : Nat} {handling : Handling} {context : PerIoContext}
    (found : s.accepts[k]? = some context) (fresh : FreshContext s handling.pNewSocketContext)
    (untended : Untended s) : Untended (accept k handling context s) := by
  obtain ⟨associations, routed, accepts, clients, recorded, disconnected, released⟩ := untended
  obtain ⟨armed, other⟩ := accepts context (List.mem_of_getElem? found)
  obtain ⟨refused, kept⟩ := @doAccpet_refused handling.calls handling.clientAddr context armed
  obtain ⟨same, socket, _⟩ := @doAccpet_shares handling.calls handling.clientAddr context armed
  refine ⟨?_, ?_, ?_, ?_, recorded, disconnected, released⟩
  · simp only [accept, refused, Bool.false_eq_true, if_false]
    cases handling.wsaSend <;> cases handling.calls.wsaRecv <;> exact associations
  · simp only [accept, refused, socket, Bool.false_eq_true, if_false]
    cases handling.wsaSend with
    | false =>
      cases handling.calls.wsaRecv with
      | false => exact routed
      | true => exact start_untended associations routed other _
    | true =>
      have sent := start_untended associations routed other
        (.client handling.pNewSocketContext 0)
      cases handling.calls.wsaRecv with
      | false => exact sent
      | true =>
        exact @start_untended (s.hIOCompletionPort.start _ _) _ _ _ associations sent other _
  · intro x member
    rcases List.mem_or_eq_of_mem_set member with old | rfl
    · exact accepts x old
    · exact ⟨kept, same ▸ other⟩
  · intro client member
    rcases List.mem_append.mp member with old | new
    · exact clients client old
    · obtain rfl := List.mem_singleton.mp new
      exact fresh.1

theorem taken_accept {s : Server} {n : Nat} {packet : PIoContext × Completion}
    (untended : Untended s) (found : taken s n = some packet) : ∃ k context,
      packet.1 = .accept k ∧ s.accepts[k]? = some context ∧ packet.2.opType = .postedAccept := by
  obtain ⟨queued, listed, read⟩ := Option.bind_eq_some_iff.mp found
  obtain ⟨context, stored, rfl⟩ := Option.map_eq_some_iff.mp read
  obtain ⟨_, k, place⟩ := untended.routed.queued queued (List.mem_of_getElem? listed)
  rw [place] at stored
  exact ⟨k, context, place, stored,
    (untended.accepts context (List.mem_of_getElem? stored)).1.2⟩

theorem turn_cases {s : Server} {handling : Handling} {k : Nat} {context : PerIoContext}
    {c : Completion} (found : s.accepts[k]? = some context) (opType : c.opType = .postedAccept) :
    (loopBody c = .doAccpet ∧ turn handling (.accept k) c s = accept k handling context s) ∨
    (loopBody c ≠ .doAccpet ∧ turn handling (.accept k) c s = s) := by
  by_cases accepts : loopBody c = .doAccpet
  · refine .inl ⟨accepts, ?_⟩
    simp [turn, accepts, found]
  · refine .inr ⟨accepts, ?_⟩
    have connected : ¬ Disconnected c := by simp [Disconnected, opType]
    cases body : loopBody c <;> simp [turn, body, connected] at accepts ⊢

theorem initial_untended (pListenContext : UInt32) (listenSocket : Socket) :
    Untended (initial pListenContext listenSocket) := by
  refine ⟨rfl, ⟨?_, ?_⟩, ?_, ?_, rfl, rfl, ?_⟩ <;> simp [initial]

theorem step_untended (s : Server) (event : Event) (t : Server) (run : step s event t)
    (untended : Untended s) : Untended t ∧
      (Accepts s event → t.clients ≠ []) ∧ (¬ Accepts s event → t.clients = s.clients) := by
  simp only [step, advance, Option.ite_none_left_eq_some] at run
  obtain ⟨_, run⟩ := run
  cases event with
  | post calls =>
    rw [Option.ite_none_right_eq_some] at run
    obtain rfl := Option.some.inj run.2
    refine ⟨post_untended run.1 untended, fun accepts => absurd accepts id, fun _ => ?_⟩
    simp only [post]
    split <;> rfl
  | complete n outcome =>
    obtain ⟨port, completed, rfl⟩ := Option.map_eq_some_iff.mp run
    obtain ⟨routed, same⟩ := Port.routed_complete untended.routed completed
    exact ⟨{ untended with associations := same.trans untended.associations, routed },
      fun accepts => absurd accepts id, fun _ => rfl⟩
  | dequeue n handling =>
    rw [Option.ite_none_right_eq_some] at run
    obtain ⟨⟨_, fresh⟩, run⟩ := run
    obtain ⟨⟨place, c⟩, found, rfl⟩ := Option.map_eq_some_iff.mp run
    obtain ⟨k, context, rfl, stored, opType⟩ := taken_accept untended found
    have rest : Untended { s with hIOCompletionPort := s.hIOCompletionPort.dequeue n } :=
      { untended with routed := Port.routed_dequeue n untended.routed }
    obtain ⟨accepts, goes⟩ | ⟨other, stays⟩ := @turn_cases
      { s with hIOCompletionPort := s.hIOCompletionPort.dequeue n } handling k context c stored
      opType
    · rw [goes]
      refine ⟨accept_untended stored fresh rest, fun _ => by simp [accept], fun refused => ?_⟩
      exact absurd ⟨_, found, accepts⟩ refused
    · rw [stays]
      refine ⟨rest, fun accepts => ?_, fun _ => rfl⟩
      obtain ⟨packet, same, body⟩ := accepts
      obtain rfl := Option.some.inj (found.symm.trans same)
      exact absurd body other
  | stop =>
    obtain rfl := Option.some.inj run
    refine ⟨⟨untended.associations, untended.routed, by simp, untended.clients,
      untended.recorded, untended.disconnected, ?_⟩, fun accepts => absurd accepts id,
      fun _ => rfl⟩
    intro pointer member
    rcases List.mem_append.mp member with old | new
    · exact untended.released pointer old
    · exact List.mem_singleton.mp new

theorem reaches_untended {pListenContext : UInt32} {listenSocket : Socket} {s : Server}
    (run : Reaches step (initial pListenContext listenSocket) s) : Untended s :=
  invariant_reaches (fun s event t taken held => (step_untended s event t taken held).1)
    (initial_untended pListenContext listenSocket) run

/-- The contexts of the clients are looked after throughout a run exactly when no worker
    goes to _DoAccpet in it. -/
theorem clients_tended_iff {pListenContext : UInt32} {listenSocket : Socket}
    {path : List (Event × Server)} (valid : Path step (initial pListenContext listenSocket) path) :
    (∀ s ∈ visited (initial pListenContext listenSocket) path, Tended s) ↔
      StepsMeet (fun s event => ¬ Accepts s event) (initial pListenContext listenSocket)
        path := by
  refine @visited_good_iff _ _ step _ (fun s => Untended s ∧ s.clients = []) _ ?_ ?_ ?_ _ _
    ⟨initial_untended pListenContext listenSocket, rfl⟩ valid
  · intro s held
    exact (tended_iff held.1).mpr held.2
  · intro s event t refused run held
    obtain ⟨untended, _, same⟩ := step_untended s event t run held.1
    exact ⟨untended, (same refused).trans held.2⟩
  · intro s event t accepts run held tended
    obtain ⟨untended, some, _⟩ := step_untended s event t run held.1
    exact some (not_not.mp accepts) ((tended_iff untended).mp tended)

def reliable (wsaSocket : Socket) : Calls := ⟨wsaSocket, true, true⟩

def firstHandling : Handling := ⟨reliable 104, ⟨16777343, 36895⟩, 4200, true⟩

def abortedAccept : List Event :=
  [.post (reliable 100), .complete 0 ⟨false, ERROR_NETNAME_DELETED, 0⟩, .dequeue 0 firstHandling,
    .stop]

theorem aborted_accept_tended : ∃ path, Path step (initial 4096 96) path ∧
    labels path = abortedAccept ∧ ∀ s ∈ visited (initial 4096 96) path, Tended s := by
  obtain ⟨path, checked, same, _⟩ := @path_follow _ _
    (fun s event => if ¬ Accepts s event then advance s event else none) (initial 4096 96) _
    abortedAccept rfl
  obtain ⟨valid, meets⟩ := @path_checked _ _ advance (fun s event => ¬ Accepts s event) _ _ _
    checked
  exact ⟨path, valid, same, (clients_tended_iff valid).mpr meets⟩

def oneClient : List Event :=
  [.post (reliable 100), .complete 0 ⟨true, 0, 0⟩, .dequeue 0 firstHandling]

theorem one_client_untended : ¬ ∀ pListenContext listenSocket s,
    Reaches step (initial pListenContext listenSocket) s → Tended s := by
  intro allTended
  have tended := allTended 4096 96 _ (@reaches_follow _ _ advance (initial 4096 96) _ oneClient rfl)
  exact absurd (tended.associated rfl _ List.mem_cons_self) (by decide)

end ClientContexts
