import Mathlib.Data.List.Perm.Basic
import Boring.IocpServer.IoContexts
import Boring.Library.HandleTables
import Boring.Library.StepRuns

/- Who closes the sockets of CIocpModel: the destructors of its contexts, over a run of
   posted and handled accepts, removed contexts and the release of the listen context. -/
namespace SocketOwners
open StepRuns HandleTables IoContexts

/-- A context of the listen context, and whether its last accept has been handled. -/
structure Accepting where
  context : PerIoContext
  handled : Bool
  deriving DecidableEq, Repr

/-- `listening` is the socket of the listen context until that is released. No code deletes
    one of the `clients`. -/
structure Server where
  listening : Option Socket
  accepts : List Accepting
  clients : List PerSocketContext
  sockets : Table Socket
  deriving DecidableEq, Repr

/-- WSASocket returns INVALID_SOCKET or a handle that is not open. -/
def Fresh (s : Server) (calls : Calls) : Prop :=
  calls.wsaSocket = INVALID_SOCKET ∨ calls.wsaSocket ∉ s.sockets.opened

instance (s : Server) (calls : Calls) : Decidable (Fresh s calls) :=
  inferInstanceAs (Decidable (_ ∨ _))

def destroyIoContext (sockets : Table Socket) (context : PerIoContext) : Table Socket :=
  Table.closeValid INVALID_SOCKET sockets context.sockAccept

/-- ~_PER_SOCKET_CONTEXT, which deletes its contexts after its own socket. -/
def destroySocketContext (sockets : Table Socket) (client : PerSocketContext) : Table Socket :=
  client.arrayIoContext.foldl destroyIoContext
    (Table.closeValid INVALID_SOCKET sockets client.socket)

def postAcceptSockets (calls : Calls) (context : PerIoContext) (sockets : Table Socket) :
    Table Socket :=
  if context.sockAccept ≠ INVALID_SOCKET ∨ calls.wsaSocket = INVALID_SOCKET then sockets
  else sockets.give calls.wsaSocket

/-- What doAccpet opens and closes. The context it removes after a failed WSARecv has the
    socket of the accept. -/
def doAccpetSockets (calls : Calls) (context : PerIoContext) (sockets : Table Socket) :
    Table Socket :=
  if calls.wsaRecv = false then
    destroyIoContext sockets { newIoContext with
      opType := .postedRecv
      sockAccept := context.sockAccept }
  else postAcceptSockets calls (resetBuffer context) sockets

inductive Event where
  | post (calls : Calls)
  | handle (k : Nat) (calls : Calls) (clientAddr : SockaddrIn)
  | removeAccept (k : Nat)
  | removeClient (j i : Nat)
  | teardown

/-- One turn of the loop in _InitializeListenSocket: a context whose accept cannot be posted
    is removed again. -/
def post (calls : Calls) (s : Server) : Server :=
  let posted := postAccept calls newIoContext
  let sockets := postAcceptSockets calls newIoContext s.sockets
  if posted.1 then { s with accepts := s.accepts ++ [⟨posted.2, false⟩], sockets }
  else { s with sockets := destroyIoContext sockets posted.2 }

def handle (k : Nat) (calls : Calls) (clientAddr : SockaddrIn) (context : PerIoContext)
    (s : Server) : Server :=
  let accepted := doAccpet calls clientAddr context
  { s with accepts := s.accepts.set k ⟨accepted.context, !accepted.result⟩,
           clients := s.clients ++ [accepted.client],
           sockets := doAccpetSockets calls context s.sockets }

def listenContext (socket : Socket) (s : Server) : PerSocketContext :=
  { newSocketContext with socket, arrayIoContext := s.accepts.map Accepting.context }

def removeAccept (k : Nat) (context : PerIoContext) (s : Server) : Server :=
  { s with accepts := s.accepts.eraseIdx k, sockets := destroyIoContext s.sockets context }

def removeClient (j i : Nat) (client : PerSocketContext) (context : PerIoContext) (s : Server) :
    Server :=
  { s with clients := s.clients.set j (removeContext client i),
           sockets := destroyIoContext s.sockets context }

def teardown (socket : Socket) (s : Server) : Server :=
  { s with listening := none, accepts := [],
           sockets := destroySocketContext s.sockets (listenContext socket s) }

def advance (s : Server) : Event → Option Server
  | .post calls => if s.listening.isSome ∧ Fresh s calls then some (post calls s) else none
  | .handle k calls clientAddr =>
    match s.accepts[k]? with
    | some accept =>
      if accept.handled = false ∧ Fresh s calls then
        some (handle k calls clientAddr accept.context s)
      else none
    | none => none
  | .removeAccept k => s.accepts[k]?.map fun accept => removeAccept k accept.context s
  | .removeClient j i => s.clients[j]?.bind fun client =>
      client.arrayIoContext[i]?.map fun context => removeClient j i client context s
  | .teardown => s.listening.map fun socket => teardown socket s

def step : StepRel Server Event := fun s event t => advance s event = some t

def initial (listening : Socket) : Server := ⟨some listening, [], [], ⟨[listening], []⟩⟩

def Holds (s : Server) (h : Socket) : Prop :=
  s.listening = some h ∨ (∃ accept ∈ s.accepts, accept.context.sockAccept = h) ∨
    ∃ client ∈ s.clients, client.socket = h ∨ ∃ context ∈ client.arrayIoContext,
      context.sockAccept = h

def accepted (s : Server) : List Socket := s.clients.map PerSocketContext.socket

/-- An accepted socket is closed once at most, and then no other context has its handle. -/
structure SingleOwner (s : Server) : Prop where
  once : ∀ h ∈ accepted s, s.sockets.closes.count h ≤ 1
  unheld : ∀ h ∈ accepted s, h ∈ s.sockets.closes → ¬ Holds s h

/-- No WSARecv of _DoAccpet fails, and no destructor runs on a context that has the socket of
    a handled accept. -/
def Allowed (s : Server) : Event → Prop
  | .post _ => True
  | .handle _ calls _ => calls.wsaRecv = true
  | .removeAccept k => ∀ accept, s.accepts[k]? = some accept → accept.handled = false
  | .removeClient _ _ => False
  | .teardown => ∀ accept ∈ s.accepts, accept.handled = false

instance (s : Server) (event : Event) : Decidable (Allowed s event) :=
  match event with
  | .post _ => .isTrue trivial
  | .handle _ calls _ => inferInstanceAs (Decidable (calls.wsaRecv = true))
  | .removeAccept k =>
    match found : s.accepts[k]? with
    | some accept => decidable_of_iff (accept.handled = false) (by simp [Allowed, found])
    | none => .isTrue (by simp [Allowed, found])
  | .removeClient _ _ => .isFalse id
  | .teardown => inferInstanceAs (Decidable (∀ accept ∈ s.accepts, accept.handled = false))

def waiting (accepts : List Accepting) : List Socket :=
  (accepts.filter fun accept => !accept.handled).map fun accept => accept.context.sockAccept

def owners (s : Server) : List Socket := s.listening.toList ++ (waiting s.accepts ++ accepted s)

/-- A handled accept and every context of a client have the handle of that client, and every
    other open handle is in one context. -/
structure Owned (s : Server) : Prop where
  sole : s.sockets.Sole (owners s)
  armed : ∀ accept ∈ s.accepts, Armed accept.context
  taken : ∀ accept ∈ s.accepts, accept.handled = true → accept.context.sockAccept ∈ accepted s
  shared : ∀ client ∈ s.clients, ∀ context ∈ client.arrayIoContext,
    context.sockAccept = client.socket
  valid : ∀ h ∈ accepted s, h ≠ INVALID_SOCKET

theorem owned_single {s : Server} (owned : Owned s) : SingleOwner s := by
  have unclosed : ∀ h ∈ accepted s, h ∉ s.sockets.closes := by
    intro h member
    apply Table.sole_unclosed owned.sole
    exact List.mem_append_right _ (List.mem_append_right _ member)
  refine ⟨fun h member => ?_, fun h member closed => absurd closed (unclosed h member)⟩
  rw [List.count_eq_zero_of_not_mem (unclosed h member)]
  exact Nat.zero_le 1

theorem closed_not_single {s : Server} {h : Socket} (member : h ∈ accepted s)
    (closed : h ∈ s.sockets.closes) : ¬ SingleOwner s := by
  intro single
  obtain ⟨client, listed, same⟩ := List.mem_map.mp member
  exact single.unheld h member closed (.inr (.inr ⟨client, listed, .inl same⟩))

theorem destroy_ios {sockets : Table Socket} (contexts : List PerIoContext) :
    contexts.foldl destroyIoContext sockets =
      Table.closeAll INVALID_SOCKET sockets (contexts.map PerIoContext.sockAccept) := by
  rw [Table.closeAll, List.foldl_map]
  rfl

theorem destroy_closes {sockets : Table Socket} (client : PerSocketContext) :
    destroySocketContext sockets client = Table.closeAll INVALID_SOCKET sockets
      (client.socket :: client.arrayIoContext.map PerIoContext.sockAccept) := by
  rw [destroySocketContext, destroy_ios]
  rfl

theorem waiting_append (before after : List Accepting) :
    waiting (before ++ after) = waiting before ++ waiting after := by
  simp [waiting]

theorem waiting_cons (accept : Accepting) (rest : List Accepting) :
    waiting (accept :: rest) =
      if accept.handled then waiting rest
      else accept.context.sockAccept :: waiting rest := by
  cases handled : accept.handled <;> simp [waiting, handled]

theorem list_around {α : Type} {xs : List α} {k : Nat} {x : α} (found : xs[k]? = some x) :
    ∃ before after, xs = before ++ x :: after ∧ (∀ new, xs.set k new = before ++ new :: after) ∧
      xs.eraseIdx k = before ++ after := by
  obtain ⟨inside, rfl⟩ := List.getElem?_eq_some_iff.mp found
  refine ⟨xs.take k, xs.drop (k + 1), by simp, ?_, ?_⟩
  · intro new
    rw [List.set_eq_take_append_cons_drop, if_pos inside]
  · rw [List.eraseIdx_eq_take_drop_succ]

theorem step_cases {s t : Server} {event : Event} (run : step s event t) :
    (∃ calls, event = .post calls ∧ Fresh s calls ∧ t = post calls s) ∨
    (∃ k calls clientAddr accept, event = .handle k calls clientAddr ∧
      s.accepts[k]? = some accept ∧ accept.handled = false ∧
      t = handle k calls clientAddr accept.context s) ∨
    (∃ k accept, event = .removeAccept k ∧ s.accepts[k]? = some accept ∧
      t = removeAccept k accept.context s) ∨
    (∃ j i client context, event = .removeClient j i ∧ s.clients[j]? = some client ∧
      client.arrayIoContext[i]? = some context ∧ t = removeClient j i client context s) ∨
    ∃ socket, event = .teardown ∧ s.listening = some socket ∧ t = teardown socket s := by
  cases event with
  | post calls =>
    simp only [step, advance, Option.ite_none_right_eq_some] at run
    obtain ⟨⟨_, fresh⟩, posted⟩ := run
    exact .inl ⟨calls, rfl, fresh, (Option.some.inj posted).symm⟩
  | handle k calls clientAddr =>
    cases found : s.accepts[k]? with
    | none => simp [step, advance, found] at run
    | some accept =>
      simp only [step, advance, found, Option.ite_none_right_eq_some] at run
      obtain ⟨⟨unhandled, _⟩, handled⟩ := run
      exact .inr (.inl ⟨k, calls, clientAddr, accept, rfl, found, unhandled,
        (Option.some.inj handled).symm⟩)
  | removeAccept k =>
    obtain ⟨accept, found, rfl⟩ := Option.map_eq_some_iff.mp run
    exact .inr (.inr (.inl ⟨k, accept, rfl, found, rfl⟩))
  | removeClient j i =>
    obtain ⟨client, listed, removed⟩ := Option.bind_eq_some_iff.mp run
    obtain ⟨context, found, rfl⟩ := Option.map_eq_some_iff.mp removed
    exact .inr (.inr (.inr (.inl ⟨j, i, client, context, rfl, listed, found, rfl⟩)))
  | teardown =>
    obtain ⟨socket, listens, rfl⟩ := Option.map_eq_some_iff.mp run
    exact .inr (.inr (.inr (.inr ⟨socket, rfl, listens, rfl⟩)))

theorem owners_around {s : Server} {before after : List Accepting} {accept : Accepting}
    (around : s.accepts = before ++ accept :: after) (waits : accept.handled = false) :
    (owners s).Perm (accept.context.sockAccept ::
      (s.listening.toList ++ (waiting (before ++ after) ++ accepted s))) := by
  have middle := @List.perm_middle _ accept.context.sockAccept
    (s.listening.toList ++ waiting before) (waiting after ++ accepted s)
  simpa [owners, around, waiting_append, waiting_cons, waits] using middle

theorem post_cases (calls : Calls) (s : Server) :
    (calls.wsaSocket = INVALID_SOCKET ∧ post calls s = s) ∨
    (calls.wsaSocket ≠ INVALID_SOCKET ∧ ∃ context, Armed context ∧
      context.sockAccept = calls.wsaSocket ∧ post calls s = { s with
        accepts := s.accepts ++ [⟨context, false⟩]
        sockets := s.sockets.give calls.wsaSocket }) ∨
    (calls.wsaSocket ≠ INVALID_SOCKET ∧ post calls s = { s with
      sockets := (s.sockets.give calls.wsaSocket).close calls.wsaSocket }) := by
  by_cases none : calls.wsaSocket = INVALID_SOCKET
  · obtain ⟨context, posted, socket⟩ := post_unopened none
    refine .inl ⟨none, ?_⟩
    simp [post, posted, postAcceptSockets, destroyIoContext, Table.closeValid, socket, none]
  · obtain ⟨context, posted, armed, socket⟩ := post_opened none
    have opens : postAcceptSockets calls newIoContext s.sockets =
        s.sockets.give calls.wsaSocket := by
      simp [postAcceptSockets, newIoContext, none]
    cases accept : calls.acceptEx with
    | true =>
      refine .inr (.inl ⟨none, context, armed, socket, ?_⟩)
      simp only [post, posted, opens, accept, if_true]
    | false =>
      refine .inr (.inr ⟨none, ?_⟩)
      simp [post, posted, opens, accept, socket, destroyIoContext, Table.closeValid, none]

theorem post_owned {calls : Calls} {s : Server} (fresh : Fresh s calls) (owned : Owned s) :
    Owned (post calls s) := by
  obtain ⟨sole, armed, taken, shared, valid⟩ := owned
  obtain ⟨_, same⟩ | ⟨opens, context, arms, socket, posted⟩ | ⟨opens, refused⟩ :=
    post_cases calls s
  · rw [same]
    exact ⟨sole, armed, taken, shared, valid⟩
  · have given := Table.sole_give sole (fresh.resolve_left opens)
    rw [posted]
    refine ⟨Table.sole_perm given ?_, ?_, ?_, shared, valid⟩
    · have split : waiting (s.accepts ++ [⟨context, false⟩]) =
          waiting s.accepts ++ [calls.wsaSocket] := by
        rw [waiting_append]
        simp [waiting, socket]
      simp only [owners, split, accepted, List.append_assoc, List.singleton_append]
      rw [← List.append_assoc, ← List.append_assoc]
      exact List.perm_middle
    · intro accept member
      rcases List.mem_append.mp member with old | new
      · exact armed accept old
      · exact List.mem_singleton.mp new ▸ arms
    · intro accept member handled
      rcases List.mem_append.mp member with old | new
      · exact taken accept old handled
      · obtain rfl := List.mem_singleton.mp new
        cases handled
  · have given := Table.sole_give sole (fresh.resolve_left opens)
    rw [refused]
    exact ⟨Table.sole_close given, armed, taken, shared, valid⟩

theorem handle_effect {k : Nat} {calls : Calls} {clientAddr : SockaddrIn}
    {context : PerIoContext} {s : Server} (armed : Armed context) (ok : calls.wsaRecv = true) :
    handle k calls clientAddr context s = { s with
      accepts := s.accepts.set k ⟨(doAccpet calls clientAddr context).context, true⟩
      clients := s.clients ++ [(doAccpet calls clientAddr context).client] } := by
  have refused := (@doAccpet_refused calls clientAddr context armed).1
  have socket : (resetBuffer context).sockAccept ≠ INVALID_SOCKET := armed.1
  simp [handle, refused, doAccpetSockets, postAcceptSockets, ok, socket]

theorem handle_owned {s : Server} {k : Nat} {accept : Accepting} {calls : Calls}
    {clientAddr : SockaddrIn} (found : s.accepts[k]? = some accept)
    (unhandled : accept.handled = false) (ok : calls.wsaRecv = true) (owned : Owned s) :
    Owned (handle k calls clientAddr accept.context s) := by
  obtain ⟨sole, armed, taken, shared, valid⟩ := owned
  have arms := armed accept (List.mem_of_getElem? found)
  have kept := (@doAccpet_refused calls clientAddr accept.context arms).2
  obtain ⟨same, socket, contexts⟩ := @doAccpet_shares calls clientAddr accept.context arms
  obtain ⟨before, after, around, set, _⟩ := list_around found
  rw [handle_effect arms ok]
  refine ⟨Table.sole_perm sole ?_, ?_, ?_, ?_, ?_⟩
  · refine List.Perm.trans ?_ (owners_around around unhandled).symm
    have last := List.perm_append_singleton accept.context.sockAccept
      (s.listening.toList ++ (waiting (before ++ after) ++ accepted s))
    simpa [owners, set, accepted, waiting_append, waiting_cons, socket] using last
  · intro x member
    rcases List.mem_or_eq_of_mem_set member with old | rfl
    · exact armed x old
    · exact kept
  · intro x member handled
    rw [accepted, List.map_append, List.mem_append]
    rcases List.mem_or_eq_of_mem_set member with old | rfl
    · exact .inl (taken x old handled)
    · exact .inr (by simp [same, socket])
  · intro x member
    rcases List.mem_append.mp member with old | new
    · exact shared x old
    · obtain rfl := List.mem_singleton.mp new
      rw [socket]
      exact contexts
  · intro h member
    rw [accepted, List.map_append, List.mem_append] at member
    rcases member with old | new
    · exact valid h old
    · have same : h = accept.context.sockAccept := by simpa [socket] using new
      exact same ▸ arms.1

theorem removeAccept_owned {s : Server} {k : Nat} {accept : Accepting}
    (found : s.accepts[k]? = some accept) (waits : accept.handled = false) (owned : Owned s) :
    Owned (removeAccept k accept.context s) := by
  obtain ⟨sole, armed, taken, shared, valid⟩ := owned
  obtain ⟨before, after, around, _, erased⟩ := list_around found
  have inside : ∀ x ∈ s.accepts.eraseIdx k, x ∈ s.accepts :=
    fun x member => List.mem_of_mem_eraseIdx member
  refine ⟨Table.sole_closeValid (Table.sole_perm sole ?_), ?_, ?_, shared, valid⟩
  · rw [owners, removeAccept, erased]
    exact (owners_around around waits).symm
  · intro x member
    exact armed x (inside x member)
  · intro x member
    exact taken x (inside x member)

theorem teardown_owned {s : Server} {socket : Socket} (listens : s.listening = some socket)
    (waits : ∀ accept ∈ s.accepts, accept.handled = false) (owned : Owned s) :
    Owned (teardown socket s) := by
  obtain ⟨sole, _, _, shared, valid⟩ := owned
  have all : waiting s.accepts = s.accepts.map fun accept => accept.context.sockAccept := by
    rw [waiting, List.filter_eq_self.mpr]
    intro accept member
    simp [waits accept member]
  refine ⟨?_, by simp [teardown], by simp [teardown], shared, valid⟩
  simp only [owners, listens, all] at sole
  rw [teardown, destroy_closes]
  apply Table.sole_closeAll
  simpa [owners, waiting, listenContext, accepted, Function.comp_def] using sole

theorem step_owned (s : Server) (event : Event) (t : Server) (allowed : Allowed s event)
    (run : step s event t) (owned : Owned s) : Owned t := by
  obtain ⟨calls, rfl, fresh, rfl⟩ | ⟨k, calls, clientAddr, accept, rfl, found, unhandled, rfl⟩ |
    ⟨k, accept, rfl, found, rfl⟩ | ⟨j, i, client, context, rfl, _⟩ |
    ⟨socket, rfl, listens, rfl⟩ := step_cases run
  · exact post_owned fresh owned
  · exact handle_owned found unhandled allowed owned
  · exact removeAccept_owned found (allowed accept found) owned
  · exact absurd allowed id
  · exact teardown_owned listens allowed owned

theorem failed_receive_breaks {s : Server} {k : Nat} {calls : Calls} {clientAddr : SockaddrIn}
    {context : PerIoContext} (armed : Armed context) (fails : calls.wsaRecv = false) :
    ¬ SingleOwner (handle k calls clientAddr context s) := by
  refine @closed_not_single _ context.sockAccept ?_ ?_
  · simp [handle, accepted, doAccpet, postRecv, fails, removeContext, addContext]
  · simp only [handle, doAccpetSockets, fails, if_true, destroyIoContext]
    exact Table.mem_closeValid.mpr (.inr ⟨armed.1, rfl⟩)

theorem removeClient_breaks {s : Server} {j i : Nat} {client : PerSocketContext}
    {context : PerIoContext} (listed : s.clients[j]? = some client)
    (shared : context.sockAccept = client.socket) (valid : client.socket ≠ INVALID_SOCKET) :
    ¬ SingleOwner (removeClient j i client context s) := by
  refine @closed_not_single _ client.socket ?_ ?_
  · obtain ⟨before, after, _, set, _⟩ := list_around listed
    simp [accepted, removeClient, set, removeContext]
  · exact Table.mem_closeValid.mpr (.inr ⟨valid, shared.symm⟩)

theorem refused_breaks (s : Server) (event : Event) (t : Server) (refused : ¬ Allowed s event)
    (run : step s event t) (owned : Owned s) : ¬ SingleOwner t := by
  obtain ⟨_, armed, taken, shared, valid⟩ := owned
  obtain ⟨calls, rfl, _⟩ | ⟨k, calls, clientAddr, accept, rfl, found, _, rfl⟩ |
    ⟨k, accept, rfl, found, rfl⟩ | ⟨j, i, client, context, rfl, listed, found, rfl⟩ |
    ⟨socket, rfl, listens, rfl⟩ := step_cases run
  · exact absurd trivial refused
  · have fails : calls.wsaRecv = false := by simpa [Allowed] using refused
    exact failed_receive_breaks (armed accept (List.mem_of_getElem? found)) fails
  · have member := List.mem_of_getElem? found
    have handled : accept.handled = true := by simpa [Allowed, found] using refused
    refine closed_not_single (taken accept member handled) ?_
    exact Table.mem_closeValid.mpr (.inr ⟨(armed accept member).1, rfl⟩)
  · have member := List.mem_of_getElem? listed
    have same := shared client member context (List.mem_of_getElem? found)
    exact removeClient_breaks listed same (valid _ (List.mem_map_of_mem member))
  · have behind : ∃ accept ∈ s.accepts, accept.handled = true := by
      simpa [Allowed] using refused
    obtain ⟨accept, member, handled⟩ := behind
    refine closed_not_single (taken accept member handled) ?_
    rw [teardown, destroy_closes]
    refine Table.mem_closeAll.mpr (.inr ⟨(armed accept member).1, ?_⟩)
    apply List.mem_cons_of_mem _
    rw [listenContext, List.map_map]
    exact List.mem_map_of_mem member

theorem initial_owned (listening : Socket) : Owned (initial listening) := by
  refine ⟨⟨?_, ?_, ?_⟩, ?_, ?_, ?_, ?_⟩ <;> simp [initial, owners, waiting, accepted]

/-- Accepted sockets have a single owner throughout a run exactly when no WSARecv of
    _DoAccpet fails, no context of a client and no handled accept is removed, and the listen
    context is not deleted behind a handled accept. -/
theorem single_owner_iff {listening : Socket} {path : List (Event × Server)}
    (valid : Path step (initial listening) path) :
    (∀ s ∈ visited (initial listening) path, SingleOwner s) ↔
      StepsMeet Allowed (initial listening) path :=
  visited_good_iff (fun _ => owned_single) step_owned refused_breaks (initial_owned listening)
    valid

def reliable (wsaSocket : Socket) : Calls := ⟨wsaSocket, true, true⟩

def firstClient : SockaddrIn := ⟨16777343, 36895⟩

def keptOpen : List Event :=
  [.post (reliable 100), .post (reliable 104), .handle 0 (reliable 108) firstClient,
    .removeAccept 1]

theorem kept_open_single : ∃ path, Path step (initial 96) path ∧ labels path = keptOpen ∧
    ∀ s ∈ visited (initial 96) path, SingleOwner s := by
  obtain ⟨path, checked, same, _⟩ := @path_follow _ _
    (fun s event => if Allowed s event then advance s event else none) (initial 96) _ keptOpen rfl
  obtain ⟨valid, meets⟩ := @path_checked _ _ advance Allowed _ _ _ checked
  exact ⟨path, valid, same, (single_owner_iff valid).mpr meets⟩

def receiveFails : List Event :=
  [.post (reliable 100), .handle 0 ⟨108, true, false⟩ firstClient, .teardown]

theorem failed_receive_closes_twice : ¬ ∀ listening path, Path step (initial listening) path →
    ∀ s ∈ visited (initial listening) path, SingleOwner s := by
  intro oneOwner
  obtain ⟨path, valid, _, ends⟩ := @path_follow _ _ advance (initial 96) _ receiveFails rfl
  have single := oneOwner 96 path valid _ (last_visited (initial 96) path)
  rw [ends] at single
  exact absurd (single.once 100 (by decide)) (by decide)

end SocketOwners
