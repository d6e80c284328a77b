import Mathlib.Algebra.Order.Ring.Nat

/- The worker loops of CIocp and of net_wiocp_module before shutdown: what they make of
   each outcome of GetQueuedCompletionStatus, from the variables that a call leaves to the
   next one. Pointers, and keys, are words of any width. -/
namespace PacketDispatch

variable {bits : Nat}

/-- Completed I/O on a handle that was associated under `key`. Its OVERLAPPED is the first
    field of its record, so that CONTAINING_RECORD is the same address. -/
structure Packet (bits : Nat) where
  key : BitVec bits
  overlapped : BitVec bits
  bytes : UInt32
  ok : Bool
  nonNull : overlapped ≠ 0

/-- A call either dequeues a packet or fails without one. -/
inductive Outcome (bits : Nat) where
  | packet (p : Packet bits)
  | nothing

/-- The variables of a loop that GetQueuedCompletionStatus writes. -/
structure Vars (bits : Nat) where
  overlapped : BitVec bits
  bytes : UInt32
  key : BitVec bits

def Vars.initial : Vars bits := ⟨0, 0, 0⟩

inductive Turn (bits : Nat) where
  | callback (eo key : BitVec bits) (bytes : UInt32) (success : Bool)
  | leave
  | again
  deriving DecidableEq

def EXIT_CODE : BitVec bits := 0

def dword (key : BitVec bits) : BitVec 32 := key.setWidth 32

/-- A worker loop: the key that associating hands to the port, and one turn. -/
structure Loop (bits : Nat) where
  associate : BitVec bits → BitVec bits
  body : Vars bits → Bool → Turn bits

namespace CIocp

def associateWithIOCP (key : BitVec bits) : BitVec bits := key

def workerThread (v : Vars bits) (bReturn : Bool) : Turn bits :=
  if EXIT_CODE = dword v.key then .leave
  else .callback v.overlapped v.key v.bytes bReturn

def loop : Loop bits := ⟨associateWithIOCP, workerThread⟩

end CIocp

namespace NetWiocpModule

def associate (key : BitVec bits) : BitVec bits := (dword key).setWidth bits

/-- The callback takes its key as an io_uint32. -/
def loopBody (v : Vars bits) (ok : Bool) : Turn bits :=
  if v.key ≠ EXIT_CODE ∧ v.overlapped ≠ 0 then
    .callback v.overlapped ((dword v.key).setWidth bits) v.bytes ok
  else if v.overlapped = 0 then .leave
  else .again

def loop : Loop bits := ⟨associate, loopBody⟩

end NetWiocpModule

namespace Loop

/-- Without a packet only the OVERLAPPED is written, with NULL. -/
def getQueuedCompletionStatus (l : Loop bits) (v : Vars bits) : Outcome bits → Bool × Vars bits
  | .packet p => (p.ok, ⟨p.overlapped, p.bytes, l.associate p.key⟩)
  | .nothing => (false, { v with overlapped := 0 })

def run (l : Loop bits) : Vars bits → List (Outcome bits) → List (Outcome bits × Turn bits)
  | _, [] => []
  | v, outcome :: rest =>
    let (ok, v) := l.getQueuedCompletionStatus v outcome
    let turn := l.body v ok
    (outcome, turn) :: if turn = .leave then [] else l.run v rest

end Loop

/-- A packet is handed to the callback of its record, and the loop goes on; no packet, no
    callback. -/
def Dispatched : Outcome bits × Turn bits → Prop
  | (.packet p, turn) => turn = .callback p.overlapped p.key p.bytes p.ok
  | (.nothing, turn) => ∀ eo key bytes success, turn ≠ .callback eo key bytes success

def Dispatches (l : Loop bits) (outcomes : List (Outcome bits)) : Prop :=
  ∀ taken ∈ l.run Vars.initial outcomes, Dispatched taken

def firstPackets : List (Outcome bits) → List (Packet bits)
  | .packet p :: rest => p :: firstPackets rest
  | _ => []

section Runs

variable {l : Loop bits} {v : Vars bits} {rest : List (Outcome bits)}

def Loop.received (l : Loop bits) (p : Packet bits) : Vars bits :=
  ⟨p.overlapped, p.bytes, l.associate p.key⟩

theorem run_packet (p : Packet bits) :
    (∀ taken ∈ l.run v (.packet p :: rest), Dispatched taken) ↔
      l.body (l.received p) p.ok = .callback p.overlapped p.key p.bytes p.ok ∧
        ∀ taken ∈ l.run (l.received p) rest, Dispatched taken := by
  have turn : l.run v (.packet p :: rest) = (.packet p, l.body (l.received p) p.ok) ::
      if l.body (l.received p) p.ok = .leave then [] else l.run (l.received p) rest := rfl
  rw [turn, List.forall_mem_cons]
  apply and_congr_right
  intro served
  change l.body (l.received p) p.ok = _ at served
  rw [served, if_neg (by simp)]

theorem run_nothing :
    (∀ taken ∈ l.run v (.nothing :: rest), Dispatched taken) ↔
      (∀ eo key bytes success,
        l.body { v with overlapped := 0 } false ≠ .callback eo key bytes success) ∧
      (l.body { v with overlapped := 0 } false ≠ .leave →
        ∀ taken ∈ l.run { v with overlapped := 0 } rest, Dispatched taken) := by
  have turn : l.run v (.nothing :: rest) = (.nothing, l.body { v with overlapped := 0 } false) ::
      if l.body { v with overlapped := 0 } false = .leave then []
      else l.run { v with overlapped := 0 } rest := rfl
  rw [turn, List.forall_mem_cons]
  apply and_congr_right
  intro _
  split <;> simp_all

theorem iocp_serves (p : Packet bits) :
    CIocp.workerThread (CIocp.loop.received p) p.ok =
      .callback p.overlapped p.key p.bytes p.ok ↔ dword p.key ≠ 0 := by
  have body : CIocp.workerThread (CIocp.loop.received p) p.ok =
      if EXIT_CODE = dword p.key then .leave
      else .callback p.overlapped p.key p.bytes p.ok := rfl
  rw [body]
  by_cases exit : EXIT_CODE = dword p.key
  · rw [if_pos exit]
    simp [← exit, EXIT_CODE]
  · rw [if_neg exit]
    simpa [eq_comm, EXIT_CODE] using exit

theorem iocp_packet (p : Packet bits) (later : dword p.key ≠ 0 →
      ((∀ taken ∈ CIocp.loop.run (CIocp.loop.received p) rest, Dispatched taken) ↔
        ∀ outcome ∈ rest, ∃ q, outcome = .packet q ∧ dword q.key ≠ 0)) :
    (∀ taken ∈ CIocp.loop.run v (.packet p :: rest), Dispatched taken) ↔
      ∀ outcome ∈ .packet p :: rest, ∃ q, outcome = .packet q ∧ dword q.key ≠ 0 := by
  have here : (∃ q, Outcome.packet p = .packet q ∧ dword q.key ≠ 0) ↔ dword p.key ≠ 0 := by
    simp
  rw [run_packet, List.forall_mem_cons, here]
  exact and_congr (iocp_serves p) .rfl |>.trans (and_congr_right later)

theorem iocp_run (served : dword v.key ≠ 0) (outcomes : List (Outcome bits)) :
    (∀ taken ∈ CIocp.loop.run v outcomes, Dispatched taken) ↔
      ∀ outcome ∈ outcomes, ∃ p, outcome = .packet p ∧ dword p.key ≠ 0 := by
  induction outcomes generalizing v with
  | nil => simp [Loop.run]
  | cons outcome rest ih =>
    cases outcome with
    | packet p => exact iocp_packet p fun fits => ih fits
    | nothing =>
      have calls : CIocp.loop.body { v with overlapped := 0 } false =
          .callback 0 v.key v.bytes false := if_neg (Ne.symm served)
      constructor
      · intro all
        exact absurd calls ((run_nothing.mp all).1 0 v.key v.bytes false)
      · intro packets
        obtain ⟨p, same, _⟩ := packets .nothing (by simp)
        cases same

theorem iocp_starts (outcomes : List (Outcome bits)) :
    Dispatches CIocp.loop outcomes ↔ outcomes.head? = some .nothing ∨
      ∀ outcome ∈ outcomes, ∃ p, outcome = .packet p ∧ dword p.key ≠ 0 := by
  cases outcomes with
  | nil => simp [Dispatches, Loop.run]
  | cons outcome rest =>
    cases outcome with
    | packet p =>
      have first : (Outcome.packet p :: rest).head? ≠ some .nothing := by simp
      unfold Dispatches
      rw [or_iff_right first]
      exact iocp_packet p fun fits => iocp_run fits rest
    | nothing =>
      have leaves : CIocp.loop.body { Vars.initial with overlapped := (0 : BitVec bits) } false =
          .leave := if_pos (by simp [EXIT_CODE, dword, Vars.initial])
      unfold Dispatches
      rw [run_nothing, leaves]
      simp

theorem associate_toNat (key : BitVec bits) :
    (NetWiocpModule.associate key).toNat = key.toNat % 2 ^ 32 := by
  have fits : key.toNat % 2 ^ 32 < 2 ^ bits := Nat.lt_of_le_of_lt (Nat.mod_le ..) key.isLt
  rw [NetWiocpModule.associate, dword, BitVec.toNat_setWidth, BitVec.toNat_setWidth,
    Nat.mod_eq_of_lt fits]

theorem associate_twice (key : BitVec bits) :
    NetWiocpModule.associate (NetWiocpModule.associate key) = NetWiocpModule.associate key := by
  apply BitVec.eq_of_toNat_eq
  rw [associate_toNat, associate_toNat, Nat.mod_mod]

theorem associate_zero (key : BitVec bits) :
    NetWiocpModule.associate key = EXIT_CODE ↔ dword key = 0 := by
  have long : (NetWiocpModule.associate key).toNat = (dword key).toNat := by
    rw [associate_toNat, dword, BitVec.toNat_setWidth]
  constructor
  · intro exit
    apply BitVec.eq_of_toNat_eq
    rw [← long, exit]
    rfl
  · intro zero
    apply BitVec.eq_of_toNat_eq
    rw [long, zero]
    rfl

theorem associate_same (key : BitVec bits) :
    NetWiocpModule.associate key = key ↔ key.toNat < 2 ^ 32 := by
  constructor
  · intro same
    rw [← same, associate_toNat]
    exact Nat.mod_lt _ (by decide)
  · intro short
    apply BitVec.eq_of_toNat_eq
    rw [associate_toNat, Nat.mod_eq_of_lt short]

theorem wiocp_serves (p : Packet bits) :
    NetWiocpModule.loopBody (NetWiocpModule.loop.received p) p.ok =
      .callback p.overlapped p.key p.bytes p.ok ↔
        dword p.key ≠ 0 ∧ p.key.toNat < 2 ^ 32 := by
  have body : NetWiocpModule.loopBody (NetWiocpModule.loop.received p) p.ok =
      if NetWiocpModule.associate p.key ≠ EXIT_CODE ∧ p.overlapped ≠ 0 then
        .callback p.overlapped (NetWiocpModule.associate (NetWiocpModule.associate p.key))
          p.bytes p.ok
      else if p.overlapped = 0 then .leave else .again := rfl
  have marked : dword p.key ≠ 0 ↔ NetWiocpModule.associate p.key ≠ EXIT_CODE :=
    not_congr (associate_zero p.key).symm
  rw [body, associate_twice, ← associate_same, marked]
  by_cases exit : NetWiocpModule.associate p.key = EXIT_CODE
  · rw [if_neg fun both => both.1 exit, if_neg p.nonNull]
    simp [exit]
  · rw [if_pos ⟨exit, p.nonNull⟩]
    simp [exit]

theorem wiocp_run (v : Vars bits) (outcomes : List (Outcome bits)) :
    (∀ taken ∈ NetWiocpModule.loop.run v outcomes, Dispatched taken) ↔
      ∀ p ∈ firstPackets outcomes, dword p.key ≠ 0 ∧ p.key.toNat < 2 ^ 32 := by
  induction outcomes generalizing v with
  | nil => simp [Loop.run, firstPackets]
  | cons outcome rest ih =>
    cases outcome with
    | packet p =>
      rw [run_packet, firstPackets, List.forall_mem_cons]
      exact and_congr (wiocp_serves p) (ih _)
    | nothing =>
      have leaves : NetWiocpModule.loop.body { v with overlapped := 0 } false = .leave := by
        simp [NetWiocpModule.loop, NetWiocpModule.loopBody]
      rw [run_nothing, leaves]
      simp [firstPackets]

end Runs

/-- Both loops dispatch every packet exactly when no key has the exit mark for its low
    word, no key of net_wiocp_module is longer than a DWORD, and a worker of CIocp that
    has served a packet sees no call without one. -/
theorem packets_dispatched_iff (outcomes : List (Outcome bits)) :
    (Dispatches CIocp.loop outcomes ↔ outcomes.head? = some .nothing ∨
      ∀ outcome ∈ outcomes, ∃ p, outcome = .packet p ∧ dword p.key ≠ 0) ∧
    (Dispatches NetWiocpModule.loop outcomes ↔
      ∀ p ∈ firstPackets outcomes, dword p.key ≠ 0 ∧ p.key.toNat < 2 ^ 32) := by
  constructor
  · exact iocp_starts outcomes
  · exact wiocp_run Vars.initial outcomes

def keyless : Packet 32 := ⟨0, 64, 5, true, by decide⟩

/-- Such a packet makes a worker of CIocp leave, and net_wiocp_module drops it. -/
theorem key_zero_is_not_dispatched :
    (¬ ∀ outcomes : List (Outcome 32), Dispatches CIocp.loop outcomes) ∧
      ¬ ∀ outcomes : List (Outcome 32), Dispatches NetWiocpModule.loop outcomes := by
  constructor
  · intro all
    have served : Dispatched (.packet keyless, .leave) := all [.packet keyless] _ (by
      simp [Loop.run, CIocp.loop, CIocp.workerThread, Loop.getQueuedCompletionStatus,
        CIocp.associateWithIOCP, keyless, dword, EXIT_CODE])
    cases served
  · intro all
    have served : Dispatched (.packet keyless, .again) := all [.packet keyless] _ (by
      simp [Loop.run, NetWiocpModule.loop, NetWiocpModule.loopBody,
        Loop.getQueuedCompletionStatus, NetWiocpModule.associate, keyless, dword, EXIT_CODE])
    cases served

example : CIocp.loop.run Vars.initial [.packet ⟨7, 64, 5, false, by decide⟩, .nothing] =
    [(.packet ⟨7, 64, 5, false, by decide⟩, Turn.callback (64 : BitVec 32) 7 5 false),
      (.nothing, .callback 0 7 5 false)] := rfl

end PacketDispatch
