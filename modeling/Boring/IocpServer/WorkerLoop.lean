import Mathlib.Data.UInt

/- _WorkerThread of CIocpModel: one turn of its loop, from what
   GetQueuedCompletionStatus reports to the next test of the shutdown event. -/
namespace WorkerLoop

inductive OperationType where
  | postedAccept
  | postedSend
  | postedRecv
  | postedNull
  deriving DecidableEq, Repr

def EXIT_CODE : UInt32 := 0

def ERROR_INVALID_HANDLE : UInt32 := 6

def ERROR_NETNAME_DELETED : UInt32 := 64

def WAIT_TIMEOUT : UInt32 := 258

def ERROR_ABANDONED_WAIT_0 : UInt32 := 735

/-- The outcome of a call: its result, GetLastError, the bytes and the key it leaves in the
    thread's variables, and the type in the PER_IO_CONTEXT around pOverlaped. The last is
    read only behind the tests of the key and of the result. -/
structure Completion where
  bReturn : Bool
  dwErr : UInt32
  dwBytesTransfered : UInt32
  pSocketContext : UInt32
  opType : OperationType
  deriving DecidableEq, Repr

def exitPacket : Completion := ⟨true, 0, 0, EXIT_CODE, .postedNull⟩

/-- A call that dequeues no packet leaves the key of the call before it. -/
def failedCall (pSocketContext dwErr : UInt32) : Completion :=
  ⟨false, dwErr, 0, pSocketContext, .postedNull⟩

inductive Turn where
  | doAccpet
  | doRecv
  | doSend
  | again
  | leave
  deriving DecidableEq, Repr

def loopBody (c : Completion) : Turn :=
  if c.pSocketContext = EXIT_CODE then .leave
  else if c.bReturn = false then
    if WAIT_TIMEOUT ≠ c.dwErr ∧ ERROR_NETNAME_DELETED ≠ c.dwErr then .leave else .again
  else if c.dwBytesTransfered = 0 ∧ (c.opType = .postedRecv ∨ c.opType = .postedSend) then .again
  else
    match c.opType with
    | .postedAccept => .doAccpet
    | .postedRecv => .doRecv
    | .postedSend => .doSend
    | .postedNull => .again

def Fatal (c : Completion) : Prop :=
  c.bReturn = false ∧ c.dwErr ≠ WAIT_TIMEOUT ∧ c.dwErr ≠ ERROR_NETNAME_DELETED

instance (c : Completion) : Decidable (Fatal c) := inferInstanceAs (Decidable (_ ∧ _ ∧ _))

theorem leave_iff (c : Completion) :
    loopBody c = .leave ↔ c.pSocketContext = EXIT_CODE ∨ Fatal c := by
  unfold loopBody Fatal
  by_cases exit : c.pSocketContext = EXIT_CODE
  · simp [exit]
  rw [if_neg exit]
  by_cases failed : c.bReturn = false
  · rw [if_pos failed]
    by_cases fatal : WAIT_TIMEOUT ≠ c.dwErr ∧ ERROR_NETNAME_DELETED ≠ c.dwErr
    · simp [failed, fatal, fatal.1.symm, fatal.2.symm]
    · rw [if_neg fatal]
      simp only [reduceCtorEq, false_iff, not_or, not_and]
      exact ⟨exit, fun _ timeout deleted => fatal ⟨Ne.symm timeout, Ne.symm deleted⟩⟩
  · rw [if_neg failed]
    have stays : ¬ (c.pSocketContext = EXIT_CODE ∨ c.bReturn = false ∧
        c.dwErr ≠ WAIT_TIMEOUT ∧ c.dwErr ≠ ERROR_NETNAME_DELETED) := by
      rintro (key | fatal)
      · exact exit key
      · exact failed fatal.1
    simp only [stays, iff_false]
    split
    · simp
    · cases c.opType <;> simp

theorem accept_handled {c : Completion} (key : c.pSocketContext ≠ EXIT_CODE)
    (ok : c.bReturn = true) (accept : c.opType = .postedAccept) : loopBody c = .doAccpet := by
  unfold loopBody
  simp [key, ok, accept]

end WorkerLoop
