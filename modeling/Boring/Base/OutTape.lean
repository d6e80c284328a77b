import Boring.Base.StreamRoundTrip
import Boring.Library.StepRuns

/- COutStream as a tape of bytes: what a run of calls leaves in the buffer, and which
   calls keep every write inside it. -/
namespace OutTape
open StringUtil ByteOrder Bindings RandomTape StepRuns Streams StreamRoundTrip

inductive Call where
  | write (item : Item)
  | skip (len : Nat)
  | clear
  | reposition (pos : Nat)
  deriving DecidableEq

def perform (m : Machine) (out : COutStream) : Call → Except Trap COutStream
  | .write item => put m out item
  | .skip len => .ok (out.skip m len)
  | .clear => .ok out.clear
  | .reposition pos => .ok (out.reposition pos)

def Call.bytes : Call → List UInt8
  | .write item => wire item.sent
  | _ => []

/-- The specification: a cursor, a size that only Clear reduces, and every byte written
    since construction or the last Clear, with its position. -/
structure Tape where
  cursor : Nat
  size : Nat
  journal : List (Nat × UInt8)

def Tape.start : Tape := ⟨0, COutStream.sInitalSize, []⟩

def Tape.next (t : Tape) : Call → Tape
  | .write item =>
    let till := t.cursor + (wire item.sent).length
    ⟨till, max t.size till, t.journal ++ placed t.cursor (wire item.sent)⟩
  | .skip len => { t with cursor := t.cursor + len, size := max t.size (t.cursor + len) }
  | .clear => ⟨0, 0, []⟩
  | .reposition pos => { t with cursor := pos }

def Tape.lastWritten (t : Tape) : Lookup Nat UInt8 := replay unbound (assignments t.journal)

/-- No position of the call wraps, and Reposition stays in the buffer. -/
def InRange (m : Machine) (out : COutStream) : Call → Prop
  | .write item => out.currIndex + (wire item.sent).length < sizeCount m.toHost
  | .skip len => out.currIndex + len < sizeCount m.toHost
  | .clear => True
  | .reposition pos => pos ≤ out.buffer.length

instance (m : Machine) (out : COutStream) : (call : Call) → Decidable (InRange m out call)
  | .write _ => inferInstanceAs (Decidable (_ < _))
  | .skip _ => inferInstanceAs (Decidable (_ < _))
  | .clear => .isTrue trivial
  | .reposition _ => inferInstanceAs (Decidable (_ ≤ _))

def Performs (m : Machine) : StepRel COutStream Call := fun out call next =>
  InRange m out call ∧ perform m out call = .ok next

structure Shows (m : Machine) (out : COutStream) (t : Tape) : Prop where
  cursor : out.currIndex = t.cursor
  size : out.buffer.length = t.size
  inside : t.cursor ≤ t.size
  sized : t.size < sizeCount m.toHost
  cells : Records 0 out.buffer t.lastWritten

structure Keeps (out : COutStream) (call : Call) (next : COutStream) : Prop where
  size : out.buffer.length ≤ next.buffer.length
  others : ∀ i < out.buffer.length, i < out.currIndex ∨ out.currIndex + call.bytes.length ≤ i →
    next.buffer[i]? = out.buffer[i]?

theorem new_shows (m : Machine) : Shows m COutStream.new Tape.start := by
  have sized := (new_holds m).sized
  have length : COutStream.new.buffer.length = COutStream.sInitalSize := List.length_replicate
  rw [length] at sized
  exact ⟨rfl, length, Nat.zero_le _, sized, records_blanks 0 COutStream.sInitalSize⟩

theorem lastWritten_append (cursor size : Nat) (journal added : List (Nat × UInt8)) :
    (Tape.mk cursor size (journal ++ added)).lastWritten =
      replay (replay unbound (assignments journal)) (assignments added) := by
  rw [Tape.lastWritten, assignments, List.map_append, replay_append]
  rfl

theorem perform_shows {m : Machine} {out : COutStream} {t : Tape} {call : Call}
    (now : Shows m out t) (range : InRange m out call) :
    ∃ next, perform m out call = .ok next ∧ Shows m next (t.next call) := by
  obtain ⟨cursor, size, inside, sized, cells⟩ := now
  have within : out.currIndex ≤ out.buffer.length := by omega
  have small : out.buffer.length < sizeCount m.toHost := by omega
  cases call with
  | write item =>
    have room : out.currIndex + (wire item.sent).length < sizeCount m.toHost := range
    refine ⟨_, put_inside within small room, ?_, ?_, ?_, ?_, ?_⟩
    · simp only [Tape.next, cursor]
    · simp only [Tape.next, overwrite_length within, ← cursor, size]
    · simp only [Tape.next]
      omega
    · simp only [Tape.next]
      omega
    · rw [Tape.next, lastWritten_append, ← cursor]
      exact records_overwrite cells within
  | skip len =>
    have room : out.currIndex + len < sizeCount m.toHost := range
    rw [perform, skip_inside within small room]
    refine ⟨_, rfl, ?_, ?_, ?_, ?_, ?_⟩
    · simp only [Tape.next, cursor]
    · simp only [Tape.next, grow_length, cursor, size]
    · simp only [Tape.next]
      omega
    · simp only [Tape.next]
      omega
    · exact records_grow cells _
  | clear =>
    exact ⟨_, rfl, rfl, rfl, Nat.le_refl 0, Nat.zero_lt_of_lt sized, records_nil 0⟩
  | reposition pos =>
    have bounded : pos ≤ out.buffer.length := range
    exact ⟨_, rfl, rfl, size, size ▸ bounded, sized, cells⟩

theorem perform_keeps {m : Machine} {out next : COutStream} {t : Tape} {call : Call}
    (now : Shows m out t) (range : InRange m out call) (kept : call ≠ .clear)
    (run : perform m out call = .ok next) : Keeps out call next := by
  obtain ⟨cursor, size, inside, sized, cells⟩ := now
  have within : out.currIndex ≤ out.buffer.length := by omega
  have small : out.buffer.length < sizeCount m.toHost := by omega
  cases call with
  | write item =>
    obtain rfl := Except.ok.inj ((put_inside within small range).symm.trans run)
    constructor
    · simp only [overwrite_length within]
      omega
    · rintro i _ (before | behind)
      · exact overwrite_before within before
      · exact overwrite_behind within behind
  | skip len =>
    obtain rfl := (skip_inside within small range).symm.trans (Except.ok.inj run)
    constructor
    · simp only [grow_length]
      omega
    · intro i old _
      exact grow_old 0 _ old
  | clear => exact absurd rfl kept
  | reposition pos =>
    obtain rfl := Except.ok.inj run
    exact ⟨Nat.le_refl _, fun _ _ _ => rfl⟩

theorem run_shows {m : Machine} {path : List (Call × COutStream)}
    (run : Path (Performs m) COutStream.new path) :
    Shows m (last COutStream.new path) ((labels path).foldl Tape.next Tape.start) := by
  refine @invariant_history _ _ _ (fun out past => Shows m out (past.foldl Tape.next Tape.start))
    ?_ _ [] _ (new_shows m) run
  rintro out past call next ⟨range, performed⟩ before
  obtain ⟨_, same, after⟩ := perform_shows before range
  obtain rfl := Except.ok.inj (same.symm.trans performed)
  rw [List.foldl_append]
  exact after

/-- Over every run of calls in range, the cursor stays in the buffer, each byte of the
    buffer is the last one written at its position, and the next call in range returns,
    shrinks the buffer only by Clear and changes no byte outside its own field. -/
theorem out_stream_refines_tape (m : Machine) {path : List (Call × COutStream)}
    (run : Path (Performs m) COutStream.new path) :
    let out := last COutStream.new path
    let tape := (labels path).foldl Tape.next Tape.start
    out.currIndex = tape.cursor ∧ out.buffer.length = tape.size ∧
      out.currIndex ≤ out.buffer.length ∧
      (∀ i < out.buffer.length, out.buffer[i]? = some ((tape.lastWritten i).getD 0)) ∧
      ∀ call, InRange m out call → ∃ next, perform m out call = .ok next ∧
        (call ≠ .clear → Keeps out call next) := by
  intro out tape
  have now : Shows m out tape := run_shows run
  refine ⟨now.cursor, now.size, ?_, now.cells.reads, ?_⟩
  · rw [now.cursor, now.size]
    exact now.inside
  · intro call range
    obtain ⟨next, performed, _⟩ := perform_shows now range
    exact ⟨next, performed, fun kept => perform_keeps now range kept performed⟩

def overwrittenField : List (Call × COutStream) :=
  [(.clear, ⟨[], 0⟩), (.write (.uint16 258), ⟨[1, 2], 2⟩), (.reposition 0, ⟨[1, 2], 0⟩),
    (.write (.uint8 9), ⟨[9, 2], 1⟩), (.skip 2, ⟨[9, 2, 0], 3⟩)]

theorem overwritten_field_run : Path (Performs littleHost) COutStream.new overwrittenField :=
  ⟨⟨trivial, rfl⟩, ⟨by decide, rfl⟩, ⟨by decide, rfl⟩, ⟨by decide, rfl⟩, ⟨by decide, rfl⟩,
    trivial⟩

/-- A length field filled in later, with a gap behind the message. -/
theorem overwritten_field_tape :
    let tape := (labels overwrittenField).foldl Tape.next Tape.start
    3 = tape.cursor ∧ 3 = tape.size ∧ 3 ≤ 3 ∧
      (∀ i < 3, [9, 2, 0][i]? = some ((tape.lastWritten i).getD 0)) ∧
      ∀ call, InRange littleHost ⟨[9, 2, 0], 3⟩ call →
        ∃ next, perform littleHost ⟨[9, 2, 0], 3⟩ call = .ok next ∧
          (call ≠ .clear → Keeps ⟨[9, 2, 0], 3⟩ call next) :=
  out_stream_refines_tape littleHost overwritten_field_run

section Bounds

variable (m : Machine)

def Call.Sized : Call → Prop
  | .write (.block data) => data.length < sizeCount m.toHost
  | .write _ => True
  | .skip len => len < sizeCount m.toHost
  | .clear => True
  | .reposition pos => pos < sizeCount m.toHost

/-- A run with arbitrary arguments goes on until a call writes outside the buffer. -/
def Runs : StepRel (Except Trap COutStream) Call := fun s call t =>
  ∃ out, s = .ok out ∧ call.Sized m ∧ t = perform m out call

def InBuffer : Except Trap COutStream → Prop
  | .ok out => out.currIndex ≤ out.buffer.length
  | .error _ => False

/-- The cursor is put inside the buffer, and no write runs through the end of size_t. -/
def Guarded : Except Trap COutStream → Call → Prop
  | .ok out, .write item => out.currIndex + (wire item.sent).length < sizeCount m.toHost
  | .ok out, .reposition pos => pos ≤ out.buffer.length
  | _, _ => True

def Bounded : Except Trap COutStream → Prop
  | .ok out => out.currIndex ≤ out.buffer.length ∧ out.buffer.length < sizeCount m.toHost
  | .error _ => False

end Bounds

theorem chunks_short {m : Machine} {item : Item} (sized : (Call.write item).Sized m) :
    ∀ data ∈ chunks item, data.length < sizeCount m.toHost := by
  have wide : 2 ^ 16 ≤ sizeCount m.toHost := Nat.pow_le_pow_right (by decide) m.wide
  intro data member
  cases item with
  | block bytes =>
    obtain rfl := List.mem_singleton.mp member
    exact sized
  | string str =>
    have small := (UInt16.ofNat str.length).toNat_lt
    simp only [chunks, List.mem_cons, List.not_mem_nil, or_false] at member
    rcases member with rfl | rfl
    · rw [network_length]
      omega
    · rw [sent_length]
      omega
  | _ =>
    obtain rfl := List.mem_singleton.mp member
    rw [wire, network_length]
    omega

theorem skip_bounded {m : Machine} {out : COutStream} {len : Nat}
    (inside : out.currIndex ≤ out.buffer.length) (small : out.buffer.length < sizeCount m.toHost) :
    (out.skip m len).currIndex ≤ (out.skip m len).buffer.length ∧
      (out.skip m len).buffer.length < sizeCount m.toHost := by
  have target : sizeAdd m.toHost out.currIndex len < sizeCount m.toHost :=
    Nat.mod_lt _ (Nat.zero_lt_of_lt small)
  rw [COutStream.skip, COutStream.ensureWriteableBytes, COutStream.writeableBytes,
    sizeSub_inside inside small]
  by_cases grows : out.buffer.length - out.currIndex < len
  · simp only [if_pos grows, resize_length, target, Nat.le_refl, and_self]
  · have room : sizeAdd m.toHost out.currIndex len = out.currIndex + len := sizeAdd_fits (by omega)
    simp only [if_neg grows, room, small, and_true]
    omega

theorem guarded_bounded {m : Machine} (s : Except Trap COutStream) (call : Call)
    (t : Except Trap COutStream) (guarded : Guarded m s call) (run : Runs m s call t)
    (bounded : Bounded m s) : Bounded m t := by
  obtain ⟨out, rfl, sized, rfl⟩ := run
  obtain ⟨inside, small⟩ := bounded
  cases call with
  | write item =>
    rw [perform, put_inside inside small guarded]
    have room : out.currIndex + (wire item.sent).length < sizeCount m.toHost := guarded
    simp only [Bounded, overwrite_length inside]
    omega
  | skip len => exact skip_bounded inside small
  | clear => exact ⟨Nat.le_refl 0, Nat.zero_lt_of_lt small⟩
  | reposition pos => exact ⟨guarded, small⟩

theorem unguarded_escapes {m : Machine} (s : Except Trap COutStream) (call : Call)
    (t : Except Trap COutStream) (unguarded : ¬ Guarded m s call) (run : Runs m s call t)
    (bounded : Bounded m s) : ¬ InBuffer t := by
  obtain ⟨out, rfl, sized, rfl⟩ := run
  obtain ⟨inside, small⟩ := bounded
  cases call with
  | write item =>
    have wraps : sizeCount m.toHost ≤ out.currIndex + (chunks item).flatten.length := by
      rw [chunks_flatten]
      exact Nat.le_of_not_lt unguarded
    rw [perform, put_chunks, appends_wrap inside small (chunks_short sized) wraps]
    exact id
  | skip len => exact absurd trivial unguarded
  | clear => exact absurd trivial unguarded
  | reposition pos => exact unguarded

/-- Every byte that a run of calls with arbitrary arguments copies stays in the buffer, and
    so does the cursor, exactly when each call is guarded in the state it is made in. -/
theorem out_stream_in_buffer_iff (m : Machine) {path : List (Call × Except Trap COutStream)}
    (valid : Path (Runs m) (.ok COutStream.new) path) :
    (∀ u ∈ visited (.ok COutStream.new) path, InBuffer u) ↔
      StepsMeet (Guarded m) (.ok COutStream.new) path := by
  have start := new_holds m
  refine @visited_good_iff _ _ _ _ (Bounded m) _ (fun s bounded => ?_) guarded_bounded
    unguarded_escapes _ _ ⟨Nat.zero_le _, start.sized⟩ valid
  cases s with
  | ok out => exact bounded.1
  | error trap => exact bounded

/-- A call that reads the cursor the run has left, each within the buffer. -/
theorem padded_message_in_buffer :
    let path : List (Call × Except Trap COutStream) :=
      [(.clear, .ok ⟨[], 0⟩), (.skip 2, .ok ⟨[0, 0], 2⟩), (.write (.uint8 7), .ok ⟨[0, 0, 7], 3⟩),
        (.reposition 1, .ok ⟨[0, 0, 7], 1⟩)]
    (∀ u ∈ visited (.ok COutStream.new) path, InBuffer u) ↔
      StepsMeet (Guarded littleHost) (.ok COutStream.new) path :=
  out_stream_in_buffer_iff littleHost ⟨⟨_, rfl, trivial, rfl⟩,
    ⟨_, rfl, (by decide : 2 < sizeCount littleHost.toHost), rfl⟩, ⟨_, rfl, trivial, rfl⟩,
    ⟨_, rfl, (by decide : 1 < sizeCount littleHost.toHost), rfl⟩, trivial⟩

/-- Behind the end the room is measured as almost all of size_t, so nothing grows. -/
theorem write_behind_end :
    ¬ ∀ (m : Machine) (path : List (Call × Except Trap COutStream)),
      Path (Runs m) (.ok COutStream.new) path →
        ∀ u ∈ visited (.ok COutStream.new) path, InBuffer u := by
  intro safe
  have small : 2000 < sizeCount littleHost.toHost := by decide
  have length : (COutStream.new.reposition 2000).buffer.length = 1024 := List.length_replicate
  have trapped : perform littleHost (COutStream.new.reposition 2000) (.write (.uint8 7)) =
      .error .outOfBounds := by
    rw [perform, put, COutStream.putUInt8]
    refine append_behind ?_ small ?_ ?_
    · rw [length]
      exact (by decide : 1024 < 2000)
    · decide
    · decide
  have run : Path (Runs littleHost) (.ok COutStream.new)
      [(.reposition 2000, .ok (COutStream.new.reposition 2000)),
        (.write (.uint8 7), .error .outOfBounds)] :=
    ⟨⟨_, rfl, small, rfl⟩, ⟨_, rfl, trivial, trapped.symm⟩, trivial⟩
  exact safe littleHost _ run (.error .outOfBounds) (by simp [visited])

end OutTape
