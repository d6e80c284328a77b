import Boring.Base.StreamRoundTrip
import Boring.Library.StepRuns

/- CInStream under arbitrary calls, in the Debug build, where a failed assert stops the run,
   and in the Release build, where the asserts are compiled out. -/
namespace InStreamBounds
open StringUtil ByteOrder StepRuns Streams StreamRoundTrip

inductive ReadCall where
  | uint8
  | int8
  | uint16
  | int16
  | uint32
  | int32
  | readBytes (len : Nat)
  | skip (len : Nat)
  | reposition (pos : Nat)
  deriving DecidableEq

section Calls

variable (m : Machine) (asserts : Bool)

def perform (s : CInStream) : ReadCall → Except Trap CInStream
  | .uint8 => (s.getUInt8 m asserts).map Prod.snd
  | .int8 => (s.getInt8 m asserts).map Prod.snd
  | .uint16 => (s.getUInt16 m asserts).map Prod.snd
  | .int16 => (s.getInt16 m asserts).map Prod.snd
  | .uint32 => (s.getUInt32 m asserts).map Prod.snd
  | .int32 => (s.getInt32 m asserts).map Prod.snd
  | .readBytes len => (s.readBytes m asserts len).map Prod.snd
  | .skip len => s.skip m asserts len
  | .reposition pos => .ok (s.reposition pos)

def ReadCall.width : ReadCall → Nat
  | .uint8 | .int8 => 1
  | .uint16 | .int16 => 2
  | .uint32 | .int32 => 4
  | .readBytes len => len
  | .skip _ | .reposition _ => 0

def ReadCall.Reads : ReadCall → Prop
  | .skip _ | .reposition _ => False
  | _ => True

def ReadCall.Sized : ReadCall → Prop
  | .readBytes len | .skip len => len < sizeCount m.toHost
  | .reposition pos => pos < sizeCount m.toHost
  | _ => True

def Runs : StepRel (Except Trap CInStream) ReadCall := fun s call t =>
  ∃ now, s = .ok now ∧ call.Sized m ∧ t = perform m asserts now call

/-- A failed assert has read nothing. -/
def InBuffer : Except Trap CInStream → Prop
  | .ok s => s.currIndex ≤ s.buffer.length
  | .error trap => trap = .assertion

/-- Reposition must stay in the buffer; without asserts, so must Skip and every read. -/
def Guarded : Except Trap CInStream → ReadCall → Prop
  | .error _, _ => True
  | .ok s, .reposition pos => pos ≤ s.buffer.length
  | .ok s, .skip len => asserts ∨ sizeAdd m.toHost s.currIndex len ≤ s.buffer.length
  | .ok s, call => asserts ∨ s.currIndex + call.width ≤ s.buffer.length

def Bounded : Except Trap CInStream → Prop
  | .ok s => s.currIndex ≤ s.buffer.length ∧ s.buffer.length < sizeCount m.toHost
  | .error trap => trap = .assertion

end Calls

theorem map_bind_snd {A B : Type} (taken : Except Trap (List UInt8 × CInStream))
    (value : List UInt8 → A) (convert : A → B) :
    (taken >>= fun r => Except.ok (convert (value r.1), r.2)).map Prod.snd =
      taken.map Prod.snd := by
  cases taken <;> rfl

theorem perform_take {m : Machine} {asserts : Bool} {s : CInStream} {call : ReadCall}
    (reads : call.Reads) :
    perform m asserts s call = (s.take m asserts call.width).map Prod.snd := by
  cases call with
  | skip len => exact reads.elim
  | reposition pos => exact reads.elim
  | readBytes len => rfl
  | uint8 => exact map_bind_snd _ (fromMemory m) UInt8.ofNat
  | int8 => exact map_bind_snd _ (fromMemory m) fun n => (UInt8.ofNat n).toInt8
  | uint16 => exact map_bind_snd _ (fromMemory m) fun n => hton16 m (UInt16.ofNat n)
  | int16 => exact map_bind_snd _ (fromMemory m) fun n =>
      (hton16 m (UInt16.ofNat n).toInt16.toUInt16).toInt16
  | uint32 => exact map_bind_snd _ (fromMemory m) fun n => hton32 m (UInt32.ofNat n)
  | int32 => exact map_bind_snd _ (fromMemory m) fun n =>
      (hton32 m (UInt32.ofNat n).toInt32.toUInt32).toInt32

theorem take_inside {m : Machine} {s : CInStream} (asserts : Bool) {len : Nat}
    (inside : s.currIndex ≤ s.buffer.length) (sized : s.buffer.length < sizeCount m.toHost) :
    s.take m asserts len =
      if s.currIndex + len ≤ s.buffer.length then
        .ok ((s.buffer.drop s.currIndex).take len, { s with currIndex := s.currIndex + len })
      else if asserts then .error .assertion else .error .outOfBounds := by
  rw [CInStream.take, CInStream.readableBytes, sizeSub_inside inside sized]
  by_cases fits : s.currIndex + len ≤ s.buffer.length
  · rw [if_neg (by omega), if_pos (.inr fits), if_pos fits, sizeAdd_fits (by omega)]
  · have short : s.buffer.length - s.currIndex < len := by omega
    have copied : ¬ (len = 0 ∨ s.currIndex + len ≤ s.buffer.length) := by omega
    rw [if_neg fits, if_neg copied]
    simp only [short, and_true]

theorem read_bounded {m : Machine} {asserts : Bool} {s : CInStream} {len : Nat}
    (inside : s.currIndex ≤ s.buffer.length) (sized : s.buffer.length < sizeCount m.toHost)
    (guarded : asserts ∨ s.currIndex + len ≤ s.buffer.length) :
    Bounded m ((s.take m asserts len).map Prod.snd) := by
  rw [take_inside asserts inside sized]
  by_cases fits : s.currIndex + len ≤ s.buffer.length
  · rw [if_pos fits]
    exact ⟨fits, sized⟩
  · rw [if_neg fits, if_pos (guarded.resolve_right fits)]
    rfl

theorem read_escapes {m : Machine} {asserts : Bool} {s : CInStream} {len : Nat}
    (inside : s.currIndex ≤ s.buffer.length) (sized : s.buffer.length < sizeCount m.toHost)
    (unguarded : ¬ (asserts ∨ s.currIndex + len ≤ s.buffer.length)) :
    ¬ InBuffer ((s.take m asserts len).map Prod.snd) := by
  obtain ⟨release, beyond⟩ := not_or.mp unguarded
  rw [take_inside asserts inside sized, if_neg beyond, if_neg release]
  exact Trap.noConfusion

theorem skip_guarded {m : Machine} {asserts : Bool} {s : CInStream} {len : Nat}
    (inside : s.currIndex ≤ s.buffer.length) (sized : s.buffer.length < sizeCount m.toHost)
    (guarded : asserts ∨ sizeAdd m.toHost s.currIndex len ≤ s.buffer.length) :
    Bounded m (s.skip m asserts len) := by
  rw [CInStream.skip, CInStream.readableBytes, sizeSub_inside inside sized]
  by_cases stopped : asserts ∧ ¬ len < s.buffer.length - s.currIndex
  · rw [if_pos stopped]
    rfl
  · rw [if_neg stopped]
    refine ⟨?_, sized⟩
    rcases guarded with checked | fits
    · have left : len < s.buffer.length - s.currIndex := by
        by_contra many
        exact stopped ⟨checked, many⟩
      rw [sizeAdd_fits (by omega)]
      simp only
      omega
    · exact fits

theorem guarded_bounded {m : Machine} {asserts : Bool} (s : Except Trap CInStream)
    (call : ReadCall) (t : Except Trap CInStream) (guarded : Guarded m asserts s call)
    (run : Runs m asserts s call t) (bounded : Bounded m s) : Bounded m t := by
  obtain ⟨now, rfl, _, rfl⟩ := run
  obtain ⟨inside, sized⟩ := bounded
  cases call with
  | skip len => exact skip_guarded inside sized guarded
  | reposition pos => exact ⟨guarded, sized⟩
  | _ =>
    rw [perform_take]
    · exact read_bounded inside sized guarded
    · trivial

theorem unguarded_escapes {m : Machine} {asserts : Bool} (s : Except Trap CInStream)
    (call : ReadCall) (t : Except Trap CInStream) (unguarded : ¬ Guarded m asserts s call)
    (run : Runs m asserts s call t) (bounded : Bounded m s) : ¬ InBuffer t := by
  obtain ⟨now, rfl, _, rfl⟩ := run
  obtain ⟨inside, sized⟩ := bounded
  cases call with
  | skip len =>
    obtain ⟨release, beyond⟩ := not_or.mp unguarded
    rw [perform, CInStream.skip, if_neg fun stopped => release stopped.1]
    exact beyond
  | reposition pos => exact unguarded
  | _ =>
    rw [perform_take]
    · exact read_escapes inside sized unguarded
    · trivial

/-- In both builds, every byte read from given data lies in the buffer and the cursor stays
    in it, exactly when each call is guarded in the state it is made in. -/
theorem in_stream_in_buffer_iff (m : Machine) (asserts : Bool) {data : List UInt8}
    (copied : data.length < sizeCount m.toHost)
    {path : List (ReadCall × Except Trap CInStream)}
    (valid : Path (Runs m asserts) (.ok (CInStream.setData data)) path) :
    (∀ u ∈ visited (.ok (CInStream.setData data)) path, InBuffer u) ↔
      StepsMeet (Guarded m asserts) (.ok (CInStream.setData data)) path := by
  refine @visited_good_iff _ _ _ _ (Bounded m) _ (fun s bounded => ?_) guarded_bounded
    unguarded_escapes _ _ ⟨Nat.zero_le _, copied⟩ valid
  cases s with
  | ok now => exact bounded.1
  | error trap => exact bounded

/-- A truncated message, read in the Debug build up to the assert that stops the run. -/
theorem truncated_message_in_buffer :
    let path : List (ReadCall × Except Trap CInStream) :=
      [(.uint16, .ok ⟨[0, 9, 7], 2⟩), (.readBytes 9, .error .assertion)]
    (∀ u ∈ visited (.ok (CInStream.setData [0, 9, 7])) path, InBuffer u) ↔
      StepsMeet (Guarded littleHost true) (.ok (CInStream.setData [0, 9, 7])) path :=
  in_stream_in_buffer_iff littleHost true (by decide)
    ⟨⟨_, rfl, trivial, rfl⟩, ⟨_, rfl, (by decide : 9 < sizeCount littleHost.toHost), rfl⟩, trivial⟩

/-- In the Debug build a cursor behind the end passes the next assert. -/
theorem read_behind_end :
    ¬ ∀ (m : Machine) (asserts : Bool) (data : List UInt8)
      (path : List (ReadCall × Except Trap CInStream)), data.length < sizeCount m.toHost →
      Path (Runs m asserts) (.ok (CInStream.setData data)) path →
        ∀ u ∈ visited (.ok (CInStream.setData data)) path, InBuffer u := by
  intro safe
  have run : Path (Runs littleHost true) (.ok (CInStream.setData [1, 2]))
      [(.reposition 3, .ok ⟨[1, 2], 3⟩), (.uint8, .error .outOfBounds)] :=
    ⟨⟨_, rfl, (by decide : 3 < sizeCount littleHost.toHost), rfl⟩, ⟨_, rfl, trivial, rfl⟩, trivial⟩
  have read := safe littleHost true [1, 2] _ (by decide) run (.error .outOfBounds)
    (by simp [visited])
  exact Trap.noConfusion read

end InStreamBounds
