import Boring.Base.ByteOrder
import Boring.Library.RandomTape

/- OutStream.cpp and InStream.cpp: the buffer with a cursor that COutStream writes and
   CInStream reads. The cursor is of type size_t, so its arithmetic wraps. -/
namespace Streams
open StringUtil ByteOrder WordBytes RandomTape

/-- A failed assert stops the program; an access outside the buffer has no result. -/
inductive Trap where
  | assertion
  | outOfBounds
  deriving DecidableEq, Repr

structure COutStream where
  buffer : List UInt8
  currIndex : Nat

structure CInStream where
  buffer : List UInt8
  currIndex : Nat

section Streams

variable (m : Machine)

def sizeSub (a b : Nat) : Nat := (a + (sizeCount m.toHost - b)) % sizeCount m.toHost

/-- vector::resize keeps a prefix and appends zeros. -/
def resize (buffer : List UInt8) (size : Nat) : List UInt8 :=
  buffer.take size ++ List.replicate (size - buffer.length) 0

namespace COutStream

def sInitalSize : Nat := 1024

def new : COutStream := ⟨List.replicate sInitalSize 0, 0⟩

def writeableBytes (out : COutStream) : Nat := sizeSub m out.buffer.length out.currIndex

def ensureWriteableBytes (out : COutStream) (len : Nat) : COutStream :=
  if out.writeableBytes m < len then
    { out with buffer := resize out.buffer (sizeAdd m.toHost out.currIndex len) }
  else out

/-- The copy of `data` to the cursor writes inside the buffer or has no result. -/
def append (out : COutStream) (data : List UInt8) : Except Trap COutStream :=
  let out := out.ensureWriteableBytes m data.length
  if data = [] ∨ out.currIndex + data.length ≤ out.buffer.length then
    .ok {
      buffer := out.buffer.take out.currIndex ++ data ++
        out.buffer.drop (out.currIndex + data.length)
      currIndex := sizeAdd m.toHost out.currIndex data.length }
  else .error .outOfBounds

def putUInt8 (out : COutStream) (value : UInt8) : Except Trap COutStream :=
  out.append m (inMemory m 1 value.toNat)

def putUInt16 (out : COutStream) (value : UInt16) : Except Trap COutStream :=
  let byte16 := hton16 m value
  out.append m (inMemory m 2 byte16.toNat)

def putUInt32 (out : COutStream) (value : UInt32) : Except Trap COutStream :=
  let byte32 := hton32 m value
  out.append m (inMemory m 4 byte32.toNat)

def putInt8 (out : COutStream) (value : Int8) : Except Trap COutStream :=
  out.append m (inMemory m 1 value.toUInt8.toNat)

def putInt16 (out : COutStream) (value : Int16) : Except Trap COutStream :=
  let byte16 : Int16 := (hton16 m value.toUInt16).toInt16
  out.append m (inMemory m 2 byte16.toUInt16.toNat)

def putInt32 (out : COutStream) (value : Int32) : Except Trap COutStream :=
  let byte32 : Int32 := (hton32 m value.toUInt32).toInt32
  out.append m (inMemory m 4 byte32.toUInt32.toNat)

/-- The length is cast to uint16, and as many bytes are appended as the cast says. -/
def putString (out : COutStream) (str : Str) : Except Trap COutStream := do
  let len := UInt16.ofNat str.length
  let out ← out.putUInt16 m len
  out.append m (str.take len.toNat)

def writeBytes (out : COutStream) (data : List UInt8) : Except Trap COutStream :=
  out.append m data

/-- Any position is taken, also one behind the buffer. -/
def reposition (out : COutStream) (pos : Nat) : COutStream := { out with currIndex := pos }

def skip (out : COutStream) (len : Nat) : COutStream :=
  let out := out.ensureWriteableBytes m len
  { out with currIndex := sizeAdd m.toHost out.currIndex len }

def clear (_ : COutStream) : COutStream := ⟨[], 0⟩

def data (out : COutStream) : List UInt8 := out.buffer

def length (out : COutStream) : Nat := out.currIndex

end COutStream

namespace CInStream

def setData (data : List UInt8) : CInStream := ⟨data, 0⟩

def readableBytes (s : CInStream) : Nat := sizeSub m s.buffer.length s.currIndex

/-- The assert, the copy of `len` bytes at the cursor and the move of the cursor, which
    all readers share; `asserts` is false in the Release build. -/
def take (asserts : Bool) (s : CInStream) (len : Nat) : Except Trap (List UInt8 × CInStream) :=
  if asserts ∧ s.readableBytes m < len then .error .assertion
  else if len = 0 ∨ s.currIndex + len ≤ s.buffer.length then
    .ok ((s.buffer.drop s.currIndex).take len,
      { s with currIndex := sizeAdd m.toHost s.currIndex len })
  else .error .outOfBounds

def getUInt8 (asserts : Bool) (s : CInStream) : Except Trap (UInt8 × CInStream) := do
  let (bytes, s) ← s.take m asserts 1
  .ok (UInt8.ofNat (fromMemory m bytes), s)

def getUInt16 (asserts : Bool) (s : CInStream) : Except Trap (UInt16 × CInStream) := do
  let (bytes, s) ← s.take m asserts 2
  let bety16 := UInt16.ofNat (fromMemory m bytes)
  .ok (hton16 m bety16, s)

def getUInt32 (asserts : Bool) (s : CInStream) : Except Trap (UInt32 × CInStream) := do
  let (bytes, s) ← s.take m asserts 4
  let bety32 := UInt32.ofNat (fromMemory m bytes)
  .ok (hton32 m bety32, s)

def getInt8 (asserts : Bool) (s : CInStream) : Except Trap (Int8 × CInStream) := do
  let (bytes, s) ← s.take m asserts 1
  .ok ((UInt8.ofNat (fromMemory m bytes)).toInt8, s)

def getInt16 (asserts : Bool) (s : CInStream) : Except Trap (Int16 × CInStream) := do
  let (bytes, s) ← s.take m asserts 2
  let bety16 : Int16 := (UInt16.ofNat (fromMemory m bytes)).toInt16
  .ok ((hton16 m bety16.toUInt16).toInt16, s)

def getInt32 (asserts : Bool) (s : CInStream) : Except Trap (Int32 × CInStream) := do
  let (bytes, s) ← s.take m asserts 4
  let bety32 : Int32 := (UInt32.ofNat (fromMemory m bytes)).toInt32
  .ok ((hton32 m bety32.toUInt32).toInt32, s)

def readBytes (asserts : Bool) (s : CInStream) (len : Nat) :
    Except Trap (List UInt8 × CInStream) :=
  s.take m asserts len

def reposition (s : CInStream) (pos : Nat) : CInStream := { s with currIndex := pos }

/-- Unlike the readers, Skip asserts that more bytes are left than it skips. -/
def skip (asserts : Bool) (s : CInStream) (len : Nat) : Except Trap CInStream :=
  if asserts ∧ ¬ len < s.readableBytes m then .error .assertion
  else .ok { s with currIndex := sizeAdd m.toHost s.currIndex len }

end CInStream

end Streams

structure Holds (m : Machine) (out : COutStream) (tape : List UInt8) : Prop where
  cursor : out.currIndex = tape.length
  inside : tape.length ≤ out.buffer.length
  sized : out.buffer.length < sizeCount m.toHost
  contents : out.buffer.take tape.length = tape

structure Ahead (m : Machine) (s : CInStream) (rest : List UInt8) : Prop where
  inside : s.currIndex ≤ s.buffer.length
  sized : s.buffer.length < sizeCount m.toHost
  contents : s.buffer.drop s.currIndex = rest

theorem sizeSub_inside {m : Machine} {a b : Nat} (inside : b ≤ a) (sized : a < sizeCount m.toHost) :
    sizeSub m a b = a - b := by
  have wrapped : a + (sizeCount m.toHost - b) = a - b + sizeCount m.toHost := by omega
  rw [sizeSub, wrapped, Nat.add_mod_right, Nat.mod_eq_of_lt (by omega)]

theorem new_holds (m : Machine) : Holds m COutStream.new [] := by
  have wide : 2 ^ 16 ≤ sizeCount m.toHost := Nat.pow_le_pow_right (by decide) m.wide
  refine ⟨rfl, Nat.zero_le _, ?_, rfl⟩
  rw [COutStream.new, List.length_replicate, COutStream.sInitalSize]
  omega

theorem resize_length (buffer : List UInt8) (size : Nat) : (resize buffer size).length = size := by
  rw [resize, List.length_append, List.length_take, List.length_replicate]
  omega

theorem ensure_inside {m : Machine} {out : COutStream} {len : Nat}
    (inside : out.currIndex ≤ out.buffer.length) (sized : out.buffer.length < sizeCount m.toHost)
    (room : out.currIndex + len < sizeCount m.toHost) :
    out.ensureWriteableBytes m len =
      { out with buffer := grow 0 out.buffer (out.currIndex + len) } := by
  rw [COutStream.ensureWriteableBytes, COutStream.writeableBytes, sizeSub_inside inside sized,
    sizeAdd_fits room]
  by_cases grows : out.buffer.length - out.currIndex < len
  · rw [if_pos grows, resize, List.take_of_length_le (by omega)]
    rfl
  · have enough : out.currIndex + len - out.buffer.length = 0 := by omega
    rw [if_neg grows, grow, enough, List.replicate_zero, List.append_nil]

theorem append_inside {m : Machine} {out : COutStream} {data : List UInt8}
    (inside : out.currIndex ≤ out.buffer.length) (sized : out.buffer.length < sizeCount m.toHost)
    (room : out.currIndex + data.length < sizeCount m.toHost) :
    out.append m data =
      .ok ⟨overwrite out.buffer out.currIndex data, out.currIndex + data.length⟩ := by
  have length := grow_length (0 : UInt8) out.buffer (out.currIndex + data.length)
  have front : (grow 0 out.buffer (out.currIndex + data.length)).take out.currIndex =
      out.buffer.take out.currIndex := by
    rw [grow, List.take_append_of_le_length inside]
  have back : (grow 0 out.buffer (out.currIndex + data.length)).drop
      (out.currIndex + data.length) = out.buffer.drop (out.currIndex + data.length) := by
    rcases Nat.le_total out.buffer.length (out.currIndex + data.length) with short | long
    · rw [List.drop_of_length_le short, List.drop_of_length_le (by omega)]
    · rw [grow, Nat.sub_eq_zero_of_le long, List.replicate_zero, List.append_nil]
  simp only [COutStream.append, ensure_inside inside sized room]
  rw [if_pos (.inr (by omega)), front, back, sizeAdd_fits room, overwrite]

theorem skip_inside {m : Machine} {out : COutStream} {len : Nat}
    (inside : out.currIndex ≤ out.buffer.length) (sized : out.buffer.length < sizeCount m.toHost)
    (room : out.currIndex + len < sizeCount m.toHost) :
    out.skip m len = ⟨grow 0 out.buffer (out.currIndex + len), out.currIndex + len⟩ := by
  simp only [COutStream.skip, ensure_inside inside sized room, sizeAdd_fits room]

theorem append_wraps {m : Machine} {out : COutStream} {data : List UInt8}
    (inside : out.currIndex ≤ out.buffer.length) (sized : out.buffer.length < sizeCount m.toHost)
    (long : data.length < sizeCount m.toHost)
    (wraps : sizeCount m.toHost ≤ out.currIndex + data.length) :
    out.append m data = .error .outOfBounds := by
  have short : out.buffer.length - out.currIndex < data.length := by omega
  have target : sizeAdd m.toHost out.currIndex data.length =
      out.currIndex + data.length - sizeCount m.toHost := by
    rw [sizeAdd, Nat.mod_eq_sub_mod wraps, Nat.mod_eq_of_lt (by omega)]
  have filled : data ≠ [] := by
    rintro rfl
    simp only [List.length_nil] at wraps
    omega
  simp only [COutStream.append, COutStream.ensureWriteableBytes, COutStream.writeableBytes,
    sizeSub_inside inside sized, if_pos short, target]
  rw [if_neg]
  rintro (none | fits)
  · exact filled none
  · rw [resize_length] at fits
    omega

/-- Behind the end the room is measured modulo 2 ^ w, and nothing makes it good. -/
theorem append_behind {m : Machine} {out : COutStream} {data : List UInt8}
    (behind : out.buffer.length < out.currIndex) (range : out.currIndex < sizeCount m.toHost)
    (long : data.length < sizeCount m.toHost) (filled : data ≠ []) :
    out.append m data = .error .outOfBounds := by
  have measured : sizeSub m out.buffer.length out.currIndex =
      out.buffer.length + (sizeCount m.toHost - out.currIndex) := Nat.mod_eq_of_lt (by omega)
  simp only [COutStream.append, COutStream.ensureWriteableBytes, COutStream.writeableBytes,
    measured]
  by_cases grows : out.buffer.length + (sizeCount m.toHost - out.currIndex) < data.length
  · have wraps : sizeCount m.toHost ≤ out.currIndex + data.length := by omega
    have target : sizeAdd m.toHost out.currIndex data.length =
        out.currIndex + data.length - sizeCount m.toHost := by
      rw [sizeAdd, Nat.mod_eq_sub_mod wraps, Nat.mod_eq_of_lt (by omega)]
    rw [if_pos grows, if_neg]
    rintro (none | fits)
    · exact filled none
    · rw [resize_length, target] at fits
      omega
  · rw [if_neg grows, if_neg]
    rintro (none | fits)
    · exact filled none
    · omega

theorem appends_inside {m : Machine} {out : COutStream} {chunks : List (List UInt8)}
    (inside : out.currIndex ≤ out.buffer.length) (sized : out.buffer.length < sizeCount m.toHost)
    (room : out.currIndex + chunks.flatten.length < sizeCount m.toHost) :
    chunks.foldlM (COutStream.append m) out =
      .ok ⟨overwrite out.buffer out.currIndex chunks.flatten,
        out.currIndex + chunks.flatten.length⟩ := by
  induction chunks generalizing out with
  | nil => rw [List.flatten_nil, overwrite_nil]; rfl
  | cons data rest ih =>
    rw [List.flatten_cons, List.length_append] at room
    have length := @overwrite_length _ _ data _ inside
    rw [List.foldlM_cons, append_inside inside sized (by omega)]
    simp only [bind, Except.bind]
    rw [ih (by simp only [length]; omega) (by simp only [length]; omega) (by simp only; omega)]
    simp only [List.flatten_cons, List.length_append, overwrite_overwrite inside, Nat.add_assoc]

theorem appends_wrap {m : Machine} {out : COutStream} {chunks : List (List UInt8)}
    (inside : out.currIndex ≤ out.buffer.length) (sized : out.buffer.length < sizeCount m.toHost)
    (long : ∀ data ∈ chunks, data.length < sizeCount m.toHost)
    (wraps : sizeCount m.toHost ≤ out.currIndex + chunks.flatten.length) :
    chunks.foldlM (COutStream.append m) out = .error .outOfBounds := by
  induction chunks generalizing out with
  | nil =>
    rw [List.flatten_nil, List.length_nil] at wraps
    omega
  | cons data rest ih =>
    rw [List.flatten_cons, List.length_append] at wraps
    rw [List.foldlM_cons]
    rcases Nat.lt_or_ge (out.currIndex + data.length) (sizeCount m.toHost) with fits | beyond
    · have length := @overwrite_length _ _ data _ inside
      rw [append_inside inside sized fits]
      simp only [bind, Except.bind]
      refine ih ?_ ?_ (fun d member => long d (by simp [member])) ?_
      · simp only [length]
        omega
      · simp only [length]
        omega
      · simp only
        omega
    · rw [append_wraps inside sized (long data (by simp)) beyond]
      rfl

theorem overwrite_holds {m : Machine} {out : COutStream} {tape data : List UInt8}
    (holds : Holds m out tape) (room : tape.length + data.length < sizeCount m.toHost) :
    Holds m ⟨overwrite out.buffer out.currIndex data, out.currIndex + data.length⟩
      (tape ++ data) := by
  obtain ⟨cursor, inside, sized, contents⟩ := holds
  rw [← cursor] at inside room
  have length := @overwrite_length _ _ data _ inside
  constructor
  · simp only [cursor, List.length_append]
  · rw [List.length_append, ← cursor, length]
    omega
  · rw [length]
    omega
  · simp only [cursor, contents, overwrite]
    exact List.take_left

theorem setData_ahead {m : Machine} {data : List UInt8} (sized : data.length < sizeCount m.toHost) :
    Ahead m (CInStream.setData data) data :=
  ⟨Nat.zero_le _, sized, rfl⟩

theorem readable_ahead {m : Machine} {s : CInStream} {rest : List UInt8} (ahead : Ahead m s rest) :
    s.readableBytes m = rest.length := by
  rw [CInStream.readableBytes, sizeSub_inside ahead.inside ahead.sized, ← ahead.contents,
    List.length_drop]

theorem take_ahead {m : Machine} {s : CInStream} {data rest : List UInt8}
    (ahead : Ahead m s (data ++ rest)) (asserts : Bool) :
    ∃ next, s.take m asserts data.length = .ok (data, next) ∧ Ahead m next rest := by
  have readable := readable_ahead ahead
  obtain ⟨inside, sized, contents⟩ := ahead
  have lengths := congrArg List.length contents
  rw [List.length_drop, List.length_append] at lengths
  rw [List.length_append] at readable
  have moved : sizeAdd m.toHost s.currIndex data.length = s.currIndex + data.length :=
    sizeAdd_fits (by omega)
  refine ⟨⟨s.buffer, s.currIndex + data.length⟩, ?_, by simp only; omega, sized, ?_⟩
  · rw [CInStream.take, if_neg (by omega), if_pos (.inr (by omega)), contents, List.take_left,
      moved]
  · rw [← List.drop_drop, contents, List.drop_left]

end Streams
