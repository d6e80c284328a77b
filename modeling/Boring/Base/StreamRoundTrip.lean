import Boring.Base.Streams

/- A script of typed values written to a fresh COutStream and read back by a CInStream.
   The wire format of the script does not depend on the host. -/
namespace StreamRoundTrip
open StringUtil ByteOrder WordBytes RandomTape Streams

inductive Item where
  | uint8 (value : UInt8)
  | int8 (value : Int8)
  | uint16 (value : UInt16)
  | int16 (value : Int16)
  | uint32 (value : UInt32)
  | int32 (value : Int32)
  | block (data : List UInt8)
  | string (str : Str)
  deriving DecidableEq

inductive Shape where
  | uint8
  | int8
  | uint16
  | int16
  | uint32
  | int32
  | block (len : Nat)
  | string

def Item.shape : Item → Shape
  | .uint8 _ => .uint8
  | .int8 _ => .int8
  | .uint16 _ => .uint16
  | .int16 _ => .int16
  | .uint32 _ => .uint32
  | .int32 _ => .int32
  | .block data => .block data.length
  | .string _ => .string

def Item.Fits : Item → Prop
  | .string str => str.length ≤ 65535
  | _ => True

/-- The item that the bytes on the wire stand for: of a string, as many characters as its
    length modulo 2 ^ 16. -/
def Item.sent : Item → Item
  | .string str => .string (str.take (UInt16.ofNat str.length).toNat)
  | item => item

section Hosts

variable (m : Machine)

def put (out : COutStream) : Item → Except Trap COutStream
  | .uint8 value => out.putUInt8 m value
  | .int8 value => out.putInt8 m value
  | .uint16 value => out.putUInt16 m value
  | .int16 value => out.putInt16 m value
  | .uint32 value => out.putUInt32 m value
  | .int32 value => out.putInt32 m value
  | .block data => out.writeBytes m data
  | .string str => out.putString m str

def get (asserts : Bool) (s : CInStream) : Shape → Except Trap (Item × CInStream)
  | .uint8 => (s.getUInt8 m asserts).map fun r => (.uint8 r.1, r.2)
  | .int8 => (s.getInt8 m asserts).map fun r => (.int8 r.1, r.2)
  | .uint16 => (s.getUInt16 m asserts).map fun r => (.uint16 r.1, r.2)
  | .int16 => (s.getInt16 m asserts).map fun r => (.int16 r.1, r.2)
  | .uint32 => (s.getUInt32 m asserts).map fun r => (.uint32 r.1, r.2)
  | .int32 => (s.getInt32 m asserts).map fun r => (.int32 r.1, r.2)
  | .block len => (s.readBytes m asserts len).map fun r => (.block r.1, r.2)
  | .string => do
    let (len, s) ← s.getUInt16 m asserts
    let (str, s) ← s.readBytes m asserts len.toNat
    .ok (.string str, s)

def putAll (out : COutStream) (script : List Item) : Except Trap COutStream :=
  script.foldlM (put m) out

def getAll (asserts : Bool) (s : CInStream) : List Shape → Except Trap (List Item × CInStream)
  | [] => .ok ([], s)
  | shape :: rest => do
    let (item, s) ← get m asserts s shape
    let (items, s) ← getAll asserts s rest
    .ok (item :: items, s)

end Hosts

/-- The specification of the bytes: integers in network order, blocks as they are, strings
    behind their length. -/
def wire : Item → List UInt8
  | .uint8 value => network 1 value.toNat
  | .int8 value => network 1 value.toUInt8.toNat
  | .uint16 value => network 2 value.toNat
  | .int16 value => network 2 value.toUInt16.toNat
  | .uint32 value => network 4 value.toNat
  | .int32 value => network 4 value.toUInt32.toNat
  | .block data => data
  | .string str => network 2 str.length ++ str

def chunks : Item → List (List UInt8)
  | .string str => [network 2 (UInt16.ofNat str.length).toNat,
      str.take (UInt16.ofNat str.length).toNat]
  | item => [wire item]

theorem inMemory_byte (m : Machine) (v : UInt8) : inMemory m 1 v.toNat = network 1 v.toNat := by
  cases order : m.bigEndian <;> simp [inMemory, network, order, digits]

theorem byte_network (m : Machine) (v : UInt8) :
    UInt8.ofNat (fromMemory m (network 1 v.toNat)) = v := by
  rw [← inMemory_byte m, fromMemory_inMemory m (UInt8.toNat_lt _), UInt8.ofNat_toNat]

theorem length_cast {str : Str} (fits : str.length ≤ 65535) :
    (UInt16.ofNat str.length).toNat = str.length := by
  rw [UInt16.toNat_ofNat']
  exact Nat.mod_eq_of_lt (by omega)

theorem sent_length (str : Str) : (str.take (UInt16.ofNat str.length).toNat).length =
    (UInt16.ofNat str.length).toNat := by
  rw [List.length_take, UInt16.toNat_ofNat']
  exact Nat.min_eq_left (Nat.mod_le ..)

theorem sent_fits (item : Item) : item.sent.Fits := by
  cases item with
  | string str =>
    have small := (UInt16.ofNat str.length).toNat_lt
    rw [Item.sent, Item.Fits, sent_length]
    omega
  | _ => trivial

theorem sent_shape (item : Item) : item.sent.shape = item.shape := by
  cases item <;> rfl

theorem sent_of_fits {item : Item} (fits : item.Fits) : item.sent = item := by
  cases item with
  | string str => rw [Item.sent, length_cast fits, List.take_length]
  | _ => rfl

theorem chunks_flatten (item : Item) : (chunks item).flatten = wire item.sent := by
  cases item with
  | string str => simp only [chunks, Item.sent, wire, sent_length, List.flatten_cons,
      List.flatten_nil, List.append_nil]
  | _ => exact List.append_nil _

theorem put_chunks (m : Machine) (out : COutStream) (item : Item) :
    put m out item = (chunks item).foldlM (COutStream.append m) out := by
  cases item with
  | uint8 value => simp only [put, COutStream.putUInt8, inMemory_byte, chunks, wire,
      List.foldlM_cons, List.foldlM_nil, bind_pure]
  | int8 value => simp only [put, COutStream.putInt8, inMemory_byte, chunks, wire,
      List.foldlM_cons, List.foldlM_nil, bind_pure]
  | uint16 value => simp only [put, COutStream.putUInt16, inMemory_hton16, chunks, wire,
      List.foldlM_cons, List.foldlM_nil, bind_pure]
  | int16 value => simp only [put, COutStream.putInt16, UInt16.toUInt16_toInt16,
      inMemory_hton16, chunks, wire, List.foldlM_cons, List.foldlM_nil, bind_pure]
  | uint32 value => simp only [put, COutStream.putUInt32, inMemory_hton32, chunks, wire,
      List.foldlM_cons, List.foldlM_nil, bind_pure]
  | int32 value => simp only [put, COutStream.putInt32, UInt32.toUInt32_toInt32,
      inMemory_hton32, chunks, wire, List.foldlM_cons, List.foldlM_nil, bind_pure]
  | block data => simp only [put, COutStream.writeBytes, chunks, wire, List.foldlM_cons,
      List.foldlM_nil, bind_pure]
  | string str => simp only [put, COutStream.putString, COutStream.putUInt16, inMemory_hton16,
      chunks, List.foldlM_cons, List.foldlM_nil, bind_pure]

theorem put_inside {m : Machine} {out : COutStream} {item : Item}
    (inside : out.currIndex ≤ out.buffer.length) (sized : out.buffer.length < sizeCount m.toHost)
    (room : out.currIndex + (wire item.sent).length < sizeCount m.toHost) :
    put m out item = .ok ⟨overwrite out.buffer out.currIndex (wire item.sent),
      out.currIndex + (wire item.sent).length⟩ := by
  rw [← chunks_flatten] at room ⊢
  rw [put_chunks, appends_inside inside sized room]

theorem put_wire {m : Machine} {out : COutStream} {tape : List UInt8} {item : Item}
    (holds : Holds m out tape) (room : (tape ++ wire item.sent).length < sizeCount m.toHost) :
    ∃ next, put m out item = .ok next ∧ Holds m next (tape ++ wire item.sent) := by
  rw [List.length_append] at room
  have inside : out.currIndex ≤ out.buffer.length := by
    rw [holds.cursor]
    exact holds.inside
  refine ⟨_, put_inside inside holds.sized ?_, overwrite_holds holds room⟩
  rw [holds.cursor]
  exact room

theorem put_script {m : Machine} {out : COutStream} {tape : List UInt8} {script : List Item}
    (holds : Holds m out tape) (fits : ∀ item ∈ script, item.Fits)
    (room : (tape ++ script.flatMap wire).length < sizeCount m.toHost) :
    ∃ next, putAll m out script = .ok next ∧ Holds m next (tape ++ script.flatMap wire) := by
  induction script generalizing out tape with
  | nil => exact ⟨out, rfl, by simpa using holds⟩
  | cons item rest ih =>
    rw [List.flatMap_cons, ← List.append_assoc] at room
    have prefixed : (tape ++ wire item.sent).length < sizeCount m.toHost := by
      rw [sent_of_fits (fits item (by simp))]
      rw [List.length_append] at room
      omega
    obtain ⟨middle, first, holdsMiddle⟩ := put_wire holds prefixed
    rw [sent_of_fits (fits item (by simp))] at holdsMiddle
    obtain ⟨next, others, holdsNext⟩ :=
      ih holdsMiddle (fun x member => fits x (by simp [member])) room
    refine ⟨next, ?_, ?_⟩
    · rw [putAll, List.foldlM_cons, first]
      exact others
    · rw [List.flatMap_cons, ← List.append_assoc]
      exact holdsNext

theorem take_network {m : Machine} {s : CInStream} {count n : Nat} {rest : List UInt8}
    (ahead : Ahead m s (network count n ++ rest)) (asserts : Bool) :
    ∃ next, s.take m asserts count = .ok (network count n, next) ∧ Ahead m next rest := by
  have taken := take_ahead ahead asserts
  rwa [network_length] at taken

theorem get_wire {m : Machine} {s : CInStream} {rest : List UInt8} {item : Item} (asserts : Bool)
    (ahead : Ahead m s (wire item ++ rest)) (fits : item.Fits) :
    ∃ next, get m asserts s item.shape = .ok (item, next) ∧ Ahead m next rest := by
  cases item with
  | uint8 value =>
    obtain ⟨next, run, left⟩ := take_network ahead asserts
    refine ⟨next, ?_, left⟩
    simp [Item.shape, get, CInStream.getUInt8, run, bind, Except.bind, Except.map, byte_network]
  | int8 value =>
    obtain ⟨next, run, left⟩ := take_network ahead asserts
    refine ⟨next, ?_, left⟩
    simp [Item.shape, get, CInStream.getInt8, run, bind, Except.bind, Except.map, byte_network]
  | uint16 value =>
    obtain ⟨next, run, left⟩ := take_network ahead asserts
    refine ⟨next, ?_, left⟩
    simp [Item.shape, get, CInStream.getUInt16, run, bind, Except.bind, Except.map, hton16_network]
  | int16 value =>
    obtain ⟨next, run, left⟩ := take_network ahead asserts
    refine ⟨next, ?_, left⟩
    simp [Item.shape, get, CInStream.getInt16, run, bind, Except.bind, Except.map, hton16_network]
  | uint32 value =>
    obtain ⟨next, run, left⟩ := take_network ahead asserts
    refine ⟨next, ?_, left⟩
    simp [Item.shape, get, CInStream.getUInt32, run, bind, Except.bind, Except.map, hton32_network]
  | int32 value =>
    obtain ⟨next, run, left⟩ := take_network ahead asserts
    refine ⟨next, ?_, left⟩
    simp [Item.shape, get, CInStream.getInt32, run, bind, Except.bind, Except.map, hton32_network]
  | block data =>
    obtain ⟨next, run, left⟩ := take_ahead ahead asserts
    simp only [wire] at run
    refine ⟨next, ?_, left⟩
    simp only [Item.shape, get, CInStream.readBytes, run, Except.map]
  | string str =>
    -- the length is read first, and tells how many bytes follow
    rw [wire, List.append_assoc] at ahead
    obtain ⟨middle, first, behind⟩ := take_network ahead asserts
    obtain ⟨next, second, left⟩ := take_ahead behind asserts
    have length := hton16_network m (UInt16.ofNat str.length)
    rw [length_cast fits] at length
    refine ⟨next, ?_, left⟩
    simp only [Item.shape, get, CInStream.getUInt16, first, bind, Except.bind, length,
      CInStream.readBytes, length_cast fits, second]

theorem get_script {m : Machine} {s : CInStream} {rest : List UInt8} {script : List Item}
    (asserts : Bool) (ahead : Ahead m s (script.flatMap wire ++ rest))
    (fits : ∀ item ∈ script, item.Fits) :
    ∃ next, getAll m asserts s (script.map Item.shape) = .ok (script, next) ∧
      Ahead m next rest := by
  induction script generalizing s with
  | nil => exact ⟨s, rfl, by simpa using ahead⟩
  | cons item others ih =>
    rw [List.flatMap_cons, List.append_assoc] at ahead
    obtain ⟨middle, first, aheadMiddle⟩ := get_wire asserts ahead (fits item (by simp))
    obtain ⟨next, later, aheadNext⟩ := ih aheadMiddle fun x member => fits x (by simp [member])
    refine ⟨next, ?_, aheadNext⟩
    simp only [List.map_cons, getAll, first, bind, Except.bind, later]

/-- What one host writes is the wire format of the script, and any host reads the script
    back from it with no assert failing and nothing left to read. -/
theorem script_round_trip (writer reader : Machine) (asserts : Bool) {script : List Item}
    (fits : ∀ item ∈ script, item.Fits)
    (written : (script.flatMap wire).length < sizeCount writer.toHost)
    (copied : (script.flatMap wire).length < sizeCount reader.toHost) :
    ∃ out, putAll writer COutStream.new script = .ok out ∧
      out.data.take out.length = script.flatMap wire ∧
      ∃ s, getAll reader asserts (CInStream.setData (out.data.take out.length))
        (script.map Item.shape) = .ok (script, s) ∧ s.readableBytes reader = 0 := by
  obtain ⟨out, run, holds⟩ := put_script (new_holds writer) fits (by simpa using written)
  rw [List.nil_append] at holds
  have bytes : out.data.take out.length = script.flatMap wire := by
    rw [COutStream.data, COutStream.length, holds.cursor, holds.contents]
  have start : Ahead reader (CInStream.setData (script.flatMap wire))
      (script.flatMap wire ++ []) := by
    rw [List.append_nil]
    exact setData_ahead copied
  obtain ⟨s, read, done⟩ := get_script asserts start fits
  refine ⟨out, run, bytes, s, ?_, readable_ahead done⟩
  rw [bytes]
  exact read

def mixedScript : List Item :=
  [.uint16 258, .string [ch 'a', ch 'b'], .int32 (-2), .block [7, 8, 9], .int8 (-1)]

def littleHost : Machine := ⟨⟨32, by decide⟩, false⟩

def bigHost : Machine := ⟨⟨64, by decide⟩, true⟩

/-- Written on a little-endian host and read on a big-endian one. -/
theorem mixed_script_round_trip :
    ∃ out, putAll littleHost COutStream.new mixedScript = .ok out ∧
      out.data.take out.length = mixedScript.flatMap wire ∧
      ∃ s, getAll bigHost true (CInStream.setData (out.data.take out.length))
        (mixedScript.map Item.shape) = .ok (mixedScript, s) ∧ s.readableBytes bigHost = 0 := by
  refine script_round_trip littleHost bigHost true (fun item member => ?_) (by decide) (by decide)
  simp only [mixedScript, List.mem_cons, List.not_mem_nil, or_false] at member
  rcases member with rfl | rfl | rfl | rfl | rfl
  · trivial
  · exact Nat.le_of_ble_eq_true rfl
  · trivial
  · trivial
  · trivial

end StreamRoundTrip
