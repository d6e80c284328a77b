import Boring.Base.InStreamBounds

/- Messages with reserved gaps: COutStream skips them when it writes, CInStream when it
   reads. The two Skips and ReadBytes check their bounds separately. -/
namespace Layouts
open StringUtil ByteOrder RandomTape Streams StreamRoundTrip InStreamBounds

inductive Part where
  | item (value : Item)
  | gap (len : Nat)
  deriving DecidableEq

inductive Slot where
  | item (shape : Shape)
  | gap (len : Nat)

def Part.slot : Part → Slot
  | .item value => .item value.shape
  | .gap len => .gap len

section Scripts

variable (m : Machine)

def putPart (out : COutStream) : Part → Except Trap COutStream
  | .item value => put m out value
  | .gap len => .ok (out.skip m len)

def putLayout (out : COutStream) (layout : List Part) : Except Trap COutStream :=
  layout.foldlM (putPart m) out

def getLayout (asserts : Bool) (s : CInStream) : List Slot → Except Trap (List Item × CInStream)
  | [] => .ok ([], s)
  | .item shape :: rest => do
    let (item, s) ← get m asserts s shape
    let (items, s) ← getLayout asserts s rest
    .ok (item :: items, s)
  | .gap len :: rest => do
    let s ← s.skip m asserts len
    getLayout asserts s rest

/-- Skip and ReadBytes fail alike, or leave the same stream. -/
def Agree (s : CInStream) (len : Nat) : Prop :=
  s.skip m true len = (s.readBytes m true len).map Prod.snd

end Scripts

def sentItems : List Part → List Item
  | [] => []
  | .item value :: rest => value.sent :: sentItems rest
  | .gap _ :: rest => sentItems rest

def extent : List Part → Nat
  | [] => 0
  | .item value :: rest => (wire value.sent).length + extent rest
  | .gap len :: rest => len + extent rest

/-- Behind every gap there is still a byte of the message. -/
def GapsFollowed : List Part → Prop
  | [] => True
  | .item _ :: rest => GapsFollowed rest
  | .gap _ :: rest => 0 < extent rest ∧ GapsFollowed rest

instance decidableGapsFollowed : (layout : List Part) → Decidable (GapsFollowed layout)
  | [] => .isTrue trivial
  | .item _ :: rest => decidableGapsFollowed rest
  | .gap _ :: rest =>
    have := decidableGapsFollowed rest
    inferInstanceAs (Decidable (_ ∧ _))

/-- The Debug reader gets every value and ends at the end of the message. -/
def ReadToEnd (writer reader : Machine) (layout : List Part) : Prop :=
  ∃ out, putLayout writer COutStream.new layout = .ok out ∧
    ∃ s, getLayout reader true (CInStream.setData (out.data.take out.length))
      (layout.map Part.slot) = .ok (sentItems layout, s) ∧ s.readableBytes reader = 0

inductive Filled : List Part → List UInt8 → Prop where
  | nil : Filled [] []
  | item {value : Item} {rest : List Part} {tail : List UInt8} (later : Filled rest tail) :
      Filled (.item value :: rest) (wire value.sent ++ tail)
  | gap {reserved : List UInt8} {rest : List Part} {tail : List UInt8} (later : Filled rest tail) :
      Filled (.gap reserved.length :: rest) (reserved ++ tail)

theorem filled_length {layout : List Part} {bytes : List UInt8} (filled : Filled layout bytes) :
    bytes.length = extent layout := by
  induction filled with
  | nil => rfl
  | item later ih => rw [List.length_append, ih, extent]
  | gap later ih => rw [List.length_append, ih, extent]

/-- Skip asserts one byte more than ReadBytes: they part exactly at the end of the data. -/
theorem agree_iff {m : Machine} {s : CInStream} (inside : s.currIndex ≤ s.buffer.length)
    (sized : s.buffer.length < sizeCount m.toHost) (len : Nat) :
    Agree m s len ↔ len ≠ s.buffer.length - s.currIndex := by
  rw [Agree, CInStream.readBytes, take_inside true inside sized, CInStream.skip,
    CInStream.readableBytes, sizeSub_inside inside sized]
  rcases Nat.lt_trichotomy len (s.buffer.length - s.currIndex) with few | rfl | many
  · rw [if_neg fun stopped => stopped.2 few, if_pos (by omega), sizeAdd_fits (by omega)]
    exact iff_of_true rfl (Nat.ne_of_lt few)
  · rw [if_pos ⟨rfl, Nat.lt_irrefl _⟩, if_pos (by omega)]
    exact iff_of_false (fun equal => by cases equal) fun different => different rfl
  · rw [if_pos ⟨rfl, Nat.not_lt_of_gt many⟩, if_neg (by omega), if_pos rfl]
    exact iff_of_true rfl (Nat.ne_of_gt many)

theorem skip_holds {m : Machine} {out : COutStream} {tape : List UInt8} {len : Nat}
    (holds : Holds m out tape) (room : tape.length + len < sizeCount m.toHost) :
    ∃ reserved : List UInt8, reserved.length = len ∧
      Holds m (out.skip m len) (tape ++ reserved) := by
  obtain ⟨cursor, inside, sized, contents⟩ := holds
  rw [← cursor] at inside room
  have grown := grow_length (0 : UInt8) out.buffer (out.currIndex + len)
  have front : (grow 0 out.buffer (out.currIndex + len)).take out.currIndex = tape := by
    rw [grow, List.take_append_of_le_length inside, cursor, contents]
  have length : (((grow 0 out.buffer (out.currIndex + len)).drop out.currIndex).take len).length =
      len := by
    rw [List.length_take, List.length_drop]
    omega
  refine ⟨_, length, ?_⟩
  rw [skip_inside inside sized room]
  have total : (tape ++ ((grow 0 out.buffer (out.currIndex + len)).drop out.currIndex).take
      len).length = out.currIndex + len := by
    rw [List.length_append, length, cursor]
  constructor
  · exact total.symm
  · rw [total, grown]
    omega
  · rw [grown]
    omega
  · rw [total, List.take_add, front]

theorem put_layout {m : Machine} {out : COutStream} {tape : List UInt8} {layout : List Part}
    (holds : Holds m out tape) (room : tape.length + extent layout < sizeCount m.toHost) :
    ∃ next bytes, putLayout m out layout = .ok next ∧ Filled layout bytes ∧
      Holds m next (tape ++ bytes) := by
  induction layout generalizing out tape with
  | nil => exact ⟨out, [], rfl, .nil, by simpa using holds⟩
  | cons part rest ih =>
    cases part with
    | item value =>
      rw [extent] at room
      obtain ⟨middle, first, holdsMiddle⟩ := @put_wire m out tape value holds (by
        rw [List.length_append]
        omega)
      obtain ⟨next, bytes, others, filled, holdsNext⟩ := ih holdsMiddle (by
        rw [List.length_append]
        omega)
      refine ⟨next, _, ?_, .item filled, ?_⟩
      · rw [putLayout, List.foldlM_cons, putPart, first]
        exact others
      · rwa [List.append_assoc] at holdsNext
    | gap len =>
      rw [extent] at room
      obtain ⟨reserved, rfl, holdsMiddle⟩ := @skip_holds m out tape len holds (by omega)
      obtain ⟨next, bytes, others, filled, holdsNext⟩ := ih holdsMiddle (by
        rw [List.length_append]
        omega)
      refine ⟨next, _, others, .gap filled, ?_⟩
      rwa [List.append_assoc] at holdsNext

theorem skip_ahead {m : Machine} {s : CInStream} {reserved rest : List UInt8}
    (ahead : Ahead m s (reserved ++ rest)) (more : 0 < rest.length) :
    ∃ next, s.skip m true reserved.length = .ok next ∧ Ahead m next rest := by
  obtain ⟨next, read, left⟩ := take_ahead ahead true
  have readable := readable_ahead ahead
  rw [CInStream.readableBytes, sizeSub_inside ahead.inside ahead.sized,
    List.length_append] at readable
  have agree := (agree_iff ahead.inside ahead.sized reserved.length).mpr (by omega)
  rw [Agree, CInStream.readBytes, read] at agree
  exact ⟨next, agree, left⟩

theorem skip_stops {m : Machine} {s : CInStream} {reserved : List UInt8}
    (ahead : Ahead m s reserved) : s.skip m true reserved.length = .error .assertion := by
  rw [CInStream.skip, readable_ahead ahead, if_pos ⟨rfl, Nat.lt_irrefl _⟩]

theorem get_layout {m : Machine} {s : CInStream} {layout : List Part} {bytes : List UInt8}
    (filled : Filled layout bytes) (ahead : Ahead m s bytes) (followed : GapsFollowed layout) :
    ∃ next, getLayout m true s (layout.map Part.slot) = .ok (sentItems layout, next) ∧
      Ahead m next [] := by
  induction filled generalizing s with
  | nil => exact ⟨s, rfl, ahead⟩
  | @item value rest tail later ih =>
    obtain ⟨middle, first, behind⟩ := get_wire true ahead (sent_fits value)
    obtain ⟨next, others, done⟩ := ih behind followed
    rw [sent_shape] at first
    refine ⟨next, ?_, done⟩
    simp only [List.map_cons, Part.slot, getLayout, first, bind, Except.bind, others, sentItems]
  | @gap reserved rest tail later ih =>
    have more : 0 < tail.length := by
      rw [filled_length later]
      exact followed.1
    obtain ⟨middle, first, behind⟩ := skip_ahead ahead more
    obtain ⟨next, others, done⟩ := ih behind followed.2
    refine ⟨next, ?_, done⟩
    simp only [List.map_cons, Part.slot, getLayout, first, bind, Except.bind, others, sentItems]

theorem layout_stops {m : Machine} {s : CInStream} {layout : List Part} {bytes : List UInt8}
    (filled : Filled layout bytes) (ahead : Ahead m s bytes) (loose : ¬ GapsFollowed layout) :
    getLayout m true s (layout.map Part.slot) = .error .assertion := by
  induction filled generalizing s with
  | nil => exact absurd trivial loose
  | @item value rest tail later ih =>
    obtain ⟨middle, first, behind⟩ := get_wire true ahead (sent_fits value)
    rw [sent_shape] at first
    simp only [List.map_cons, Part.slot, getLayout, first, bind, Except.bind, ih behind loose]
  | @gap reserved rest tail later ih =>
    rcases Nat.eq_zero_or_pos tail.length with none | more
    · rw [List.eq_nil_of_length_eq_zero none, List.append_nil] at ahead
      simp only [List.map_cons, Part.slot, getLayout, skip_stops ahead, bind, Except.bind]
    · obtain ⟨middle, first, behind⟩ := skip_ahead ahead more
      have looser : ¬ GapsFollowed rest := fun followed =>
        loose ⟨filled_length later ▸ more, followed⟩
      simp only [List.map_cons, Part.slot, getLayout, first, bind, Except.bind, ih behind looser]

theorem read_to_end_iff {writer reader : Machine} {layout : List Part}
    (written : extent layout < sizeCount writer.toHost)
    (copied : extent layout < sizeCount reader.toHost) :
    ReadToEnd writer reader layout ↔ GapsFollowed layout := by
  obtain ⟨out, bytes, put, filled, holds⟩ :=
    @put_layout _ _ _ layout (new_holds writer) (by simpa using written)
  rw [List.nil_append] at holds
  have sent : out.data.take out.length = bytes := by
    rw [COutStream.data, COutStream.length, holds.cursor, holds.contents]
  have start : Ahead reader (CInStream.setData bytes) bytes :=
    setData_ahead (by rwa [filled_length filled])
  constructor
  · rintro ⟨same, again, s, read, _⟩
    obtain rfl := Except.ok.inj (put.symm.trans again)
    by_contra loose
    rw [sent, layout_stops filled start loose] at read
    cases read
  · intro followed
    obtain ⟨s, read, done⟩ := get_layout filled start followed
    refine ⟨out, put, s, ?_, readable_ahead done⟩
    rw [sent]
    exact read

/-- Skip agrees with ReadBytes except on exactly the bytes that are left, and a message is
    read to its end exactly when no gap ends it. -/
theorem skip_mirrors_reading_iff (writer reader : Machine) :
    (∀ s : CInStream, s.currIndex ≤ s.buffer.length →
      s.buffer.length < sizeCount reader.toHost → ∀ len,
        (Agree reader s len ↔ len ≠ s.buffer.length - s.currIndex)) ∧
    ∀ layout, extent layout < sizeCount writer.toHost → extent layout < sizeCount reader.toHost →
      (ReadToEnd writer reader layout ↔ GapsFollowed layout) :=
  ⟨fun _ inside sized len => agree_iff inside sized len,
    fun _ written copied => read_to_end_iff written copied⟩

def paddedRecord : List Part :=
  [.gap 2, .item (.uint16 258), .gap 0, .gap 1, .item (.block [7])]

/-- A header with reserved bytes inside it. -/
theorem padded_record_read :
    (Agree bigHost ⟨[1, 2, 3], 1⟩ 1 ↔ 1 ≠ 3 - 1) ∧
      (ReadToEnd littleHost bigHost paddedRecord ↔ GapsFollowed paddedRecord) :=
  ⟨(skip_mirrors_reading_iff littleHost bigHost).1 ⟨[1, 2, 3], 1⟩ (by decide) (by decide) 1,
    (skip_mirrors_reading_iff littleHost bigHost).2 paddedRecord (by decide) (by decide)⟩

/-- A stream with two bytes left that skips two, and a message that ends in a gap. -/
theorem final_gap_stops_reader :
    ¬ Agree littleHost ⟨[1, 2], 0⟩ 2 ∧
      ¬ ReadToEnd littleHost littleHost [.item (.uint8 7), .gap 3] := by
  constructor
  · rw [agree_iff (by decide) (by decide)]
    decide
  · rw [read_to_end_iff (by decide) (by decide)]
    decide

end Layouts
