import Boring.Base.OutTape

/- A string record in the middle of a stream: what a reader finds where the record was
   written, for strings of any length. -/
namespace StringRecords
open StringUtil ByteOrder RandomTape Streams StreamRoundTrip OutTape

section Records

variable (m : Machine)

def Recovered (out : COutStream) (str : Str) : Prop :=
  ∃ next, out.putString m str = .ok next ∧
    ∀ rest : List Item, (∀ item ∈ rest, item.Fits) →
      next.currIndex + (rest.flatMap wire).length < sizeCount m.toHost →
      ∃ final, putAll m next rest = .ok final ∧
        ∀ (reader : Machine) (asserts : Bool), final.length < sizeCount reader.toHost →
          ∃ s, getAll reader asserts
            ((CInStream.setData (final.data.take final.length)).reposition out.currIndex)
            (.string :: rest.map Item.shape) = .ok (.string str :: rest, s)

def Refused (out : COutStream) (str : Str) : Prop := out.putString m str = .ok out

end Records

theorem inside_holds {m : Machine} {out : COutStream}
    (inside : out.currIndex ≤ out.buffer.length) (sized : out.buffer.length < sizeCount m.toHost) :
    Holds m out (out.buffer.take out.currIndex) := by
  have length : (out.buffer.take out.currIndex).length = out.currIndex := by simp [inside]
  refine ⟨length.symm, ?_, sized, ?_⟩
  · rw [length]
    exact inside
  · rw [length]

theorem record_read {m : Machine} {out next : COutStream} {item : Item}
    (inside : out.currIndex ≤ out.buffer.length) (sized : out.buffer.length < sizeCount m.toHost)
    (room : out.currIndex + (wire item.sent).length < sizeCount m.toHost)
    (run : put m out item = .ok next) {rest : List Item} (fits : ∀ x ∈ rest, x.Fits)
    (later : next.currIndex + (rest.flatMap wire).length < sizeCount m.toHost) :
    ∃ final, putAll m next rest = .ok final ∧
      ∀ (reader : Machine) (asserts : Bool), final.length < sizeCount reader.toHost →
        ∃ s, getAll reader asserts
          ((CInStream.setData (final.data.take final.length)).reposition out.currIndex)
          (item.shape :: rest.map Item.shape) = .ok (item.sent :: rest, s) := by
  have before := inside_holds inside sized
  have start : (out.buffer.take out.currIndex).length = out.currIndex := by simp [inside]
  obtain ⟨same, put, holds⟩ := put_wire before (by rwa [List.length_append, start])
  obtain rfl := Except.ok.inj (run.symm.trans put)
  rw [holds.cursor] at later
  obtain ⟨final, others, tape⟩ := put_script holds fits (by rwa [List.length_append])
  refine ⟨final, others, ?_⟩
  intro reader asserts copied
  rw [COutStream.length, tape.cursor] at copied
  have ahead : Ahead reader ((CInStream.setData (final.data.take final.length)).reposition
      out.currIndex) ((item.sent :: rest).flatMap wire ++ []) := by
    rw [COutStream.data, COutStream.length, tape.cursor, tape.contents]
    refine ⟨?_, copied, ?_⟩
    · simp only [CInStream.reposition, CInStream.setData, List.length_append, start]
      omega
    · simp only [CInStream.reposition, CInStream.setData, List.append_assoc, List.append_nil,
        List.flatMap_cons]
      exact List.drop_left' start
  have every : ∀ x ∈ item.sent :: rest, x.Fits := by
    intro x member
    rcases List.mem_cons.mp member with rfl | other
    · exact sent_fits item
    · exact fits x other
  obtain ⟨s, read, _⟩ := get_script asserts ahead every
  rw [List.map_cons, sent_shape] at read
  exact ⟨s, read⟩

theorem wire_string_length (str : Str) :
    (wire (Item.string str)).length = 2 + str.length := by
  rw [wire, List.length_append, network_length]

theorem short_recovered {m : Machine} {out : COutStream} {str : Str}
    (inside : out.currIndex ≤ out.buffer.length) (sized : out.buffer.length < sizeCount m.toHost)
    (short : str.length ≤ 65535)
    (room : out.currIndex + (2 + str.length) < sizeCount m.toHost) : Recovered m out str := by
  have same : (Item.string str).sent = .string str := sent_of_fits short
  have ample : out.currIndex + (wire (Item.string str).sent).length < sizeCount m.toHost := by
    rwa [same, wire_string_length]
  have run := put_inside inside sized ample
  refine ⟨_, run, ?_⟩
  intro rest fits later
  obtain ⟨final, others, read⟩ := record_read inside sized ample run fits later
  rw [same] at read
  exact ⟨final, others, read⟩

theorem putString_behind {m : Machine} {out : COutStream} (str : Str)
    (behind : out.buffer.length < out.currIndex) (range : out.currIndex < sizeCount m.toHost) :
    out.putString m str = .error .outOfBounds := by
  have wide : 2 ^ 16 ≤ sizeCount m.toHost := Nat.pow_le_pow_right (by decide) m.wide
  have length : (network 2 (UInt16.ofNat str.length).toNat).length = 2 := network_length ..
  have trapped :
      out.append m (network 2 (UInt16.ofNat str.length).toNat) = .error .outOfBounds := by
    refine append_behind behind range ?_ ?_
    · omega
    · exact List.ne_nil_of_length_pos (by omega)
  rw [COutStream.putString, COutStream.putUInt16, inMemory_hton16, trapped]
  rfl

theorem kept_is_short {m : Machine} {out : COutStream} {str : Str}
    (inside : out.currIndex ≤ out.buffer.length) (sized : out.buffer.length < sizeCount m.toHost)
    (room : out.currIndex + (wire (Item.string str).sent).length < sizeCount m.toHost)
    (kept : Recovered m out str ∨ Refused m out str) : (Item.string str).sent = .string str := by
  have run := put_inside inside sized room
  rcases kept with ⟨next, again, reads⟩ | refused
  · obtain rfl := Except.ok.inj (run.symm.trans again)
    have empty : ∀ x ∈ ([] : List Item), x.Fits := List.forall_mem_nil _
    obtain ⟨final, others, read⟩ := record_read inside sized room run empty room
    obtain ⟨same, others', read'⟩ := reads [] empty room
    obtain rfl := Except.ok.inj (others.symm.trans others')
    have copied : final.length < sizeCount m.toHost := by
      obtain rfl := Except.ok.inj others
      exact room
    obtain ⟨s, found⟩ := read m true copied
    obtain ⟨s', found'⟩ := read' m true copied
    have both := Except.ok.inj (found.symm.trans found')
    exact (List.cons.inj (Prod.mk.inj both).1).1
  · have moved := congrArg COutStream.currIndex (Except.ok.inj (run.symm.trans refused))
    simp only [Item.sent, wire_string_length] at moved
    omega

theorem kept_fits {m : Machine} {out : COutStream} {str : Str}
    (sized : out.buffer.length < sizeCount m.toHost) (range : out.currIndex < sizeCount m.toHost)
    (kept : Recovered m out str ∨ Refused m out str) :
    str.length ≤ 65535 ∧ out.currIndex ≤ out.buffer.length ∧
      out.currIndex + (2 + str.length) < sizeCount m.toHost := by
  have returned : ∃ next, out.putString m str = .ok next := by
    rcases kept with ⟨next, run, _⟩ | refused
    · exact ⟨next, run⟩
    · exact ⟨out, refused⟩
  obtain ⟨next, run⟩ := returned
  have inside : out.currIndex ≤ out.buffer.length := by
    by_contra behind
    rw [putString_behind str (Nat.lt_of_not_le behind) range] at run
    cases run
  have room : out.currIndex + (wire (Item.string str).sent).length < sizeCount m.toHost := by
    by_contra wraps
    rw [← chunks_flatten] at wraps
    have trapped := appends_wrap inside sized (@chunks_short _ (.string str) trivial)
      (Nat.le_of_not_lt wraps)
    rw [← put_chunks] at trapped
    cases run.symm.trans trapped
  have same := kept_is_short inside sized room kept
  have short := sent_fits (.string str)
  rw [same] at short room
  rw [wire_string_length] at room
  exact ⟨short, inside, room⟩

/-- A string is read back, with the values behind it, or refused, exactly when its length
    fits the prefix and the record fits behind a cursor in the buffer. -/
theorem string_kept_iff (m : Machine) (out : COutStream) (str : Str)
    (sized : out.buffer.length < sizeCount m.toHost) (range : out.currIndex < sizeCount m.toHost) :
    (Recovered m out str ∨ Refused m out str) ↔
      str.length ≤ 65535 ∧ out.currIndex ≤ out.buffer.length ∧
        out.currIndex + (2 + str.length) < sizeCount m.toHost := by
  constructor
  · exact kept_fits sized range
  · rintro ⟨short, inside, room⟩
    exact .inl (short_recovered inside sized short room)

/-- A short string behind a byte that is already there. -/
theorem short_string_kept :
    (Recovered littleHost ⟨[9], 1⟩ [ch 'o', ch 'k'] ∨ Refused littleHost ⟨[9], 1⟩ [ch 'o', ch 'k'])
      ↔ 2 ≤ 65535 ∧ 1 ≤ 1 ∧ 1 + (2 + 2) < sizeCount littleHost.toHost :=
  string_kept_iff littleHost ⟨[9], 1⟩ [ch 'o', ch 'k'] (by decide) (by decide)

/-- One character more than the prefix can count, and the reader gets an empty string. -/
theorem long_string_lost :
    ¬ ∀ (m : Machine) (out : COutStream) (str : Str), out.buffer.length < sizeCount m.toHost →
      out.currIndex < sizeCount m.toHost → Recovered m out str ∨ Refused m out str := by
  intro every
  have kept := every littleHost ⟨[], 0⟩ (List.replicate 65536 0) (by decide) (by decide)
  have short := (kept_fits (by decide) (by decide) kept).1
  rw [List.length_replicate] at short
  omega

end StringRecords
