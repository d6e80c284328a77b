import Boring.Base.StringUtil
import Boring.Library.WordBytes
import Mathlib.Tactic.IntervalCases

/- util.cpp: the byte order of the host and the conversions hton16, hton32 and hton64, and
   the macros BSWAP of boring.h. The host keeps an integer in memory with its most or its
   least significant byte first. -/
namespace ByteOrder
open StringUtil WordBytes

structure Machine extends Host where
  bigEndian : Bool

section Conversions

variable (m : Machine)

/-- The bytes in memory of an integer of `count` bytes, and the integer of such bytes. -/
def inMemory (count n : Nat) : List UInt8 :=
  if m.bigEndian then (digits count n).reverse else digits count n

def fromMemory (bytes : List UInt8) : Nat :=
  if m.bigEndian then number bytes.reverse else number bytes

def isBigEndian : Bool := (inMemory m 2 1).headD 0 = 0

def hton16 (host16 : UInt16) : UInt16 :=
  if isBigEndian m then host16
  else (0xff &&& host16) <<< 8 ||| (host16 >>> 8) &&& 0xff

def hton32 (host32 : UInt32) : UInt32 :=
  if isBigEndian m then host32
  else (0x000000ff &&& host32) <<< 24 |||
       (0x0000ff00 &&& host32) <<< 8 |||
       (0x00ff0000 &&& host32) >>> 8 |||
       (0xff000000 &&& host32) >>> 24

def hton64 (host64 : UInt64) : UInt64 :=
  if isBigEndian m then host64
  else (0x00000000000000ff &&& host64) <<< 56 |||
       (0x000000000000ff00 &&& host64) <<< 40 |||
       (0x0000000000ff0000 &&& host64) <<< 24 |||
       (0x00000000ff000000 &&& host64) <<< 8 |||
       (0x000000ff00000000 &&& host64) >>> 8 |||
       (0x0000ff0000000000 &&& host64) >>> 24 |||
       (0x00ff000000000000 &&& host64) >>> 40 |||
       (0xff00000000000000 &&& host64) >>> 56

end Conversions

/- The macros take an argument of any integer type and compute in that type. -/
section Macros

variable {α : Type} [AndOp α] [OrOp α] [ShiftLeft α] [ShiftRight α] [∀ n, OfNat α n]

def BSWAP_8 (x : α) : α := x &&& 0xff

def BSWAP_16 (x : α) : α := BSWAP_8 x <<< (8 : α) ||| BSWAP_8 (x >>> (8 : α))

def BSWAP_32 (x : α) : α := BSWAP_16 x <<< (16 : α) ||| BSWAP_16 (x >>> (16 : α))

def BSWAP_64 (x : α) : α := BSWAP_32 x <<< (32 : α) ||| BSWAP_32 (x >>> (32 : α))

end Macros

def promoted (v : UInt16) : Int32 := v.toUInt32.toInt32

/-- The specification: the digits with the most significant first, on every host. -/
def network (count n : Nat) : List UInt8 := (digits count n).reverse

theorem isBigEndian_host (m : Machine) : isBigEndian m = m.bigEndian := by
  cases order : m.bigEndian <;> simp [isBigEndian, inMemory, order, digits]

theorem fromMemory_inMemory (m : Machine) {count n : Nat} (small : n < 256 ^ count) :
    fromMemory m (inMemory m count n) = n := by
  cases order : m.bigEndian <;> simp [fromMemory, inMemory, order, number_digits small]

theorem digits16 (v : UInt16) : digits 2 v.toNat = [v.toUInt8, (v >>> 8).toUInt8] := by
  simp only [digits, List.cons.injEq, and_true, ← UInt8.toNat_inj]
  simp [Nat.shiftRight_eq_div_pow]

theorem digits32 (v : UInt32) : digits 4 v.toNat =
    [v.toUInt8, (v >>> 8).toUInt8, (v >>> 16).toUInt8, (v >>> 24).toUInt8] := by
  simp only [digits, List.cons.injEq, and_true, ← UInt8.toNat_inj]
  simp [Nat.shiftRight_eq_div_pow, Nat.div_div_eq_div_mul]

theorem digits64 (v : UInt64) : digits 8 v.toNat =
    [v.toUInt8, (v >>> 8).toUInt8, (v >>> 16).toUInt8, (v >>> 24).toUInt8,
      (v >>> 32).toUInt8, (v >>> 40).toUInt8, (v >>> 48).toUInt8, (v >>> 56).toUInt8] := by
  simp only [digits, List.cons.injEq, and_true, ← UInt8.toNat_inj]
  simp [Nat.shiftRight_eq_div_pow, Nat.div_div_eq_div_mul]

theorem byte_ext {a b : UInt8}
    (bits : ∀ i < 8, a.toBitVec.getLsbD i = b.toBitVec.getLsbD i) : a = b :=
  UInt8.eq_of_toBitVec_eq (BitVec.eq_of_getLsbD_eq bits)

theorem hton16_little {m : Machine} (little : m.bigEndian = false) (v : UInt16) :
    digits 2 (hton16 m v).toNat = (digits 2 v.toNat).reverse := by
  rw [digits16, digits16, hton16, isBigEndian_host, little, if_neg Bool.false_ne_true,
    List.reverse_cons, List.reverse_singleton, List.singleton_append, List.cons.injEq,
    List.cons.injEq]
  refine ⟨?_, ?_, rfl⟩ <;>
  · apply byte_ext
    intro i small
    interval_cases i <;> simp

theorem hton32_little {m : Machine} (little : m.bigEndian = false) (v : UInt32) :
    digits 4 (hton32 m v).toNat = (digits 4 v.toNat).reverse := by
  rw [digits32, digits32, hton32, isBigEndian_host, little, if_neg Bool.false_ne_true]
  simp only [List.reverse_cons, List.reverse_nil, List.nil_append, List.cons_append,
    List.cons.injEq, and_true]
  refine ⟨?_, ?_, ?_, ?_⟩ <;>
  · apply byte_ext
    intro i small
    interval_cases i <;> simp

theorem hton64_little {m : Machine} (little : m.bigEndian = false) (v : UInt64) :
    digits 8 (hton64 m v).toNat = (digits 8 v.toNat).reverse := by
  rw [digits64, digits64, hton64, isBigEndian_host, little, if_neg Bool.false_ne_true]
  simp only [List.reverse_cons, List.reverse_nil, List.nil_append, List.cons_append,
    List.cons.injEq, and_true]
  refine ⟨?_, ?_, ?_, ?_, ?_, ?_, ?_, ?_⟩ <;>
  · apply byte_ext
    intro i small
    simp only [UInt64.toBitVec_toUInt8, UInt64.toBitVec_or, UInt64.toBitVec_and,
      UInt64.toBitVec_shiftLeft, UInt64.toBitVec_shiftRight, UInt64.toBitVec_ofNat,
      BitVec.ofNat_eq_ofNat, BitVec.shiftLeft_eq', BitVec.ushiftRight_eq', BitVec.toNat_ofNat,
      BitVec.toNat_umod, BitVec.getLsbD_setWidth, BitVec.getLsbD_or, BitVec.getLsbD_and,
      BitVec.getLsbD_shiftLeft, BitVec.getLsbD_ushiftRight, Nat.reducePow, Nat.reduceMod]
    interval_cases i <;>
      simp only [Nat.reduceLT, Nat.reduceSub, Nat.reduceAdd, decide_true, decide_false,
        Bool.not_true, Bool.not_false, Bool.true_and, Bool.and_true, Bool.false_and,
        Bool.and_false, Bool.or_false, Bool.false_or, BitVec.reduceGetLsb]

/-- A conversion that reverses the digits on a little-endian host and leaves them on a
    big-endian one stores the digits in network order on both. -/
theorem inMemory_network {m : Machine} {count n swapped : Nat}
    (little : m.bigEndian = false → digits count swapped = (digits count n).reverse)
    (big : m.bigEndian = true → swapped = n) : inMemory m count swapped = network count n := by
  cases order : m.bigEndian with
  | false => rw [inMemory, order, if_neg Bool.false_ne_true, little order, network]
  | true => rw [inMemory, order, if_pos rfl, big order, network]

theorem hton16_big {m : Machine} (big : m.bigEndian = true) (v : UInt16) : hton16 m v = v := by
  rw [hton16, isBigEndian_host, big, if_pos rfl]

theorem hton32_big {m : Machine} (big : m.bigEndian = true) (v : UInt32) : hton32 m v = v := by
  rw [hton32, isBigEndian_host, big, if_pos rfl]

theorem hton64_big {m : Machine} (big : m.bigEndian = true) (v : UInt64) : hton64 m v = v := by
  rw [hton64, isBigEndian_host, big, if_pos rfl]

theorem inMemory_hton16 (m : Machine) (v : UInt16) :
    inMemory m 2 (hton16 m v).toNat = network 2 v.toNat :=
  inMemory_network (hton16_little · v) fun big => by rw [hton16_big big]

theorem inMemory_hton32 (m : Machine) (v : UInt32) :
    inMemory m 4 (hton32 m v).toNat = network 4 v.toNat :=
  inMemory_network (hton32_little · v) fun big => by rw [hton32_big big]

theorem inMemory_hton64 (m : Machine) (v : UInt64) :
    inMemory m 8 (hton64 m v).toNat = network 8 v.toNat :=
  inMemory_network (hton64_little · v) fun big => by rw [hton64_big big]

theorem hton16_twice (m : Machine) (v : UInt16) : hton16 m (hton16 m v) = v := by
  cases order : m.bigEndian with
  | true => rw [hton16_big order, hton16_big order]
  | false =>
    have same : digits 2 (hton16 m (hton16 m v)).toNat = digits 2 v.toNat := by
      rw [hton16_little order, hton16_little order, List.reverse_reverse]
    exact UInt16.toNat_inj.mp (digits_inj (UInt16.toNat_lt _) (UInt16.toNat_lt _) same)

theorem hton32_twice (m : Machine) (v : UInt32) : hton32 m (hton32 m v) = v := by
  cases order : m.bigEndian with
  | true => rw [hton32_big order, hton32_big order]
  | false =>
    have same : digits 4 (hton32 m (hton32 m v)).toNat = digits 4 v.toNat := by
      rw [hton32_little order, hton32_little order, List.reverse_reverse]
    exact UInt32.toNat_inj.mp (digits_inj (UInt32.toNat_lt _) (UInt32.toNat_lt _) same)

theorem hton64_twice (m : Machine) (v : UInt64) : hton64 m (hton64 m v) = v := by
  cases order : m.bigEndian with
  | true => rw [hton64_big order, hton64_big order]
  | false =>
    have same : digits 8 (hton64 m (hton64 m v)).toNat = digits 8 v.toNat := by
      rw [hton64_little order, hton64_little order, List.reverse_reverse]
    exact UInt64.toNat_inj.mp (digits_inj (UInt64.toNat_lt _) (UInt64.toNat_lt _) same)

theorem hton16_network (m : Machine) (v : UInt16) :
    hton16 m (UInt16.ofNat (fromMemory m (network 2 v.toNat))) = v := by
  rw [← inMemory_hton16 m, fromMemory_inMemory m (UInt16.toNat_lt _), UInt16.ofNat_toNat,
    hton16_twice]

theorem hton32_network (m : Machine) (v : UInt32) :
    hton32 m (UInt32.ofNat (fromMemory m (network 4 v.toNat))) = v := by
  rw [← inMemory_hton32 m, fromMemory_inMemory m (UInt32.toNat_lt _), UInt32.ofNat_toNat,
    hton32_twice]

theorem BSWAP_16_hton {m : Machine} (little : m.bigEndian = false) (v : UInt16) :
    BSWAP_16 (promoted v) = promoted (hton16 m v) := by
  rw [hton16, isBigEndian_host, little, if_neg Bool.false_ne_true]
  apply Int32.toBitVec_inj.mp
  apply BitVec.eq_of_getLsbD_eq
  intro i small
  simp only [BSWAP_16, BSWAP_8, promoted, Int32.toBitVec_or, Int32.toBitVec_and,
    Int32.toBitVec_shiftLeft, Int32.toBitVec_shiftRight, UInt32.toBitVec_toInt32,
    UInt16.toBitVec_toUInt32, UInt16.toBitVec_or, UInt16.toBitVec_and,
    UInt16.toBitVec_shiftLeft, UInt16.toBitVec_shiftRight]
  interval_cases i <;> simp [BitVec.getElem_sshiftRight]

theorem BSWAP_32_hton {m : Machine} (little : m.bigEndian = false) (v : UInt32) :
    BSWAP_32 v = hton32 m v := by
  rw [hton32, isBigEndian_host, little, if_neg Bool.false_ne_true]
  apply UInt32.toBitVec_inj.mp
  apply BitVec.eq_of_getLsbD_eq
  intro i small
  simp only [BSWAP_32, BSWAP_16, BSWAP_8]
  interval_cases i <;> simp

theorem BSWAP_64_hton {m : Machine} (little : m.bigEndian = false) (v : UInt64) :
    BSWAP_64 v = hton64 m v := by
  rw [hton64, isBigEndian_host, little, if_neg Bool.false_ne_true]
  apply UInt64.toBitVec_inj.mp
  apply BitVec.eq_of_getLsbD_eq
  intro i small
  unfold BSWAP_64 BSWAP_32 BSWAP_16 BSWAP_8
  simp only [UInt64.toBitVec_or, UInt64.toBitVec_and, UInt64.toBitVec_shiftLeft,
    UInt64.toBitVec_shiftRight, UInt64.toBitVec_ofNat, BitVec.ofNat_eq_ofNat,
    BitVec.shiftLeft_eq', BitVec.ushiftRight_eq', BitVec.toNat_ofNat, BitVec.toNat_umod,
    BitVec.getLsbD_or, BitVec.getLsbD_and, BitVec.getLsbD_shiftLeft,
    BitVec.getLsbD_ushiftRight, Nat.reducePow, Nat.reduceMod]
  interval_cases i <;>
    simp only [Nat.reduceLT, Nat.reduceSub, Nat.reduceAdd, decide_true, decide_false,
      Bool.not_true, Bool.not_false, Bool.true_and, Bool.and_true, Bool.false_and,
      Bool.and_false, Bool.or_false, Bool.false_or, BitVec.reduceGetLsb]

/-- Each conversion stores the digits in network order, is its own inverse and, on a
    little-endian host, is the macro of its width. -/
theorem conversions_agree (m : Machine) :
    (∀ v : UInt16, inMemory m 2 (hton16 m v).toNat = network 2 v.toNat ∧
      hton16 m (hton16 m v) = v ∧
      (m.bigEndian = false → BSWAP_16 (promoted v) = promoted (hton16 m v))) ∧
    (∀ v : UInt32, inMemory m 4 (hton32 m v).toNat = network 4 v.toNat ∧
      hton32 m (hton32 m v) = v ∧ (m.bigEndian = false → BSWAP_32 v = hton32 m v)) ∧
    ∀ v : UInt64, inMemory m 8 (hton64 m v).toNat = network 8 v.toNat ∧
      hton64 m (hton64 m v) = v ∧ (m.bigEndian = false → BSWAP_64 v = hton64 m v) :=
  ⟨fun v => ⟨inMemory_hton16 m v, hton16_twice m v, (BSWAP_16_hton · v)⟩,
    fun v => ⟨inMemory_hton32 m v, hton32_twice m v, (BSWAP_32_hton · v)⟩,
    fun v => ⟨inMemory_hton64 m v, hton64_twice m v, (BSWAP_64_hton · v)⟩⟩

theorem conversions_agree_little :
    BSWAP_16 (promoted 0xfe01) = promoted (hton16 ⟨⟨64, by decide⟩, false⟩ 0xfe01) ∧
    BSWAP_32 (0xfe010203 : UInt32) = hton32 ⟨⟨64, by decide⟩, false⟩ 0xfe010203 ∧
    BSWAP_64 (0xfe01020304050607 : UInt64) =
      hton64 ⟨⟨64, by decide⟩, false⟩ 0xfe01020304050607 :=
  ⟨((conversions_agree _).1 _).2.2 rfl, ((conversions_agree _).2.1 _).2.2 rfl,
    ((conversions_agree _).2.2 _).2.2 rfl⟩

@[simp] theorem network_length (count n : Nat) : (network count n).length = count := by
  rw [network, List.length_reverse, digits_length]

end ByteOrder
