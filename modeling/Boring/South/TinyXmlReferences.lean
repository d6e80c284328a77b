import Boring.South.TinyXmlCodec
import Mathlib.Data.Nat.Digits.Defs

/- References by number, and what EncodeString copies without looking at it. -/
namespace TinyXmlReferences
open TinyXmlText TinyXmlCodec
open HexText (forall_bytes)

/-- What the inner loop of EncodeString copies from `t` on holds the character `q`. -/
def Uncovered (q : UInt8) (t : Chars) : Prop := ∃ b c, t = b ++ q :: c ∧ 59 ∉ b ∧ c ≠ []

/-- A `q` behind some "&#x", with no ';' between them, and not the last character. -/
def Escapes (q : UInt8) (s : Chars) : Prop :=
  ∃ a t, s = a ++ 38 :: 35 :: 120 :: t ∧ Uncovered q t

theorem uncovered_cons (q c : UInt8) (t : Chars) :
    Uncovered q (c :: t) ↔ (c = q ∧ t ≠ []) ∨ (c ≠ 59 ∧ Uncovered q t) := by
  constructor
  · rintro ⟨_ | ⟨d, b⟩, rest, split, covered, more⟩
    · obtain ⟨rfl, rfl⟩ := List.cons.inj split
      exact .inl ⟨rfl, more⟩
    · obtain ⟨rfl, rfl⟩ := List.cons.inj split
      exact .inr ⟨fun same => covered (by simp [same]),
        b, rest, rfl, fun member => covered (by simp [member]), more⟩
  · rintro (⟨rfl, more⟩ | ⟨other, b, rest, rfl, covered, more⟩)
    · exact ⟨[], t, rfl, by simp, more⟩
    · exact ⟨c :: b, rest, rfl, by simp [Ne.symm other, covered], more⟩

theorem escapes_cons (q c : UInt8) (s : Chars) :
    Escapes q (c :: s) ↔
      (c = 38 ∧ ∃ t, s = 35 :: 120 :: t ∧ Uncovered q t) ∨ Escapes q s := by
  constructor
  · rintro ⟨_ | ⟨d, a⟩, t, split, found⟩
    · obtain ⟨rfl, rfl⟩ := List.cons.inj split
      exact .inl ⟨rfl, t, rfl, found⟩
    · obtain ⟨rfl, rfl⟩ := List.cons.inj split
      exact .inr ⟨a, t, rfl, found⟩
  · rintro (⟨rfl, t, rfl, found⟩ | ⟨a, t, rfl, found⟩)
    · exact ⟨[], t, rfl, found⟩
    · exact ⟨c :: a, t, rfl, found⟩

theorem uncovered_nil (q : UInt8) : ¬ Uncovered q [] := by
  rintro ⟨b, c, split, -⟩
  simp at split

theorem escapes_nil (q : UInt8) : ¬ Escapes q [] := by
  rintro ⟨a, t, split, -⟩
  simp at split

def Markup (q : UInt8) : Prop := q = 34 ∨ q = 39 ∨ q = 60 ∨ q = 62

theorem encodeChar_markup {q : UInt8} (markup : Markup q) : ∀ c, q ∉ encodeChar c := by
  rcases markup with rfl | rfl | rfl | rfl <;> exact forall_bytes (by decide +kernel)

theorem mem_encodeLoop {q : UInt8} (markup : Markup q) (s : Chars) :
    (q ∈ encodeLoop false s ↔ Escapes q s) ∧
    (s.head? ≠ some 59 → (q ∈ encodeLoop true s ↔ Uncovered q s ∨ Escapes q s)) := by
  have special : q ≠ 38 ∧ q ≠ 35 ∧ q ≠ 120 ∧ q ≠ 59 := by
    rcases markup with rfl | rfl | rfl | rfl <;> decide
  obtain ⟨amp, hash, x, semicolon⟩ := special
  induction s with
  | nil => simp [encodeLoop, uncovered_nil, escapes_nil]
  | cons c s ih =>
    refine ⟨?_, fun inside => ?_⟩
    · rw [escapes_cons, encodeLoop]
      by_cases reference : c = 38 ∧ s.take 2 = [35, 120]
      · obtain ⟨rfl, next⟩ := reference
        obtain ⟨t, rfl⟩ : ∃ t, s = 35 :: 120 :: t := by
          refine ⟨s.drop 2, ?_⟩
          conv_lhs => rw [← List.take_append_drop 2 s, next]
          rfl
        rw [if_pos ⟨rfl, next⟩, List.mem_cons, ih.2 (by simp)]
        simp [uncovered_cons, amp, Ne.symm hash, Ne.symm x]
      · have elsewhere : ¬ (c = 38 ∧ ∃ t, s = 35 :: 120 :: t ∧ Uncovered q t) := by
          rintro ⟨rfl, t, rfl, -⟩
          exact reference ⟨rfl, rfl⟩
        rw [if_neg reference, List.mem_append, ih.1]
        simp only [encodeChar_markup markup c, elsewhere, false_or]
    · cases s with
      | nil =>
        simp [encodeLoop, encodeChar_markup markup c, uncovered_cons, escapes_cons, escapes_nil,
          uncovered_nil]
      | cons d s =>
        have outside : c ≠ 59 := by simpa using inside
        rw [encodeLoop, List.mem_cons, uncovered_cons, escapes_cons]
        by_cases close : d = 59
        · subst close
          have flag : ((59 : UInt8) != 59) = false := rfl
          have covered : ¬ Uncovered q (59 :: s) := by
            simp [uncovered_cons, Ne.symm semicolon]
          rw [flag, ih.1, @eq_comm _ q c]
          simp [covered]
        · have flag : (d != 59) = true := by simpa using close
          rw [flag, ih.2 (by simpa using close)]
          have absorbed : (c = 38 ∧ ∃ t, d :: s = 35 :: 120 :: t ∧ Uncovered q t) →
              Uncovered q (d :: s) := by
            rintro ⟨-, t, split, found⟩
            rw [split]
            simp [uncovered_cons, found]
          constructor
          · rintro (rfl | found | found)
            · exact .inl (.inl ⟨rfl, by simp⟩)
            · exact .inl (.inr ⟨outside, found⟩)
            · exact .inr (.inr found)
          · rintro ((⟨same, -⟩ | ⟨-, found⟩) | (inner | found))
            · exact .inl same.symm
            · exact .inr (.inl found)
            · exact .inr (.inl (absorbed inner))
            · exact .inr (.inr found)

/-- A quote or an angle bracket stands raw in the encoded text exactly where the text has it
    behind "&#x" with no ';' in between, the last character apart. -/
theorem markup_left_raw_iff {q : UInt8} (markup : Markup q) (s : Chars) :
    q ∈ encodeString s ↔
      ∃ a b c, s = a ++ 38 :: 35 :: 120 :: (b ++ q :: c) ∧ 59 ∉ b ∧ c ≠ [] := by
  rw [encodeString, (mem_encodeLoop markup s).1]
  constructor
  · rintro ⟨a, t, rfl, b, c, rfl, covered, more⟩
    exact ⟨a, b, c, rfl, covered, more⟩
  · rintro ⟨a, b, c, rfl, covered, more⟩
    exact ⟨a, _, rfl, b, c, rfl, covered, more⟩

theorem script_left_raw : 60 ∈ encodeString [38, 35, 120, 60, 98] :=
  (markup_left_raw_iff (.inr (.inr (.inl rfl))) _).mpr
    ⟨[], [], [98], rfl, by simp, by simp⟩

section Numbers

inductive Radix where
  | hexadecimal
  | decimal

def Radix.opening : Radix → Chars
  | .hexadecimal => [38, 35, 120]
  | .decimal => [38, 35]

def Radix.base : Radix → Nat
  | .hexadecimal => 16
  | .decimal => 10

def Radix.value : Radix → UInt8 → Option UInt32
  | .hexadecimal => hexValue
  | .decimal => decimalValue

/-- The characters of a numeral and the values of its digits, the last digit first. -/
def Numeral (radix : Radix) (digits : Chars) (values : List Nat) : Prop :=
  List.Forall₂ (fun d n => radix.value d = some (UInt32.ofNat n)) digits.reverse values

theorem digit_plain : ∀ c : UInt8,
    ((hexValue c).isSome → c ≠ 59 ∧ c ≠ 120 ∧ c ≠ 35) ∧
      ((decimalValue c).isSome → c ≠ 59 ∧ c ≠ 120 ∧ c ≠ 35) :=
  forall_bytes (by decide +kernel)

theorem Radix.digit_plain (radix : Radix) {c : UInt8} {x : UInt32}
    (digit : radix.value c = some x) : c ≠ 59 ∧ c ≠ 120 ∧ c ≠ 35 := by
  cases radix with
  | hexadecimal =>
    exact (TinyXmlReferences.digit_plain c).1 (by simp [show hexValue c = _ from digit])
  | decimal =>
    exact (TinyXmlReferences.digit_plain c).2 (by simp [show decimalValue c = _ from digit])

/-- The multiplier and the sum wrap at 2^32 together with the number. -/
theorem digitLoop_value {radix : Radix} {mark : UInt8} (marked : mark = 120 ∨ mark = 35)
    {left : Chars} {values : List Nat}
    (digits : List.Forall₂ (fun d n => radix.value d = some (UInt32.ofNat n)) left values) :
    ∀ mult ucs, digitLoop radix.value (UInt32.ofNat radix.base) mark left mult ucs =
      some (ucs + mult * UInt32.ofNat (Nat.ofDigits radix.base values)) := by
  induction digits with
  | nil => simp [digitLoop]
  | @cons d n left values digit rest ih =>
    intro mult ucs
    have plain := radix.digit_plain digit
    have other : d ≠ mark := by
      rcases marked with rfl | rfl
      · exact plain.2.1
      · exact plain.2.2
    rw [digitLoop, if_neg other, digit]
    simp only [ih, Nat.ofDigits_cons, UInt32.ofNat_add, UInt32.ofNat_mul, UInt32.mul_add,
      UInt32.mul_assoc, UInt32.add_assoc]

theorem numeral_plain {radix : Radix} {digits : Chars} {values : List Nat}
    (numeral : Numeral radix digits values) : ∀ d ∈ digits, d ≠ 59 ∧ d ≠ 120 ∧ d ≠ 35 := by
  have each {left : Chars} {values : List Nat}
      (all : List.Forall₂ (fun d n => radix.value d = some (UInt32.ofNat n)) left values) :
      ∀ d ∈ left, d ≠ 59 ∧ d ≠ 120 ∧ d ≠ 35 := by
    induction all with
    | nil => simp
    | @cons d n left values digit rest ih =>
      intro e member
      rcases List.mem_cons.mp member with rfl | later
      · exact radix.digit_plain digit
      · exact ih e later
  exact fun d member => each numeral d (List.mem_reverse.mpr member)

theorem getEntity_decimal {encoding : TiXmlEncoding} {d : UInt8} {q : Chars} (other : d ≠ 120) :
    getEntity encoding (38 :: 35 :: d :: q) =
      numericReference encoding decimalValue 10 35 (d :: q) := by
  unfold getEntity
  split
  · rename_i same
    simp_all
  · rename_i same
    simp only [List.cons.injEq] at same
    rw [same.2.2.1, same.2.2.2]
  · rename_i none
    exact absurd rfl (none 38 d q)

theorem getEntity_number {radix : Radix} {digits : Chars} {values : List Nat}
    (encoding : TiXmlEncoding) (numeral : Numeral radix digits values) (rest : Chars) :
    getEntity encoding (radix.opening ++ (digits ++ 59 :: rest)) =
      let ucs := UInt32.ofNat (Nat.ofDigits radix.base values)
      some (if encoding = .UTF8 then convertUTF32ToUTF8 ucs else [ucs.toUInt8], rest) := by
  have plain : ∀ d ∈ digits, (!decide (d = 59)) = true := fun d member => by
    simp [(numeral_plain numeral d member).1]
  have value (mark : UInt8) (marked : mark = 120 ∨ mark = 35) :
      numericReference encoding radix.value (UInt32.ofNat radix.base) mark (digits ++ 59 :: rest) =
        some (if encoding = .UTF8
          then convertUTF32ToUTF8 (UInt32.ofNat (Nat.ofDigits radix.base values))
          else [(UInt32.ofNat (Nat.ofDigits radix.base values)).toUInt8], rest) := by
    have number := digitLoop_value marked numeral 1 0
    rw [UInt32.one_mul, UInt32.zero_add] at number
    simp only [numericReference, ne_eq, decide_not, List.dropWhile_append_of_pos plain,
      List.takeWhile_append_of_pos plain]
    simp only [decide_true, Bool.not_true, Bool.false_eq_true, not_false_eq_true,
      List.dropWhile_cons_of_neg, List.takeWhile_cons_of_neg, List.append_nil, number]
    split <;> rfl
  cases radix with
  | hexadecimal =>
    have read := value 120 (.inl rfl)
    simp only [Radix.opening, List.cons_append, List.nil_append, getEntity]
    rw [if_neg (by simp)]
    exact read
  | decimal =>
    have read := value 35 (.inr rfl)
    cases digits with
    | nil => exact (getEntity_decimal (by decide)).trans read
    | cons d digits =>
      have other : d ≠ 120 := (numeral_plain numeral d (by simp)).2.1
      exact (getEntity_decimal other).trans read

theorem low_bits : ∀ x : UInt8, (x ||| 0x80) &&& 0xbf = x &&& 0x3f ||| 0x80 :=
  forall_bytes (by decide +kernel)

theorem lead_bits : ∀ x : UInt8, (x.toNat < 0x20 → x &&& 0x1f = x) ∧
    (x.toNat < 0x10 → x &&& 0x0f = x) ∧ (x.toNat < 0x08 → x &&& 0x07 = x) :=
  forall_bytes (by decide +kernel)

theorem announced : ∀ x : UInt8, (x.toNat < 128 → utf8ByteTable x = 1) ∧
    (2 ≤ x.toNat → x.toNat < 32 → utf8ByteTable (x &&& 0x1f ||| 0xc0) = 2) ∧
    utf8ByteTable (x &&& 0x0f ||| 0xe0) = 3 ∧
    (x.toNat ≤ 4 → utf8ByteTable (x &&& 0x07 ||| 0xf0) = 4) ∧ 128 ≤ (x &&& 0x3f ||| 0x80) :=
  forall_bytes (by decide +kernel)

theorem continuation (v n : UInt32) : (((v >>> n) ||| 0x80) &&& 0xbf).toUInt8 =
    (v >>> n).toUInt8 &&& 0x3f ||| 0x80 := by
  rw [UInt32.toUInt8_and, UInt32.toUInt8_or]
  exact low_bits _

theorem shifted_toNat {v m : UInt32} {n : Nat} (same : m.toNat = n)
    (below : v.toNat < 256 * 2 ^ n) (shift : n < 32) :
    (v >>> m).toUInt8.toNat = v.toNat / 2 ^ n := by
  have less : v.toNat / 2 ^ n < 256 := Nat.div_lt_of_lt_mul (by rwa [Nat.mul_comm])
  rw [UInt32.toNat_toUInt8, UInt32.toNat_shiftRight, same, Nat.mod_eq_of_lt shift,
    Nat.shiftRight_eq_div_pow, Nat.mod_eq_of_lt less]

theorem convertUTF32ToUTF8_char (c : Char) :
    convertUTF32ToUTF8 c.val = String.utf8EncodeChar c := by
  have valid : c.val.toNat < 2097152 := by
    rcases c.valid with low | high
    · omega
    · omega
  have unshifted : c.val >>> 0 = c.val := by simp
  rw [String.utf8EncodeChar_eq_utf8EncodeCharFast]
  simp only [convertUTF32ToUTF8, String.utf8EncodeCharFast, continuation, UInt32.toUInt8_or,
    UInt32.lt_iff_toNat_lt, UInt32.le_iff_toNat_le, UInt32.reduceToNat]
  rw [unshifted]
  rcases Nat.lt_or_ge c.val.toNat 128 with one | one
  · have last : c.val.toNat ≤ 127 := by omega
    rw [if_pos one, if_pos last]
  have first : ¬ c.val.toNat < 128 := by omega
  have second : ¬ c.val.toNat ≤ 127 := by omega
  rw [if_neg first, if_neg second]
  rcases Nat.lt_or_ge c.val.toNat 2048 with two | two
  · have last : c.val.toNat ≤ 2047 := by omega
    have lead : (c.val >>> 6).toUInt8 &&& (0x1f : UInt8) = (c.val >>> 6).toUInt8 :=
      (lead_bits _).1 (by rw [@shifted_toNat c.val 6 6 rfl (by omega) (by decide)]; omega)
    rw [if_pos two, if_pos last]
    rw [lead]
    rfl
  have first : ¬ c.val.toNat < 2048 := by omega
  have second : ¬ c.val.toNat ≤ 2047 := by omega
  rw [if_neg first, if_neg second]
  rcases Nat.lt_or_ge c.val.toNat 65536 with three | three
  · have last : c.val.toNat ≤ 65535 := by omega
    have lead : (c.val >>> 12).toUInt8 &&& (0x0f : UInt8) = (c.val >>> 12).toUInt8 :=
      (lead_bits _).2.1 (by rw [@shifted_toNat c.val 12 12 rfl (by omega) (by decide)]; omega)
    rw [if_pos three, if_pos last]
    rw [lead]
    rfl
  · have first : ¬ c.val.toNat < 65536 := by omega
    have second : ¬ c.val.toNat ≤ 65535 := by omega
    have lead : (c.val >>> 18).toUInt8 &&& (0x07 : UInt8) = (c.val >>> 18).toUInt8 :=
      (lead_bits _).2.2 (by rw [@shifted_toNat c.val 18 18 rfl (by omega) (by decide)]; omega)
    rw [if_neg first, if_pos valid, if_neg second]
    rw [lead]
    rfl

/-- A reference of any length, in either radix, gives the UTF-8 bytes of the character that
    its number names modulo 2^32. -/
theorem reference_names_character {radix : Radix} {digits : Chars} {values : List Nat} {c : Char}
    (numeral : Numeral radix digits values)
    (names : Nat.ofDigits radix.base values % 2 ^ 32 = c.toNat) (rest : Chars) :
    getEntity .UTF8 (radix.opening ++ (digits ++ 59 :: rest)) =
      some (String.utf8EncodeChar c, rest) := by
  have same : UInt32.ofNat (Nat.ofDigits radix.base values) = c.val := by
    apply UInt32.toNat_inj.mp
    rw [UInt32.toNat_ofNat']
    exact names
  rw [getEntity_number .UTF8 numeral rest, same]
  simp only [if_true, convertUTF32ToUTF8_char]

/-- &#x3b1; -/
theorem reference_names_alpha :
    getEntity .UTF8 (Radix.hexadecimal.opening ++ ([51, 98, 49] ++ 59 :: [33])) =
      some (String.utf8EncodeChar (Char.ofNat 945), [33]) :=
  @reference_names_character .hexadecimal [51, 98, 49] [1, 11, 3] (Char.ofNat 945)
    (.cons rfl (.cons rfl (.cons rfl .nil))) (by decide) [33]

theorem character_whole (c : Char) {s : Chars} (rest : Characters .UTF8 s) :
    Characters .UTF8 (String.utf8EncodeChar c ++ s) := by
  have valid : c.val.toNat < 0x110000 := by
    rcases c.valid with low | high
    · omega
    · omega
  have high : ∀ x : UInt8, 128 ≤ (x &&& 0x3f ||| 0x80) := fun x => (announced x).2.2.2.2
  rw [String.utf8EncodeChar_eq_utf8EncodeCharFast]
  simp only [String.utf8EncodeCharFast, UInt32.le_iff_toNat_le, UInt32.reduceToNat]
  split_ifs with one two three
  · refine .single (fun _ => (announced _).1 ?_) rest
    rw [UInt32.toNat_toUInt8]
    omega
  · have shifted := @shifted_toNat c.val 6 6 rfl (by omega) (by decide)
    exact @Characters.sequence _ _ [_] s rfl ((announced _).2.1 (by omega) (by omega))
      (by simp [high]) rest
  · exact @Characters.sequence _ _ [_, _] s rfl (announced _).2.2.1 (by simp [high]) rest
  · refine @Characters.sequence _ _ [_, _, _] s rfl ((announced _).2.2.2.1 ?_) (by simp [high]) rest
    rw [@shifted_toNat c.val 18 18 rfl (by omega) (by decide)]
    omega

theorem unicode_characters (text : List Char) :
    Characters .UTF8 (text.flatMap String.utf8EncodeChar) := by
  induction text with
  | nil => exact .nil
  | cons c text ih =>
    rw [List.flatMap_cons]
    exact character_whole c ih

end Numbers

end TinyXmlReferences
