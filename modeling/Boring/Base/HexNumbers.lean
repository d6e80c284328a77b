import Boring.Base.HexText
import Mathlib.Data.List.GetD
import Mathlib.Tactic.Linarith
import Mathlib.Tactic.Ring

/- hex2dec of stringutil.cpp: the digits of a C string, each shifted to its place by a
   count that the length decides. -/
namespace HexNumbers
open StringUtil HexText

def wrap (n : Int) : Int := n.bmod (2 ^ 32)

def strlen (p : Str) : Nat := (p.takeWhile (· ≠ 0)).length

/-- `p` behind the prefix; behind its characters stands a NUL. -/
def afterPrefix (hex : Str) : Str :=
  if hex.getD 0 0 = ch '0' ∧ (hex.getD 1 0 = ch 'x' ∨ hex.getD 1 0 = ch 'X') then hex.drop 2
  else hex

/-- The remaining turns of the loop: the shift counts and the value of `num`. A count
    outside the int leaves its low five bits to the processor. -/
def hex2decLoop (p : Str) (len : Int) : Nat → Nat → CInt → List Int × CInt
  | 0, _, num => ([], num)
  | n + 1, i, num =>
    let temp := c2i (p.getD i 0)
    let bits := wrap ((len - i - 1) * 4)
    let temp := temp <<< (bits % 32).toNat
    let (counts, num) := hex2decLoop p len n (i + 1) (num ||| temp)
    (bits :: counts, num)

def hex2dec (hex : Str) : List Int × CInt :=
  let p := afterPrefix hex
  let len := wrap (strlen p)
  hex2decLoop p len len.toNat 0 0

section Reference

def numeral (digits : Str) : Nat := digits.foldl (fun acc c => 16 * acc + digitValue c) 0

instance (digits : Str) : Decidable (∀ c ∈ digits, HexDigit c) := List.decidableBAll _ digits

structure Numeral (front digits : Str) : Prop where
  front : front = [] ∨ front = [ch '0', ch 'x'] ∨ front = [ch '0', ch 'X']
  nonempty : digits ≠ []
  digits : ∀ c ∈ digits, HexDigit c

/-- Every shift is by less than the width of an int, and the result is the numeral modulo
    2^32. -/
def Evaluates (front digits : Str) : Prop :=
  (∀ bits ∈ (hex2dec (front ++ digits)).1, 0 ≤ bits ∧ bits < 32) ∧
    (hex2dec (front ++ digits)).2 = BitVec.ofNat 32 (numeral digits)

def counted (digits : Str) : Str := digits.take (wrap digits.length).toNat

end Reference

theorem wrap_fits {n : Int} (low : -2 ^ 31 ≤ n) (high : n < 2 ^ 31) : wrap n = n :=
  Int.bmod_eq_of_le low high

theorem numeral_from (digits : Str) (acc : Nat) :
    digits.foldl (fun acc c => 16 * acc + digitValue c) acc =
      acc * 16 ^ digits.length + numeral digits := by
  induction digits generalizing acc with
  | nil => simp [numeral]
  | cons c rest ih =>
    have first : numeral (c :: rest) =
      (16 * 0 + digitValue c) * 16 ^ rest.length + numeral rest := ih _
    rw [List.foldl_cons, ih, first, List.length_cons, Nat.pow_succ]
    ring

theorem numeral_cons (c : UInt8) (rest : Str) :
    numeral (c :: rest) = digitValue c * 16 ^ rest.length + numeral rest := by
  rw [numeral, List.foldl_cons, numeral_from]
  simp

theorem numeral_bound {digits : Str} (all : ∀ c ∈ digits, HexDigit c) :
    numeral digits < 16 ^ digits.length := by
  induction digits with
  | nil => simp [numeral]
  | cons c rest ih =>
    have later := ih fun x member => all x (by simp [member])
    have digit := digitValue_lt (all c (by simp))
    rw [numeral_cons, List.length_cons, Nat.pow_succ]
    nlinarith

theorem shifted_or (d : Nat) {v n : Nat} (below : v < 16 ^ n) :
    (BitVec.ofNat 32 d) <<< (4 * n) ||| BitVec.ofNat 32 v = BitVec.ofNat 32 (d * 16 ^ n + v) := by
  have power : 16 ^ n = 2 ^ (4 * n) := by rw [Nat.pow_mul]
  rw [power] at below
  have place : BitVec.ofNat 32 d <<< (4 * n) = BitVec.ofNat 32 (d <<< (4 * n)) := by
    apply BitVec.eq_of_toNat_eq
    rw [BitVec.toNat_shiftLeft, BitVec.toNat_ofNat, BitVec.toNat_ofNat, Nat.shiftLeft_eq,
      Nat.shiftLeft_eq, Nat.mod_mul_mod]
  rw [place, ← BitVec.ofNat_or, ← Nat.shiftLeft_add_eq_or_of_lt below, Nat.shiftLeft_eq, power]

variable {p : Str} {len : Int}

theorem loop_short {n i : Nat} (turns : len = i + n) (few : n ≤ 8) (inside : i + n ≤ p.length)
    (all : ∀ c ∈ p, HexDigit c) (num : CInt) :
    (∀ bits ∈ (hex2decLoop p len n i num).1, 0 ≤ bits ∧ bits < 32) ∧
      (hex2decLoop p len n i num).2 =
        num ||| BitVec.ofNat 32 (numeral ((p.drop i).take n)) := by
  induction n generalizing i num with
  | zero => simp [hex2decLoop, numeral]
  | succ n ih =>
    have room : i < p.length := by omega
    have later := @ih (i + 1) (by push_cast; omega) (by omega) (by omega)
    have count : wrap ((len - i - 1) * 4) = 4 * n := by
      rw [wrap_fits (by omega) (by omega)]
      omega
    have places : ((4 * n : Int) % 32).toNat = 4 * n := by omega
    have head : p.getD i 0 = p[i] := List.getD_eq_getElem p 0 room
    have digit : HexDigit p[i] := all _ (List.getElem_mem room)
    have split : (p.drop i).take (n + 1) = p[i] :: (p.drop (i + 1)).take n := by
      rw [List.drop_eq_getElem_cons room, List.take_succ_cons]
    have length : ((p.drop (i + 1)).take n).length = n := by
      rw [List.length_take, List.length_drop]
      omega
    have below : numeral ((p.drop (i + 1)).take n) < 16 ^ n := by
      have bound := @numeral_bound ((p.drop (i + 1)).take n) fun c member =>
        all c (List.mem_of_mem_drop (List.mem_of_mem_take member))
      rwa [length] at bound
    simp only [hex2decLoop, count, places, head, c2i_digit _ digit]
    obtain ⟨counts, value⟩ := later (num ||| BitVec.ofNat 32 (digitValue p[i]) <<< (4 * n))
    constructor
    · intro bits member
      rcases List.mem_cons.mp member with rfl | rest
      · omega
      · exact counts bits rest
    · rw [value, split, numeral_cons, length, ← shifted_or _ below, BitVec.or_assoc]

theorem loop_long {n i : Nat} (turns : len = i + n) (many : 9 ≤ n) (num : CInt) :
    32 ∈ (hex2decLoop p len n i num).1 := by
  induction n generalizing i num with
  | zero => omega
  | succ n ih =>
    by_cases nine : n = 8
    · have count : wrap ((len - i - 1) * 4) = 32 := by
        rw [wrap_fits (by omega) (by omega)]
        omega
      simp [hex2decLoop, count]
    · have later := @ih (i + 1) (by push_cast; omega) (by omega)
      exact List.mem_cons_of_mem _ (later _)

theorem digit_plain {c : UInt8} (digit : HexDigit c) : c ≠ 0 ∧ c ≠ ch 'x' ∧ c ≠ ch 'X' := by
  refine ⟨?_, ?_, ?_⟩
  all_goals
    rintro rfl
    exact absurd digit (by decide)

variable {front digits : Str}

theorem strlen_digits (all : ∀ c ∈ digits, HexDigit c) : strlen digits = digits.length := by
  rw [strlen, List.takeWhile_eq_self_iff.mpr]
  intro c member
  simpa using (digit_plain (all c member)).1

theorem getD_not_x (all : ∀ c ∈ digits, HexDigit c) (i : Nat) :
    digits.getD i 0 ≠ ch 'x' ∧ digits.getD i 0 ≠ ch 'X' := by
  by_cases inside : i < digits.length
  · rw [List.getD_eq_getElem _ _ inside]
    exact (digit_plain (all _ (List.getElem_mem inside))).2
  · rw [List.getD_eq_default _ _ (Nat.le_of_not_lt inside)]
    decide

theorem afterPrefix_digits (numeral : Numeral front digits) :
    afterPrefix (front ++ digits) = digits := by
  rcases numeral.front with rfl | rfl | rfl
  · obtain ⟨notLower, notUpper⟩ := getD_not_x numeral.digits 1
    exact if_neg fun both => both.2.elim notLower notUpper
  · rfl
  · rfl

theorem wrap_le (n : Nat) : wrap n ≤ n := by
  rw [wrap, Int.bmod_eq_emod]
  split <;> omega

theorem hex2dec_digits (numeral : Numeral front digits) : hex2dec (front ++ digits) =
    hex2decLoop digits (wrap digits.length) (wrap digits.length).toNat 0 0 := by
  rw [hex2dec, afterPrefix_digits numeral]
  simp only [strlen_digits numeral.digits]

theorem counted_evaluates (text : Numeral front digits) : Evaluates front digits ↔
    (counted digits).length ≤ 8 ∧
      BitVec.ofNat 32 (numeral (counted digits)) = BitVec.ofNat 32 (numeral digits) := by
  have fits := wrap_le digits.length
  have length : (counted digits).length = (wrap digits.length).toNat := by
    rw [counted, List.length_take]
    omega
  unfold Evaluates
  rw [hex2dec_digits text, length]
  by_cases few : (wrap digits.length).toNat ≤ 8
  · rw [and_iff_right few]
    have run : (∀ bits ∈ (hex2decLoop digits (wrap digits.length)
          (wrap digits.length).toNat 0 0).1, 0 ≤ bits ∧ bits < 32) ∧
        (hex2decLoop digits (wrap digits.length) (wrap digits.length).toNat 0 0).2 =
          BitVec.ofNat 32 (numeral (counted digits)) := by
      by_cases some : 0 ≤ wrap digits.length
      · have short := @loop_short digits (wrap digits.length) (wrap digits.length).toNat 0
          (by omega) few (by omega) text.digits 0
        simpa [counted] using short
      · have none : (wrap digits.length).toNat = 0 := by omega
        simp [counted, none, hex2decLoop, numeral]
    rw [and_iff_right run.1, run.2]
  · have many := @loop_long digits (wrap digits.length) (wrap digits.length).toNat 0 (by omega)
      (by omega) 0
    constructor
    · intro evaluates
      exact absurd (evaluates.1 32 many).2 (by decide)
    · intro both
      exact absurd both.1 few

/-- A numeral is evaluated exactly when it has at most eight digits, or so many that the
    int wraps, and at most eight of them are counted and have the value of all by chance. -/
theorem numeral_evaluated_iff (text : Numeral front digits) : Evaluates front digits ↔
    digits.length ≤ 8 ∨ (2 ^ 31 ≤ digits.length ∧ (counted digits).length ≤ 8 ∧
      BitVec.ofNat 32 (numeral (counted digits)) = BitVec.ofNat 32 (numeral digits)) := by
  rw [counted_evaluates text]
  by_cases fits : digits.length < 2 ^ 31
  · have whole : counted digits = digits := by
      rw [counted, wrap_fits (by omega) (by omega), Int.toNat_natCast, List.take_length]
    rw [whole]
    constructor
    · intro both
      exact .inl both.1
    · rintro (few | ⟨long, _⟩)
      · exact ⟨few, rfl⟩
      · omega
  · constructor
    · intro both
      exact .inr ⟨by omega, both⟩
    · rintro (few | ⟨_, both⟩)
      · omega
      · exact both

/-- The numeral 0x1F. -/
theorem short_numeral_evaluated : Numeral [ch '0', ch 'x'] [ch '1', ch 'F'] ∧
    Evaluates [ch '0', ch 'x'] [ch '1', ch 'F'] := by
  have text : Numeral [ch '0', ch 'x'] [ch '1', ch 'F'] :=
    ⟨.inr (.inl rfl), by decide, by decide⟩
  exact ⟨text, (numeral_evaluated_iff text).mpr (.inl (by decide))⟩

/-- The first of nine digits is shifted by 32. -/
theorem nine_digits_shift_too_far :
    ¬ ∀ front digits, Numeral front digits → Evaluates front digits := by
  intro all
  have text : Numeral [] (List.replicate 9 (ch '1')) := ⟨.inl rfl, by decide, by decide⟩
  have counts : (32 : Int) ∈ (hex2dec ([] ++ List.replicate 9 (ch '1'))).1 := by decide
  exact absurd ((all _ _ text).1 32 counts).2 (by decide)

end HexNumbers
