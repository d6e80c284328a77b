import Mathlib.Data.List.Basic
import Mathlib.Algebra.Order.Ring.Nat

/- The base-256 digits of a number in a fixed count of bytes, least significant first,
   and the number of a list of such digits. -/
namespace WordBytes

def digits : Nat → Nat → List UInt8
  | 0, _ => []
  | count + 1, n => UInt8.ofNat n :: digits count (n / 256)

def number : List UInt8 → Nat
  | [] => 0
  | b :: rest => b.toNat + 256 * number rest

@[simp] theorem digits_length (count n : Nat) : (digits count n).length = count := by
  induction count generalizing n with
  | zero => rfl
  | succ count ih => rw [digits, List.length_cons, ih]

theorem number_digits {count n : Nat} (small : n < 256 ^ count) : number (digits count n) = n := by
  induction count generalizing n with
  | zero =>
    rw [Nat.pow_zero] at small
    rw [digits, number]
    omega
  | succ count ih =>
    have quotient : n / 256 < 256 ^ count := by
      rw [Nat.pow_succ] at small
      exact Nat.div_lt_of_lt_mul (by rwa [Nat.mul_comm] at small)
    have low : (UInt8.ofNat n).toNat = n % 256 := UInt8.toNat_ofNat'
    rw [digits, number, ih quotient, low]
    omega

theorem digits_inj {count a b : Nat} (smallA : a < 256 ^ count) (smallB : b < 256 ^ count)
    (same : digits count a = digits count b) : a = b := by
  rw [← number_digits smallA, same, number_digits smallB]

end WordBytes
