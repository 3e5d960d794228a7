import Mathlib

/-!
Fixed-width big-endian numbers over byte lists.

`toBE width value` writes the low `width` bytes of `value`, most significant
first; `ofBE` reads any byte list back.  The round trip is exact modulo the
width, and exact for values that fit.
-/

namespace BigEndian

/-- The low `width` bytes of `value`, most significant first. -/
def toBE : Nat → Nat → List UInt8
  | 0, _ => []
  | width + 1, value => UInt8.ofNat (value / 256 ^ width) :: toBE width value

/-- The number a byte list spells, most significant byte first. -/
def ofBE : List UInt8 → Nat
  | [] => 0
  | byte :: bytes => byte.toNat * 256 ^ bytes.length + ofBE bytes

@[simp] theorem length_toBE (width value : Nat) : (toBE width value).length = width := by
  induction width with
  | zero => rfl
  | succ width ih => simp [toBE, ih]

/-- Reading back what was written gives the value modulo the width. -/
theorem ofBE_toBE (width value : Nat) : ofBE (toBE width value) = value % 256 ^ width := by
  induction width with
  | zero => simp [toBE, ofBE, Nat.mod_one]
  | succ width ih =>
      have byte : (UInt8.ofNat (value / 256 ^ width)).toNat = value / 256 ^ width % 256 := by
        simp
      rw [toBE, ofBE, length_toBE, ih, byte, Nat.pow_succ, Nat.mod_mul, Nat.add_comm,
        Nat.mul_comm]

/-- A value that fits its width survives the round trip. -/
theorem ofBE_toBE_of_lt {width value : Nat} (fits : value < 256 ^ width) :
    ofBE (toBE width value) = value := by
  rw [ofBE_toBE, Nat.mod_eq_of_lt fits]

/-- Only the value modulo the width is written. -/
theorem toBE_mod (width value : Nat) {k : Nat} (le : width ≤ k) :
    toBE width (value % 256 ^ k) = toBE width value := by
  induction width with
  | zero => rfl
  | succ width ih =>
      have digit : value % 256 ^ k / 256 ^ width % 256 = value / 256 ^ width % 256 := by
        have split : 256 ^ k = 256 ^ width * 256 ^ (k - width) := by
          rw [← Nat.pow_add]
          congr 1
          omega
        rw [split, Nat.mod_mul_right_div_self]
        exact Nat.mod_mod_of_dvd _ (dvd_pow_self 256 (by omega))
      have byte : UInt8.ofNat (value % 256 ^ k / 256 ^ width) =
          UInt8.ofNat (value / 256 ^ width) := by
        apply UInt8.toNat_inj.1
        simpa using digit
      rw [toBE, toBE, byte, ih (by omega)]

end BigEndian
