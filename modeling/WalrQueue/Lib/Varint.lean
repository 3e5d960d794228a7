import Mathlib

/-!
# Length-prefixed fields

Natural numbers as base-128 digits with a continuation bit, least digit first,
and byte strings and texts behind their length.
-/

namespace Varint

/-- The digits of `n`, in at most `fuel + 1` bytes. -/
def writeLoop : Nat → Nat → List UInt8
  | 0, n => [UInt8.ofNat n]
  | fuel + 1, n =>
      if n < 128 then [UInt8.ofNat n]
      else UInt8.ofNat (n % 128 + 128) :: writeLoop fuel (n / 128)

/-- A number. -/
def write (n : Nat) : List UInt8 := writeLoop n n

/-- A number off the front of the bytes. -/
def read : List UInt8 → Option (Nat × List UInt8)
  | [] => none
  | b :: rest =>
      if b.toNat < 128 then some (b.toNat, rest)
      else (read rest).map fun r => (b.toNat - 128 + 128 * r.1, r.2)

theorem toNat_ofNat {n : Nat} (small : n < 256) : (UInt8.ofNat n).toNat = n := by
  simp [UInt8.toNat_ofNat', Nat.mod_eq_of_lt small]

theorem read_writeLoop {fuel n : Nat} (enough : n ≤ fuel) (rest : List UInt8) :
    read (writeLoop fuel n ++ rest) = some (n, rest) := by
  induction fuel generalizing n with
  | zero =>
      obtain rfl : n = 0 := by omega
      rfl
  | succ fuel ih =>
      unfold writeLoop
      split
      · rename_i small
        have value := toNat_ofNat (n := n) (by omega)
        simp [read, value, small]
      · rename_i large
        have value := toNat_ofNat (n := n % 128 + 128) (by omega)
        have more := ih (n := n / 128) (by omega)
        rw [List.cons_append, read, if_neg (by omega), more, value]
        simp only [Option.map_some, Option.some.injEq, Prod.mk.injEq, and_true]
        omega

theorem read_write (n : Nat) (rest : List UInt8) : read (write n ++ rest) = some (n, rest) :=
  read_writeLoop le_rfl rest

/-- A number of `k + 1` digits takes `k + 1` bytes. -/
theorem length_writeLoop {fuel n k : Nat} (enough : k ≤ fuel) (low : 128 ^ k ≤ n)
    (high : n < 128 ^ (k + 1)) : (writeLoop fuel n).length = k + 1 := by
  induction k generalizing fuel n with
  | zero =>
      cases fuel with
      | zero => rfl
      | succ fuel => simp [writeLoop, show n < 128 by simpa using high]
  | succ k ih =>
      obtain ⟨fuel, rfl⟩ : ∃ more, fuel = more + 1 := ⟨fuel - 1, by omega⟩
      have large : ¬ n < 128 := Nat.not_lt.2 ((Nat.le_self_pow (Nat.succ_ne_zero k) 128).trans low)
      have low' : 128 ^ k ≤ n / 128 := (Nat.le_div_iff_mul_le (by norm_num)).2 (by rwa [← pow_succ])
      have high' : n / 128 < 128 ^ (k + 1) := Nat.div_lt_of_lt_mul (by rwa [mul_comm, ← pow_succ])
      rw [writeLoop, if_neg large, List.length_cons, ih (by omega) low' high']

/-- A byte string. -/
def writeBytes (bytes : List UInt8) : List UInt8 := write bytes.length ++ bytes

/-- A byte string off the front of the bytes. -/
def readBytes (cur : List UInt8) : Option (List UInt8 × List UInt8) :=
  (read cur).bind fun r =>
    if r.2.length < r.1 then none else some (r.2.take r.1, r.2.drop r.1)

theorem readBytes_writeBytes (bytes rest : List UInt8) :
    readBytes (writeBytes bytes ++ rest) = some (bytes, rest) := by
  rw [readBytes, writeBytes, List.append_assoc, read_write]
  simp

/-- A text. -/
def writeText (text : String) : List UInt8 := writeBytes text.toUTF8.data.toList

/-- A text off the front of the bytes. -/
def readText (cur : List UInt8) : Option (String × List UInt8) :=
  (readBytes cur).bind fun r => (String.fromUTF8? ⟨r.1.toArray⟩).map fun text => (text, r.2)

theorem fromUTF8?_toUTF8 (text : String) :
    String.fromUTF8? ⟨text.toUTF8.data.toList.toArray⟩ = some text := by
  have same : (⟨text.toUTF8.data.toList.toArray⟩ : ByteArray) = text.toUTF8 := by simp
  have valid : text.toUTF8.IsValidUTF8 := text.isValidUTF8
  rw [same, String.fromUTF8?, dif_pos valid]
  rfl

theorem readText_writeText (text : String) (rest : List UInt8) :
    readText (writeText text ++ rest) = some (text, rest) := by
  rw [readText, writeText, readBytes_writeBytes, Option.bind_some, fromUTF8?_toUTF8]
  rfl

end Varint
