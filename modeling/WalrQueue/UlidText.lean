import WalrQueue.Run

/-!
# Texts of ids

Ids cross the wire as texts.  What the proofs about several nodes need of the `ulid` crate
is that the canonical text of a ULID reads as that ULID and that every text that reads as
one has 26 bytes.  The concrete environment has both.
-/

namespace WalrQueue

/-- What the `ulid` crate guarantees about texts. -/
structure Env.UlidTexts (env : Env) : Prop where
  read : ∀ u, env.ulidFromString (env.ulidToString u) = some u
  length : ∀ text u, env.ulidFromString text = some u → (utf8 text).length = 26

/-! ## Digits -/

/-- The last `k` digits of a number in base 32, the most significant first. -/
def digits32 (k value : Nat) : List Nat :=
  (List.range k).map fun i => value / 32 ^ (k - 1 - i) % 32

theorem digits32_succ (k value : Nat) :
    digits32 (k + 1) value = digits32 k (value / 32) ++ [value % 32] := by
  unfold digits32
  rw [List.range_succ, List.map_append]
  congr 1
  · refine List.map_congr_left fun i inside => ?_
    have below := List.mem_range.1 inside
    rw [Nat.div_div_eq_div_mul, ← Nat.pow_succ', show k + 1 - 1 - i = (k - 1 - i).succ by omega]
  · simp

/-- Reading the digits gives the number back. -/
theorem digits32_foldl (k value : Nat) :
    (digits32 k value).foldl (fun acc digit => acc * 32 + digit) 0 = value % 32 ^ k := by
  induction k generalizing value with
  | zero => simp [digits32, Nat.mod_one]
  | succ k ih =>
      rw [digits32_succ, List.foldl_append, ih, Nat.pow_succ', Nat.mod_mul]
      simp only [List.foldl_cons, List.foldl_nil]
      omega

theorem digits32_lt {k value digit : Nat} (inside : digit ∈ digits32 k value) : digit < 32 := by
  obtain ⟨i, _, rfl⟩ := List.mem_map.1 inside
  exact Nat.mod_lt _ (by decide)

/-! ## The alphabet -/

/-- The character of a digit. -/
def digitChar (digit : Nat) : Char := crockford.getD digit '0'

theorem utf8_digits {ds : List Nat} (small : ∀ d ∈ ds, d < 32) :
    utf8 (String.ofList (ds.map digitChar)) = ds.map fun d => (digitChar d).toNat.toUInt8 := by
  have char : ∀ d < 32, String.utf8EncodeChar (digitChar d) = [(digitChar d).toNat.toUInt8] := by
    decide
  unfold utf8
  rw [String.toUTF8_eq_toByteArray, String.toByteArray_ofList, List.utf8Encode,
    List.toList_data_toByteArray, List.flatMap_map]
  induction ds with
  | nil => rfl
  | cons d ds ih =>
      obtain ⟨first, later⟩ := List.forall_mem_cons.1 small
      rw [List.flatMap_cons, List.map_cons, char d first, ih later]
      rfl

theorem ulidText_eq (u : Ulid) : ulidText u = String.ofList ((digits32 26 u.toNat).map digitChar) := by
  unfold ulidText digits32
  rw [List.map_map]
  rfl

/-- One byte of a text read as a digit. -/
def readDigit (value : Option Nat) (b : UInt8) : Option Nat := do
  let digit ← (crockford.map (fun c => c.toNat.toUInt8)).idxOf? b
  some ((← value) * 32 + digit)

theorem readDigit_foldl {ds : List Nat} (small : ∀ d ∈ ds, d < 32) (acc : Nat) :
    (ds.map fun d => (digitChar d).toNat.toUInt8).foldl readDigit (some acc) =
      some (ds.foldl (fun acc digit => acc * 32 + digit) acc) := by
  have reads : ∀ d < 32, (crockford.map (fun c => c.toNat.toUInt8)).idxOf?
      (digitChar d).toNat.toUInt8 = some d := by decide
  induction ds generalizing acc with
  | nil => rfl
  | cons d ds ih =>
      obtain ⟨first, later⟩ := List.forall_mem_cons.1 small
      rw [List.map_cons, List.foldl_cons, List.foldl_cons, readDigit, reads d first]
      exact ih later (acc * 32 + d)

theorem ulidOfText_ulidText (u : Ulid) : ulidOfText (ulidText u) = some u := by
  have small : ∀ d ∈ digits32 26 u.toNat, d < 32 := fun d => digits32_lt
  have whole : u.toNat % 32 ^ 26 = u.toNat :=
    Nat.mod_eq_of_lt (u.isLt.trans (by decide))
  have bytes : utf8 (ulidText u) =
      (digits32 26 u.toNat).map fun d => (digitChar d).toNat.toUInt8 := by
    rw [ulidText_eq, utf8_digits small]
  have length : (utf8 (ulidText u)).length = 26 := by
    rw [bytes, List.length_map, digits32, List.length_map, List.length_range]
  have fold : (utf8 (ulidText u)).foldl readDigit (some 0) = some u.toNat := by
    rw [bytes, readDigit_foldl small, digits32_foldl, whole]
  unfold ulidOfText
  rw [if_pos length]
  exact (congrArg (Option.map (BitVec.ofNat 128)) fold).trans (by simp)

theorem Env.sample_ulidTexts : Env.sample.UlidTexts where
  read := ulidOfText_ulidText
  length := by
    intro text u reads
    by_contra differs
    have none : ulidOfText text = none := if_neg differs
    rw [show Env.sample.ulidFromString text = ulidOfText text from rfl, none] at reads
    cases reads

end WalrQueue
