import WalrQueue.Lib.FiniteMap

/-!
What the engine takes from outside its own source.

A ULID is its 128-bit number; a UUID is the same number, and the conversions
`Ulid::from(u.as_u128())` and `Uuid::from_u128(u.0)` are the identity on it.
`Env` collects the crate functions the code calls (`ulid`, `uuid`, `zstd`), the
random source behind `Ulid::new`, and the iteration order of `HashMap`, which
is unspecified: each iteration draws its own permutation.
-/

namespace WalrQueue

/-- A ULID, as the 128-bit number the crate wraps.  Also the value of a UUID. -/
abbrev Ulid : Type := BitVec 128

/-- The functions of other crates and the two unspecified choices of a run: the
`n`-th value `Ulid::new` returns and the `n`-th `HashMap` iteration order. -/
structure Env where
  ulidNew : Nat → Ulid
  ulidToString : Ulid → String
  ulidFromString : String → Option Ulid
  uuidParseStr : String → Option Ulid
  zstdDecodeAll : List UInt8 → Option (List UInt8)
  hashOrder : Nat → (α : Type) → List α → List α
  hashOrder_perm : ∀ n α (l : List α), (hashOrder n α l).Perm l

/-- `u64` addition of a release build: it wraps. -/
def addU64 (a b : Nat) : Nat := (a + b) % 2 ^ 64

/-- `AtomicUsize::fetch_add`, which wraps. -/
def fetchAdd (a b : Nat) : Nat := (a + b) % 2 ^ 64

/-- `AtomicUsize::fetch_sub`, which wraps. -/
def fetchSub (a b : Nat) : Nat := (a + 2 ^ 64 - b % 2 ^ 64) % 2 ^ 64

theorem addU64_of_lt {a b : Nat} (fits : a + b < 2 ^ 64) : addU64 a b = a + b :=
  Nat.mod_eq_of_lt fits

end WalrQueue
