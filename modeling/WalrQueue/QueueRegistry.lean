import WalrQueue.Env
import WalrQueue.Lib.BigEndian

/-!
# The queue registry

`QueueRegistry` maps queue names to the `u16` ids that WAL records carry.  New
names are appended to the file `queues.manifest` as they are met, and the file
is read back when the data directory is opened.
-/

namespace WalrQueue

open BigEndian

/-! ## UTF-8 -/

/-- The bytes of a Rust `String`. -/
def utf8 (s : String) : List UInt8 := s.toUTF8.data.toList

/-- How many bytes the ill-formed sequence at the head of a byte list spans, by
the rule of `String::from_utf8_lossy`: the longest prefix that could still have
begun a character, and at least one byte. -/
def illFormedLen : List UInt8 → Nat
  | b₀ :: b₁ :: rest =>
      let cont := fun b : UInt8 => 0x80 ≤ b && b ≤ 0xBF
      let three := (b₀ == 0xE0 && 0xA0 ≤ b₁ && b₁ ≤ 0xBF) ||
        (0xE1 ≤ b₀ && b₀ ≤ 0xEC && cont b₁) || (b₀ == 0xED && 0x80 ≤ b₁ && b₁ ≤ 0x9F) ||
        (0xEE ≤ b₀ && b₀ ≤ 0xEF && cont b₁)
      let four := (b₀ == 0xF0 && 0x90 ≤ b₁ && b₁ ≤ 0xBF) ||
        (0xF1 ≤ b₀ && b₀ ≤ 0xF3 && cont b₁) || (b₀ == 0xF4 && 0x80 ≤ b₁ && b₁ ≤ 0x8F)
      if three then 2
      else if four then
        match rest with
        | b₂ :: _ => if cont b₂ then 3 else 2
        | [] => 2
      else 1
  | _ => 1

/-- The character at the head of a byte list with its length, when it is well
formed. -/
def decodeChar? (bytes : List UInt8) : Option Char :=
  ByteArray.utf8DecodeChar? ⟨bytes.toArray⟩ 0

/-- `String::from_utf8_lossy` over at most `fuel` characters. -/
def fromUtf8LossyLoop : Nat → List UInt8 → List Char
  | 0, _ => []
  | _, [] => []
  | fuel + 1, bytes =>
      match decodeChar? bytes with
      | some c => c :: fromUtf8LossyLoop fuel (bytes.drop c.utf8Size)
      | none => Char.ofNat 0xFFFD :: fromUtf8LossyLoop fuel (bytes.drop (illFormedLen bytes))

/-- `String::from_utf8_lossy`: well-formed bytes are the string they spell, and
each ill-formed sequence becomes U+FFFD. -/
def fromUtf8Lossy (bytes : List UInt8) : String :=
  match String.fromUTF8? ⟨bytes.toArray⟩ with
  | some s => s
  | none => String.ofList (fromUtf8LossyLoop bytes.length bytes)

/-! ## The registry -/

/-- The registry: the manifest file and the two maps held in memory. -/
structure QueueRegistry where
  manifest : List UInt8
  nameToId : FMap String Nat
  idToName : List String

namespace QueueRegistry

/-- The registry of an empty directory. -/
def empty : QueueRegistry := ⟨[], ∅, []⟩

/-- `Vec::resize(id + 1, String::new())` when `id` is out of range, then the
assignment at `id`. -/
def setName (names : List String) (id : Nat) (name : String) : List String :=
  (names ++ List.replicate (id + 1 - names.length) "").set id name

/-- The loop of `QueueRegistry::open` over the manifest bytes; each entry takes
at least four bytes, so the length is enough fuel. -/
def openLoop : Nat → List UInt8 → FMap String Nat → List String →
    FMap String Nat × List String
  | 0, _, nameToId, idToName => (nameToId, idToName)
  | fuel + 1, cur, nameToId, idToName =>
      if cur.length < 4 then (nameToId, idToName)
      else
        let id := ofBE (cur.take 2)
        let len := ofBE ((cur.drop 2).take 2)
        let cur := cur.drop 4
        if cur.length < len then (nameToId, idToName)
        else
          let name := fromUtf8Lossy (cur.take len)
          openLoop fuel (cur.drop len) (AList.insert name id nameToId) (setName idToName id name)

/-- `QueueRegistry::open` on the bytes of `queues.manifest`. -/
def openManifest (manifest : List UInt8) : QueueRegistry :=
  let maps := openLoop manifest.length manifest ∅ []
  ⟨manifest, maps.1, maps.2⟩

/-- `QueueRegistry::get_or_register`: the id of a known name, or the next id,
truncated to `u16`, with a new manifest entry. -/
def getOrRegister (reg : QueueRegistry) (name : String) : QueueRegistry × Nat :=
  match AList.lookup name reg.nameToId with
  | some id => (reg, id)
  | none =>
      let nextId := reg.idToName.length % 2 ^ 16
      ({ manifest := reg.manifest ++ toBE 2 nextId ++ toBE 2 (utf8 name).length ++ utf8 name
         nameToId := AList.insert name nextId reg.nameToId
         idToName := reg.idToName ++ [name] }, nextId)

/-- `QueueRegistry::get_name`. -/
def getName (reg : QueueRegistry) (id : Nat) : Option String := reg.idToName[id]?

end QueueRegistry

end WalrQueue
