import WalrQueue.QueueRegistry

/-!
# The records of the write-ahead log

A segment file is a concatenation of records.  A Push is a flag byte, the ULID,
the visibility time as 32-bit seconds since 2020, the queue id, the payload
length and the payload; an Ack is a flag byte, the ULID and the queue id.

`DiskLog::read_wal_file` and `DiskLog::read_entries_from_offset` decode records
with the same code and stop at the first incomplete one; they differ in the
bytes they look at.  `decodeRecord` is the shared body and `takeRecords` the
shared loop.
-/

namespace WalrQueue

open BigEndian

/-- `EPOCH_2020_SEC`. -/
def epoch2020Sec : Nat := 1577836800

/-- `WalRecord`. -/
inductive WalRecord where
  | push (msgId : Ulid) (queueName : String) (visibleAt : Nat) (payload : List UInt8)
  | ack (msgId : Ulid) (queueName : String)
  deriving DecidableEq

namespace WalRecord

def msgId : WalRecord → Ulid
  | push id _ _ _ => id
  | ack id _ => id

def queueName : WalRecord → String
  | push _ q _ _ => q
  | ack _ q => q

/-- `matches!(r, WalRecord::Push { .. })`. -/
def isPush : WalRecord → Bool
  | push .. => true
  | ack .. => false

end WalRecord

/-- `DiskLog::encode_push`. -/
def encodePush (msgId : Ulid) (qId visibleAt : Nat) (payload : List UInt8) : List UInt8 :=
  0 :: (toBE 16 msgId.toNat ++ toBE 4 (visibleAt - epoch2020Sec) ++ toBE 2 qId ++
    toBE 4 payload.length ++ payload)

/-- `DiskLog::encode_ack`. -/
def encodeAck (msgId : Ulid) (qId : Nat) : List UInt8 :=
  1 :: (toBE 16 msgId.toNat ++ toBE 2 qId)

/-- The bytes the writer thread produces for one record, given the queue id. -/
def encodeRecord (qId : Nat) : WalRecord → List UInt8
  | .push msgId _ visibleAt payload => encodePush msgId qId visibleAt payload
  | .ack msgId _ => encodeAck msgId qId

/-- The queue a record belongs to: `get_name(q_id)`, or `"default"`. -/
def recordQueue (reg : QueueRegistry) (qId : Nat) : String :=
  (reg.getName qId).getD "default"

/-- One record off the front of the bytes, or `none` when it is incomplete. -/
def decodeRecord (env : Env) (reg : QueueRegistry) :
    List UInt8 → Option (WalRecord × List UInt8)
  | [] => none
  | flags :: cur =>
      if flags &&& 0x01 ≠ 0 then
        if cur.length < 18 then none
        else
          let ulidRaw := BitVec.ofNat 128 (ofBE (cur.take 16))
          let qId := ofBE ((cur.drop 16).take 2)
          some (.ack ulidRaw (recordQueue reg qId), cur.drop 18)
      else if cur.length < 26 then none
      else
        let ulidRaw := BitVec.ofNat 128 (ofBE (cur.take 16))
        let relTs := ofBE ((cur.drop 16).take 4)
        let qId := ofBE ((cur.drop 20).take 2)
        let payloadLen := ofBE ((cur.drop 22).take 4)
        let cur := cur.drop 26
        if cur.length < payloadLen then none
        else
          let raw := cur.take payloadLen
          let payload :=
            if flags &&& 0x02 ≠ 0 then (env.zstdDecodeAll raw).getD raw else raw
          some (.push ulidRaw (recordQueue reg qId) (relTs + epoch2020Sec) payload,
            cur.drop payloadLen)

/-- At most `max` records off the front of the bytes, and what is left. -/
def takeRecords (env : Env) (reg : QueueRegistry) :
    Nat → List UInt8 → List WalRecord × List UInt8
  | 0, cur => ([], cur)
  | max + 1, cur =>
      match decodeRecord env reg cur with
      | none => ([], cur)
      | some (record, rest) =>
          let more := takeRecords env reg max rest
          (record :: more.1, more.2)

/-- `DiskLog::read_wal_file`: every complete record of a segment.  A record is
at least one byte, so the length bounds their number. -/
def readWalFile (env : Env) (reg : QueueRegistry) (raw : List UInt8) : List WalRecord :=
  (takeRecords env reg raw.length raw).1

/-- The window one paging read looks at: 1 MiB. -/
def readWindow : Nat := 1024 * 1024

/-- `DiskLog::read_entries_from_offset` on the bytes of the active segment. -/
def readEntries (env : Env) (reg : QueueRegistry) (file : List UInt8)
    (offset maxEntries : Nat) : List WalRecord × Nat :=
  if file.length ≤ offset then ([], file.length)
  else
    let raw := (file.drop offset).take readWindow
    let taken := takeRecords env reg maxEntries raw
    (taken.1, offset + (raw.length - taken.2.length))

end WalrQueue
