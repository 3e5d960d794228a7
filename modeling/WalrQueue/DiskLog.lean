import WalrQueue.WalCodec

/-!
# The disk log

The two segment files, the flag that says which is active, and the counter of
bytes in the active one.  Commands reach the files through the writer thread;
every operation that is run alone waits for its own commands before it reads
the files or the counter again, so here a command is applied when it is sent.
File operations are taken to succeed.
-/

namespace WalrQueue

/-- The files of a data directory. -/
structure DataDir where
  manifest : List UInt8
  walA : List UInt8
  walB : List UInt8

/-- The directory before the first open. -/
def DataDir.empty : DataDir := ⟨[], [], []⟩

/-- `DiskLog`, with the contents of the files it writes. -/
structure DiskLog where
  registry : QueueRegistry
  walA : List UInt8
  walB : List UInt8
  activeIsB : Bool
  activeBytes : Nat
  maxSegmentSize : Nat

namespace DiskLog

/-- The files as they stand on disk. -/
def dir (d : DiskLog) : DataDir := ⟨d.registry.manifest, d.walA, d.walB⟩

/-- The contents of the active segment. -/
def active (d : DiskLog) : List UInt8 := if d.activeIsB then d.walB else d.walA

/-- The contents of the other segment. -/
def inactive (d : DiskLog) : List UInt8 := if d.activeIsB then d.walA else d.walB

/-- Append bytes to the active segment and count them. -/
def write (d : DiskLog) (bytes : List UInt8) : DiskLog :=
  if d.activeIsB then
    { d with walB := d.walB ++ bytes, activeBytes := d.activeBytes + bytes.length }
  else
    { d with walA := d.walA ++ bytes, activeBytes := d.activeBytes + bytes.length }

/-- One command of the writer thread: register the queue name, encode, write.
`append_push_durable`, `append_push_async`, `append_ack_durable` and
`append_ack_async` all send such a command. -/
def append (d : DiskLog) (record : WalRecord) : DiskLog :=
  let registered := d.registry.getOrRegister record.queueName
  { d with registry := registered.1 }.write (encodeRecord registered.2 record)

/-- `should_compact`. -/
def shouldCompact (d : DiskLog) : Bool := d.maxSegmentSize ≤ d.activeBytes

/-- The segment flip: the other segment becomes active and the counter restarts. -/
def flip (d : DiskLog) : DiskLog := { d with activeIsB := !d.activeIsB, activeBytes := 0 }

/-- Truncate the segment that is not active. -/
def truncateInactive (d : DiskLog) : DiskLog :=
  if d.activeIsB then { d with walA := [] } else { d with walB := [] }

/-- `perform_flip_flop_compaction`: flip, write the survivors to the new active
segment, truncate the frozen one. -/
def performFlipFlopCompaction (d : DiskLog)
    (surviving : List (Ulid × String × Nat × List UInt8)) : DiskLog :=
  (surviving.foldl (fun d s => d.append (.push s.1 s.2.1 s.2.2.1 s.2.2.2)) d.flip).truncateInactive

/-- `read_entries_from_offset`. -/
def readEntriesFromOffset (env : Env) (d : DiskLog) (offset maxEntries : Nat) :
    List WalRecord × Nat :=
  readEntries env d.registry d.active offset maxEntries

/-- The records of the active segment. -/
def activeRecords (env : Env) (d : DiskLog) : List WalRecord := readWalFile env d.registry d.active

/-- The records of both segments, as `DiskLog::open` reads them. -/
def records (env : Env) (d : DiskLog) : List WalRecord :=
  readWalFile env d.registry d.walA ++ readWalFile env d.registry d.walB

/-- `DiskLog::open`: the registry from the manifest, the records of `wal_a.log`
followed by those of `wal_b.log`, and segment B active when only it has bytes. -/
def openDir (env : Env) (dir : DataDir) (maxSegmentSize : Nat) : DiskLog × List WalRecord :=
  let registry := QueueRegistry.openManifest dir.manifest
  let recovered := readWalFile env registry dir.walA ++ readWalFile env registry dir.walB
  let activeIsB := dir.walB.length > 0 && dir.walA.length == 0
  ({ registry, walA := dir.walA, walB := dir.walB, activeIsB
     activeBytes := if activeIsB then dir.walB.length else dir.walA.length
     maxSegmentSize }, recovered)

end DiskLog

end WalrQueue
