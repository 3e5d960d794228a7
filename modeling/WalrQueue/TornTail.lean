import WalrQueue.Reopen
import WalrQueue.WalReaders

/-!
# A torn record at the end of a segment

`open` skips a torn record at the end of a segment and leaves its bytes in the file.  What
is appended later lands behind them, and the next `open` reads the torn record on into it.
Later records are safe only when the crash left no torn bytes, or nothing is appended.
-/

namespace WalrQueue

open QueueRegistry

/-- A directory with one segment in use. -/
def DataDir.single (manifest : List UInt8) (isB : Bool) (content : List UInt8) : DataDir :=
  if isB then ⟨manifest, [], content⟩ else ⟨manifest, content, []⟩

namespace DiskLog

/-- The log opened on such a directory. -/
theorem openDir_single (env : Env) (manifest : List UInt8) (isB : Bool) (content : List UInt8)
    (maxSegmentSize : Nat) :
    let opened := openDir env (.single manifest isB content) maxSegmentSize
    opened.1.registry = openManifest manifest ∧ opened.1.active = content ∧
      opened.1.inactive = [] ∧ opened.1.activeBytes = content.length ∧
      opened.1.dir = .single manifest isB content ∧
      opened.2 = readWalFile env (openManifest manifest) content := by
  cases isB with
  | false => simp [openDir, DataDir.single, active, inactive, dir, openManifest]
  | true =>
      cases content with
      | nil => simp [openDir, DataDir.single, active, inactive, dir, openManifest]
      | cons byte content =>
          simp [openDir, DataDir.single, active, inactive, dir, openManifest]

variable {reg : QueueRegistry} {xs : List WalEntry}

/-- The log opened on a segment without a torn record holds its entries. -/
theorem holds_openDir (env : Env) (manifest : reg.Manifested) (short : ShortNames reg.idToName)
    (few : reg.idToName.length ≤ 65536) (fits : ∀ x ∈ xs, x.Fits)
    (named : ∀ x ∈ xs, reg.idToName[x.1]? = some x.2.queueName) (isB : Bool)
    (maxSegmentSize : Nat) :
    let opened := (openDir env (.single reg.manifest isB (segment xs)) maxSegmentSize).1
    opened.Holds xs ∧ opened.Named xs ∧ opened.inactive = [] := by
  intro opened
  obtain ⟨registry, active, inactive, bytes, _, _⟩ :=
    openDir_single env reg.manifest isB (segment xs) maxSegmentSize
  obtain ⟨names, agrees, _⟩ := manifest.openManifest short few
  have registry : opened.registry = openManifest reg.manifest := registry
  have ids : opened.registry.IdsFit := by
    rw [registry]
    intro name id found
    have inside := (List.getElem?_eq_some_iff.1 (agrees name id found)).1
    rw [names] at inside
    omega
  have manifested : opened.registry.Manifested := by
    rw [registry]
    unfold Manifested at manifest ⊢
    rw [names]
    exact manifest
  refine ⟨⟨active, bytes, fits, ids⟩, ⟨?_, manifested, ?_⟩, inactive⟩
  · rw [registry]
    exact agrees
  · rw [registry, names]
    exact named

/-- A segment of complete records and a part of one more, opened, appended to and opened
again: both times the complete records come back, and then all the records appended, when
the part is empty or nothing is appended. -/
theorem torn_tail_recovers (env : Env) (manifest : reg.Manifested) (short : ShortNames reg.idToName)
    (few : reg.idToName.length ≤ 65536) (fits : ∀ x ∈ xs, x.Fits)
    (named : ∀ x ∈ xs, reg.idToName[x.1]? = some x.2.queueName) (x : WalEntry) (xFits : x.Fits)
    (t : Nat) (torn : t < (encodeEntry x).length) (isB : Bool) (maxSegmentSize : Nat)
    (rs : List WalRecord) (rsFit : ∀ r ∈ rs, r.Fits) :
    let dir : DataDir := .single reg.manifest isB (segment xs ++ (encodeEntry x).take t)
    let opened := openDir env dir maxSegmentSize
    let after := opened.1.appendAll rs
    ShortNames after.registry.idToName → after.registry.idToName.length ≤ 65536 →
    t = 0 ∨ rs = [] →
    opened.2 = xs.map (fun x => x.2.stored) ∧
      (openDir env after.dir maxSegmentSize).2 =
        xs.map (fun x => x.2.stored) ++ rs.map WalRecord.stored := by
  intro dir opened after shortAfter fewAfter safe
  obtain ⟨_, _, _, _, dirOpened, records⟩ := openDir_single env reg.manifest isB
    (segment xs ++ (encodeEntry x).take t) maxSegmentSize
  obtain ⟨holds, named', sole⟩ :=
    holds_openDir env manifest short few fits named isB maxSegmentSize
  have stored : xs.map (readBack (openManifest reg.manifest)) = xs.map fun x => x.2.stored := by
    refine List.map_congr_left fun y inside => ?_
    have registry := (openDir_single env reg.manifest isB (segment xs) maxSegmentSize).1
    rw [← registry]
    exact named'.readBack_eq inside
  have first : opened.2 = xs.map fun x => x.2.stored := by
    rw [← stored, ← readWalFile_torn env (openManifest reg.manifest) fits xFits torn]
    exact records
  refine ⟨first, ?_⟩
  rcases safe with rfl | rfl
  · have whole : dir = .single reg.manifest isB (segment xs) := by simp [dir]
    have after_eq : after =
        ((openDir env (.single reg.manifest isB (segment xs)) maxSegmentSize).1).appendAll rs := by
      simp only [after, opened, whole]
    rw [after_eq] at shortAfter fewAfter ⊢
    obtain ⟨ys, appended, holds', namedAfter⟩ := holds.appendAll rsFit
    have recovered := holds'.recovered (namedAfter named' fewAfter)
      ((inactive_appendAll rs).trans sole) env maxSegmentSize shortAfter fewAfter
    rw [recovered, List.map_append, ← appended, List.map_map]
    rfl
  · have same : after.dir = dir := dirOpened
    rw [same, List.map_nil, List.append_nil]
    exact first

/-- The registry of one queue. -/
def oneQueue : QueueRegistry := (QueueRegistry.empty.getOrRegister "a").1

theorem torn_tail_recovers_sample :
    let xs : List WalEntry := [(0, .push 1 "a" 1600000000 [5])]
    let dir : DataDir :=
      .single oneQueue.manifest true (segment xs ++ (encodeEntry (0, .ack 1 "a")).take 0)
    let opened := openDir .sample dir 64
    let after := opened.1.appendAll [.push 2 "b" 1600000000 [6]]
    opened.2 = [.push 1 "a" 1600000000 [5]] ∧
      (openDir .sample after.dir 64).2 =
        [.push 1 "a" 1600000000 [5], .push 2 "b" 1600000000 [6]] := by
  have manifested : oneQueue.Manifested := by
    unfold Manifested
    decide +kernel
  have fits : ∀ x ∈ ([(0, .push 1 "a" 1600000000 [5])] : List WalEntry), x.Fits := by decide +kernel
  exact torn_tail_recovers .sample manifested (by decide +kernel) (by decide +kernel) fits
    (by decide +kernel) (0, .ack 1 "a") (by decide +kernel) 0 (by decide +kernel) true 64
    [.push 2 "b" 1600000000 [6]] (by decide +kernel) (by decide +kernel) (by decide +kernel)
    (Or.inl rfl)

/-- The first four bytes of an Ack, and a Push appended behind them: the next `open` reads
an Ack that was never written, and the Push is gone. -/
theorem torn_tail_swallows :
    let dir : DataDir := .single oneQueue.manifest false
      (segment [(0, .push 1 "a" 1600000000 [5])] ++ (encodeEntry (0, .ack 1 "a")).take 4)
    let opened := openDir .sample dir 64
    let after := opened.1.appendAll [.push 2 "a" 1600000000 [6]]
    opened.2 = [.push 1 "a" 1600000000 [5]] ∧
      (∀ r ∈ (openDir .sample after.dir 64).2, r.msgId ≠ 2) ∧
      (openDir .sample after.dir 64).2.length = 2 := by
  decide +kernel

end DiskLog

end WalrQueue
