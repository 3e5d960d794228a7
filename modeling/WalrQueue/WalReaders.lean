import WalrQueue.Run
import WalrQueue.WalRoundTrip

/-!
# The two readers of a segment

`read_wal_file` reads a whole file through a `Buf` cursor, whose `get_*` methods panic
when too few bytes remain.  It is written here once more with every such read checked: on
any bytes no read goes out of bounds, and of a cut segment it returns exactly the records
that are whole.

`read_entries_from_offset` looks at a window of 1 MiB.  Called again and again it returns
what `read_wal_file` returns, unless a record is longer than the window: it then reads
nothing at that record and never gets past it.
-/

namespace WalrQueue

open BigEndian

/-! ## Checked reads -/

/-- A read past the end of the bytes, where `Buf` panics. -/
inductive ReadFault where
  | outOfBounds
  deriving DecidableEq

/-- The next `width` bytes and the cursor behind them: `&cur[..width]` and
`cur.advance(width)`. -/
def takeBytes (width : Nat) (cur : List UInt8) : Except ReadFault (List UInt8 × List UInt8) :=
  if cur.length < width then .error .outOfBounds else .ok (cur.take width, cur.drop width)

/-- `get_u16`, `get_u32` and `get_u128`. -/
def getUint (width : Nat) (cur : List UInt8) : Except ReadFault (Nat × List UInt8) := do
  let (bytes, cur) ← takeBytes width cur
  return (ofBE bytes, cur)

/-- One turn of the loop of `read_wal_file`; `none` is its `break`. -/
def readRecord (env : Env) (reg : QueueRegistry) :
    List UInt8 → Except ReadFault (Option (WalRecord × List UInt8))
  | [] => return none
  | flags :: cur => do
      if flags &&& 0x01 ≠ 0 then
        if cur.length < 18 then return none
        else
          let (ulidRaw, cur) ← getUint 16 cur
          let (qId, cur) ← getUint 2 cur
          return some (.ack (BitVec.ofNat 128 ulidRaw) (recordQueue reg qId), cur)
      else if cur.length < 26 then return none
      else
        let (ulidRaw, cur) ← getUint 16 cur
        let (relTs, cur) ← getUint 4 cur
        let (qId, cur) ← getUint 2 cur
        let (payloadLen, cur) ← getUint 4 cur
        if cur.length < payloadLen then return none
        else
          let (raw, cur) ← takeBytes payloadLen cur
          let payload :=
            if flags &&& 0x02 ≠ 0 then (env.zstdDecodeAll raw).getD raw else raw
          return some (.push (BitVec.ofNat 128 ulidRaw) (recordQueue reg qId)
            (relTs + epoch2020Sec) payload, cur)

/-- The loop of `read_wal_file` for at most `fuel` records. -/
def readRecords (env : Env) (reg : QueueRegistry) :
    Nat → List UInt8 → Except ReadFault (List WalRecord)
  | 0, _ => return []
  | fuel + 1, cur => do
      match ← readRecord env reg cur with
      | none => return []
      | some (record, rest) =>
          let more ← readRecords env reg fuel rest
          return record :: more

variable {env : Env} {reg : QueueRegistry}

theorem takeBytes_of_le {width : Nat} {cur : List UInt8} (enough : width ≤ cur.length) :
    takeBytes width cur = .ok (cur.take width, cur.drop width) :=
  if_neg (Nat.not_lt.2 enough)

theorem getUint_of_le {width : Nat} {cur : List UInt8} (enough : width ≤ cur.length) :
    getUint width cur = .ok (ofBE (cur.take width), cur.drop width) := by
  rw [getUint, takeBytes_of_le enough]
  rfl

/-- Every read of a turn is covered by a length test before it. -/
theorem readRecord_eq (cur : List UInt8) :
    readRecord env reg cur = .ok (decodeRecord env reg cur) := by
  cases cur with
  | nil => rfl
  | cons flags cur =>
      unfold readRecord decodeRecord
      dsimp only
      by_cases isAck : flags &&& 0x01 ≠ 0
      · rw [if_pos isAck, if_pos isAck]
        by_cases short : cur.length < 18
        · rw [if_pos short, if_pos short]
          rfl
        · rw [if_neg short, if_neg short, getUint_of_le (by omega)]
          simp only [bind, Except.bind]
          rw [getUint_of_le (by simp; omega)]
          simp [pure, Except.pure]
      · rw [if_neg isAck, if_neg isAck]
        by_cases short : cur.length < 26
        · rw [if_pos short, if_pos short]
          rfl
        · rw [if_neg short, if_neg short, getUint_of_le (by omega)]
          simp only [bind, Except.bind]
          rw [getUint_of_le (by simp; omega)]
          dsimp only
          rw [getUint_of_le (by simp; omega)]
          dsimp only
          rw [getUint_of_le (by simp; omega)]
          simp only [List.drop_drop, Nat.reduceAdd]
          by_cases torn : (cur.drop 26).length < ofBE ((cur.drop 22).take 4)
          · rw [if_pos torn, if_pos torn]
            rfl
          · rw [if_neg torn, if_neg torn, takeBytes_of_le (by omega)]
            simp [pure, Except.pure]

/-- No read of `read_wal_file` goes out of bounds, whatever the bytes. -/
theorem readRecords_eq (fuel : Nat) (cur : List UInt8) :
    readRecords env reg fuel cur = .ok (takeRecords env reg fuel cur).1 := by
  induction fuel generalizing cur with
  | zero => rfl
  | succ fuel ih =>
      unfold readRecords takeRecords
      rw [readRecord_eq]
      cases decodeRecord env reg cur with
      | none => rfl
      | some done =>
          simp only [bind, Except.bind, ih]
          rfl

/-! ## A segment that was cut -/

theorem length_segment_take_le (xs : List WalEntry) {i j : Nat} (le : i ≤ j) :
    (segment (xs.take i)).length ≤ (segment (xs.take j)).length := by
  have split := segment_take_drop (xs.take j) i
  rw [List.take_take, Nat.min_eq_left le] at split
  rw [← split, List.length_append]
  exact Nat.le_add_right _ _

/-- The window reader, with what stops it said as an equivalence. -/
theorem takeRecords_whole (env : Env) (reg : QueueRegistry) {xs : List WalEntry}
    (fits : ∀ x ∈ xs, x.Fits) (n w : Nat) :
    ∃ k ≤ xs.length, (∀ j ≤ xs.length, j ≤ k ↔ j ≤ n ∧ (segment (xs.take j)).length ≤ w) ∧
      (takeRecords env reg n ((segment xs).take w)).1 = (xs.take k).map (readBack reg) := by
  obtain ⟨k, kn, kx, inside, maximal, taken⟩ := takeRecords_window env reg fits n w
  refine ⟨k, kx, fun j jx => ⟨fun jk => ⟨jk.trans kn, ?_⟩, fun ⟨jn, jw⟩ => ?_⟩, by rw [taken]⟩
  · exact (length_segment_take_le xs jk).trans inside
  · by_contra more
    have late := maximal (by omega) (by omega)
    have le := length_segment_take_le xs (i := k + 1) (j := j) (by omega)
    omega

/-- Of a prefix of a segment `read_wal_file` returns the records that end inside it. -/
theorem readWalFile_whole (env : Env) (reg : QueueRegistry) {xs : List WalEntry}
    (fits : ∀ x ∈ xs, x.Fits) (cut : Nat) :
    ∃ k ≤ xs.length, (∀ j ≤ xs.length, j ≤ k ↔ (segment (xs.take j)).length ≤ cut) ∧
      readWalFile env reg ((segment xs).take cut) = (xs.take k).map (readBack reg) := by
  obtain ⟨k, kx, whole, taken⟩ :=
    takeRecords_whole env reg fits ((segment xs).take cut).length cut
  refine ⟨k, kx, fun j jx => ?_, taken⟩
  rw [whole j jx]
  refine and_iff_right_of_imp fun inside => ?_
  -- a record has at least one byte, so the fuel is never what stops the reader
  have records := length_le_segment (xs.take j)
  have total := length_segment_take_le xs jx
  rw [List.take_length] at total
  simp only [List.length_take, Nat.min_eq_left jx] at records ⊢
  omega

/-- A segment with a torn record at its end. -/
theorem readWalFile_torn (env : Env) (reg : QueueRegistry) {xs : List WalEntry}
    (fits : ∀ x ∈ xs, x.Fits) {x : WalEntry} (xFits : x.Fits) {t : Nat}
    (torn : t < (encodeEntry x).length) :
    readWalFile env reg (segment xs ++ (encodeEntry x).take t) = xs.map (readBack reg) := by
  have all : ∀ y ∈ xs ++ [x], y.Fits := by
    intro y inside
    rcases List.mem_append.1 inside with old | last
    · exact fits y old
    · rw [List.mem_singleton.1 last]
      exact xFits
  obtain ⟨k, kx, whole, read⟩ := readWalFile_whole env reg all ((segment xs).length + t)
  have content : (segment (xs ++ [x])).take ((segment xs).length + t) =
      segment xs ++ (encodeEntry x).take t := by
    rw [segment_append, List.take_append, List.take_of_length_le (by omega)]
    simp
  have before := (whole xs.length (by simp)).2 (by simp)
  have notLast : ¬ (xs ++ [x]).length ≤ k := by
    rw [whole _ le_rfl, List.take_length]
    simp only [segment_append, segment_cons, segment_nil, List.append_nil, List.length_append]
    omega
  have k_eq : k = xs.length := by
    simp only [List.length_append, List.length_singleton] at notLast
    omega
  rw [content, k_eq, List.take_left] at read
  exact read

/-- Of every prefix of a segment `read_wal_file` returns exactly the records that end
inside it, in order, and reads nothing out of bounds. -/
theorem readWalFile_cut (env : Env) (reg : QueueRegistry) {xs : List WalEntry}
    (fits : ∀ x ∈ xs, x.Fits) (cut : Nat) :
    let raw := (segment xs).take cut
    ∃ k ≤ xs.length, (∀ j ≤ xs.length, j ≤ k ↔ (segment (xs.take j)).length ≤ cut) ∧
      readRecords env reg raw.length raw = .ok ((xs.take k).map (readBack reg)) ∧
      readWalFile env reg raw = (xs.take k).map (readBack reg) := by
  intro raw
  obtain ⟨k, kx, whole, read⟩ := readWalFile_whole env reg fits cut
  refine ⟨k, kx, whole, ?_, read⟩
  rw [readRecords_eq]
  exact congrArg Except.ok read

instance (r : WalRecord) : Decidable r.Fits :=
  match r with
  | .push _ _ _ payload => inferInstanceAs (Decidable (payload.length < 2 ^ 32))
  | .ack _ _ => isTrue trivial

instance (x : WalEntry) : Decidable x.Fits := inferInstanceAs (Decidable (_ ∧ _))

theorem readWalFile_cut_sample :
    let xs : List WalEntry := [(3, .push 7 "jobs" 1600000000 [1, 2]), (0, .ack 7 "jobs")]
    let raw := (segment xs).take 40
    (∀ x ∈ xs, x.Fits) ∧ readWalFile .sample .empty raw = [.push 7 "default" 1600000000 [1, 2]] ∧
      ∃ k ≤ xs.length, (∀ j ≤ xs.length, j ≤ k ↔ (segment (xs.take j)).length ≤ 40) ∧
        readRecords .sample .empty raw.length raw = .ok ((xs.take k).map (readBack .empty)) ∧
        readWalFile .sample .empty raw = (xs.take k).map (readBack .empty) :=
  ⟨by decide +kernel, by decide +kernel, readWalFile_cut .sample .empty (by decide +kernel) 40⟩

/-! ## Reading page by page -/

/-- Calls of `read_entries_from_offset`, each from the offset the one before returned,
until one returns no record, and at most `fuel` of them. -/
def DiskLog.readPages (env : Env) (d : DiskLog) (maxEntries : Nat) : Nat → Nat → List WalRecord
  | 0, _ => []
  | fuel + 1, offset =>
      let page := d.readEntriesFromOffset env offset maxEntries
      if page.1 = [] then [] else page.1 ++ d.readPages env maxEntries fuel page.2

variable {d : DiskLog} {xs : List WalEntry} {i n : Nat}

theorem length_encodeEntry_le {ys : List WalEntry} {x : WalEntry} (inside : x ∈ ys) :
    (encodeEntry x).length ≤ (segment ys).length := by
  obtain ⟨before, after, rfl⟩ := List.append_of_mem inside
  simp only [segment_append, segment_cons, List.length_append]
  omega

/-- One page, from a record boundary. -/
theorem DiskLog.readEntriesFromOffset_page (env : Env) (active : d.active = segment xs)
    (fits : ∀ x ∈ xs, x.Fits) (inside : i ≤ xs.length) (n : Nat) :
    ∃ k, i + k ≤ xs.length ∧ (segment ((xs.drop i).take k)).length ≤ readWindow ∧
      (k < n → i + k < xs.length → readWindow < (segment ((xs.drop i).take (k + 1))).length) ∧
      d.readEntriesFromOffset env (segment (xs.take i)).length n =
        (((xs.drop i).take k).map (readBack d.registry), (segment (xs.take (i + k))).length) := by
  unfold DiskLog.readEntriesFromOffset
  rw [active]
  exact readEntries_segment fits inside n

/-- When every record fits in the window, the pages are the rest of the segment. -/
theorem DiskLog.readPages_of_small (env : Env) (active : d.active = segment xs)
    (fits : ∀ x ∈ xs, x.Fits) (small : ∀ x ∈ xs, (encodeEntry x).length ≤ readWindow)
    (some : 1 ≤ n) {fuel : Nat} (inside : i ≤ xs.length) (enough : xs.length - i < fuel) :
    d.readPages env n fuel (segment (xs.take i)).length =
      (xs.drop i).map (readBack d.registry) := by
  induction fuel generalizing i with
  | zero => omega
  | succ fuel ih =>
      obtain ⟨k, bound, _, maximal, page⟩ := readEntriesFromOffset_page env active fits inside n
      rw [readPages, page]
      dsimp only
      by_cases last : i = xs.length
      · subst last
        simp
      · -- a page from inside the segment has at least one record
        have progress : 1 ≤ k := by
          by_contra none
          obtain rfl : k = 0 := by omega
          have more : i < xs.length := by omega
          have cut := maximal some more
          have first : (xs.drop i).take 1 = [xs[i]] := by
            rw [List.drop_eq_getElem_cons more]
            rfl
          have fitting := small xs[i] (List.getElem_mem more)
          rw [Nat.zero_add, first] at cut
          simp only [segment_cons, segment_nil, List.append_nil] at cut
          omega
        have nonempty : ((xs.drop i).take k).map (readBack d.registry) ≠ [] := by
          intro empty
          have length := congrArg List.length empty
          simp only [List.length_map, List.length_take, List.length_drop, List.length_nil] at length
          omega
        rw [if_neg nonempty, ih bound (by omega), ← List.map_append, ← List.drop_drop,
          List.take_append_drop]

/-- The pages never get past a record that is longer than the window. -/
theorem DiskLog.length_readPages_le (env : Env) (active : d.active = segment xs)
    (fits : ∀ x ∈ xs, x.Fits) {j : Nat} (here : j < xs.length)
    (long : readWindow < (encodeEntry xs[j]).length) (fuel : Nat) (before : i ≤ j) :
    (d.readPages env n fuel (segment (xs.take i)).length).length ≤ j - i := by
  induction fuel generalizing i with
  | zero => simp [readPages]
  | succ fuel ih =>
      obtain ⟨k, bound, window, _, page⟩ :=
        readEntriesFromOffset_page (i := i) env active fits (by omega) n
      have stops : i + k ≤ j := by
        by_contra past
        have member : xs[j] ∈ (xs.drop i).take k := by
          refine List.mem_iff_getElem.2 ⟨j - i, ?_, ?_⟩
          · simp only [List.length_take, List.length_drop]
            omega
          · simp only [List.getElem_take, List.getElem_drop]
            congr 1
            omega
        have := length_encodeEntry_le member
        omega
      have rest := ih stops
      rw [readPages, page]
      dsimp only
      split
      · exact Nat.zero_le _
      · simp only [List.length_append, List.length_map, List.length_take, List.length_drop]
        omega

/-- On a segment of encoded records, paging from the start yields what `read_wal_file`
yields exactly when no record is longer than the window. -/
theorem DiskLog.readers_agree_iff (env : Env) (active : d.active = segment xs)
    (fits : ∀ x ∈ xs, x.Fits) (some : 1 ≤ n) {fuel : Nat} (enough : d.active.length < fuel) :
    d.readPages env n fuel 0 = d.activeRecords env ↔
      ∀ x ∈ xs, (encodeEntry x).length ≤ readWindow := by
  have whole : d.activeRecords env = xs.map (readBack d.registry) := by
    rw [activeRecords, active]
    exact readWalFile_segment fits
  have count := length_le_segment xs
  rw [active] at enough
  constructor
  · intro agree x inside
    by_contra long
    obtain ⟨j, here, rfl⟩ := List.mem_iff_getElem.1 inside
    have short := length_readPages_le (n := n) (i := 0) env active fits here (by omega) fuel
      (Nat.zero_le j)
    have start : (segment (xs.take 0)).length = 0 := rfl
    rw [start, agree, whole, List.length_map] at short
    omega
  · intro small
    rw [whole]
    exact readPages_of_small (i := 0) env active fits small some (Nat.zero_le _) (by omega)

theorem DiskLog.readers_agree_sample :
    let xs : List WalEntry := [(0, .push 7 "jobs" 1600000000 [1, 2]), (0, .ack 7 "jobs")]
    let d : DiskLog := ⟨.empty, segment xs, [], false, 48, 64⟩
    d.readPages .sample 1 49 0 = d.activeRecords .sample ∧
      (d.readPages .sample 1 49 0 = d.activeRecords .sample ↔
        ∀ x ∈ xs, (encodeEntry x).length ≤ readWindow) :=
  ⟨by decide +kernel, DiskLog.readers_agree_iff .sample (n := 1) rfl (by decide +kernel) le_rfl
    (by decide +kernel)⟩

/-- A Push of 1 MiB of payload, and the Ack of another message. -/
def longEntries : List WalEntry :=
  [(0, .push 7 "jobs" 1600000000 (List.replicate (1024 * 1024) 0)), (0, .ack 8 "jobs")]

theorem longEntries_fit : ∀ x ∈ longEntries, x.Fits := by
  intro x inside
  simp only [longEntries, List.mem_cons, List.not_mem_nil, or_false] at inside
  rcases inside with rfl | rfl
  · refine ⟨by norm_num, ?_⟩
    simp only [WalRecord.Fits, List.length_replicate]
    norm_num
  · exact ⟨by norm_num, trivial⟩

/-- Paging returns nothing of a segment that starts with a long record, however often it is
called, and `read_wal_file` returns both records. -/
theorem DiskLog.readers_disagree :
    let d : DiskLog := ⟨.empty, segment longEntries, [], false, 1048622, 64⟩
    (∀ maxEntries fuel, d.readPages .sample maxEntries fuel 0 = []) ∧
      (d.activeRecords .sample).length = 2 := by
  intro d
  have active : d.active = segment longEntries := rfl
  have first : 0 < longEntries.length := by decide
  have long : readWindow < (encodeEntry longEntries[0]).length := by
    simp only [longEntries, List.getElem_cons_zero, encodeEntry, encodeRecord, encodePush_length,
      List.length_replicate, readWindow]
    norm_num
  refine ⟨fun maxEntries fuel => ?_, ?_⟩
  · have none := length_readPages_le (n := maxEntries) (i := 0) .sample active longEntries_fit
      first long fuel le_rfl
    exact List.eq_nil_of_length_eq_zero (Nat.le_zero.1 none)
  · rw [activeRecords, active, readWalFile_segment longEntries_fit, List.length_map]
    rfl

end WalrQueue
