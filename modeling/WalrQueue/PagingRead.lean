import WalrQueue.WalReaders

/-!
# One paging read

`read_entries_from_offset` keeps three positions: the cursor in the window, the bytes
consumed, and the place of a payload in the window, from which the payload is sliced.  It is
written here once more with all three and with every read and slice checked; on any bytes
they agree.

At a record boundary a read returns the records that are whole in the window, up to the
limit.  The length field of a record has 32 bits: a payload of 4 GiB or more is read as a
shorter one, and the read is exact unless that shorter record fits in the window.
-/

namespace WalrQueue

open BigEndian

variable {env : Env} {reg : QueueRegistry}

/-! ## The reader with its positions -/

/-- `raw_frozen.slice(start..stop)`, which panics outside the window. -/
def sliceBytes (raw : List UInt8) (start stop : Nat) : Except ReadFault (List UInt8) :=
  if stop < start ∨ raw.length < stop then .error .outOfBounds
  else .ok ((raw.drop start).take (stop - start))

/-- One turn of the loop of `read_entries_from_offset` over the window `raw`; `none` is its
`break`. -/
def pageRecord (env : Env) (reg : QueueRegistry) (raw : List UInt8) :
    List UInt8 → Except ReadFault (Option (WalRecord × List UInt8))
  | [] => return none
  | flags :: cur => do
      if flags &&& 0x01 ≠ 0 then
        if cur.length < 18 then return none
        else
          let (ulidRaw, cur) ← getUint 16 cur
          let (qId, cur) ← getUint 2 cur
          return some (.ack (BitVec.ofNat 128 ulidRaw) (recordQueue reg qId), cur)
      else if cur.length < 26 then return none
      else
        let (ulidRaw, cur) ← getUint 16 cur
        let (relTs, cur) ← getUint 4 cur
        let (qId, cur) ← getUint 2 cur
        let (payloadLen, cur) ← getUint 4 cur
        if cur.length < payloadLen then return none
        else
          let currentOffset := raw.length - cur.length
          let (_, cur) ← takeBytes payloadLen cur
          let slice ← sliceBytes raw currentOffset (currentOffset + payloadLen)
          let payload :=
            if flags &&& 0x02 ≠ 0 then (env.zstdDecodeAll slice).getD slice else slice
          return some (.push (BitVec.ofNat 128 ulidRaw) (recordQueue reg qId)
            (relTs + epoch2020Sec) payload, cur)

/-- The loop of `read_entries_from_offset` for at most `left` records, with the bytes
consumed so far. -/
def pageRecords (env : Env) (reg : QueueRegistry) (raw : List UInt8) :
    Nat → List UInt8 → Nat → Except ReadFault (List WalRecord × Nat)
  | 0, _, bytesConsumed => return ([], bytesConsumed)
  | left + 1, cur, bytesConsumed => do
      match ← pageRecord env reg raw cur with
      | none => return ([], bytesConsumed)
      | some (record, rest) =>
          let more ← pageRecords env reg raw left rest
            (bytesConsumed + (cur.length - rest.length))
          return (record :: more.1, more.2)

/-- `read_entries_from_offset` with its three positions. -/
def DiskLog.pageFromOffset (env : Env) (d : DiskLog) (offset maxEntries : Nat) :
    Except ReadFault (List WalRecord × Nat) := do
  let fileLen := d.active.length
  if fileLen ≤ offset then return ([], fileLen)
  else
    let toRead := min (fileLen - offset) readWindow
    let raw := (d.active.drop offset).take toRead
    let done ← pageRecords env d.registry raw maxEntries raw 0
    return (done.1, offset + done.2)

theorem sliceBytes_suffix {raw cur : List UInt8} (suffix : cur <:+ raw) {width : Nat}
    (enough : width ≤ cur.length) :
    sliceBytes raw (raw.length - cur.length) (raw.length - cur.length + width) =
      .ok (cur.take width) := by
  obtain ⟨before, rfl⟩ := suffix
  have start : (before ++ cur).length - cur.length = before.length := by simp
  rw [start, sliceBytes, if_neg (by simp; omega), List.drop_left]
  simp

theorem drop_suffix_cons {flags : UInt8} {cur raw : List UInt8} (suffix : flags :: cur <:+ raw)
    (n : Nat) : cur.drop n <:+ raw :=
  (List.drop_suffix n cur).trans ((List.suffix_cons flags cur).trans suffix)

/-- A turn whose cursor is the rest of the window reads nothing outside it. -/
theorem pageRecord_eq {raw cur : List UInt8} (suffix : cur <:+ raw) :
    pageRecord env reg raw cur = .ok (decodeRecord env reg cur) := by
  cases cur with
  | nil => rfl
  | cons flags cur =>
      unfold pageRecord decodeRecord
      dsimp only
      by_cases isAck : flags &&& 0x01 ≠ 0
      · rw [if_pos isAck, if_pos isAck]
        by_cases short : cur.length < 18
        · rw [if_pos short, if_pos short]
          rfl
        · rw [if_neg short, if_neg short, getUint_of_le (by omega)]
          simp only [bind, Except.bind]
          rw [getUint_of_le (by simp; omega)]
          simp [pure, Except.pure]
      · rw [if_neg isAck, if_neg isAck]
        by_cases short : cur.length < 26
        · rw [if_pos short, if_pos short]
          rfl
        · rw [if_neg short, if_neg short, getUint_of_le (by omega)]
          simp only [bind, Except.bind]
          rw [getUint_of_le (by simp; omega)]
          dsimp only
          rw [getUint_of_le (by simp; omega)]
          dsimp only
          rw [getUint_of_le (by simp; omega)]
          simp only [List.drop_drop, Nat.reduceAdd]
          by_cases torn : (cur.drop 26).length < ofBE ((cur.drop 22).take 4)
          · rw [if_pos torn, if_pos torn]
            rfl
          · rw [if_neg torn, if_neg torn, takeBytes_of_le (by omega)]
            dsimp only
            rw [sliceBytes_suffix (drop_suffix_cons suffix 26) (by omega)]
            simp [pure, Except.pure]

theorem decodeRecord_suffix {cur rest : List UInt8} {r : WalRecord}
    (decoded : decodeRecord env reg cur = some (r, rest)) : rest <:+ cur := by
  obtain ⟨used, -, rfl, -⟩ := decodeRecord_block decoded
  exact List.suffix_append used rest

/-! ## The positions agree -/

/-- The loop reads nothing outside the window, and the bytes it counts are those the
cursor moved over. -/
theorem pageRecords_eq {raw cur : List UInt8} (suffix : cur <:+ raw) (left consumed : Nat) :
    pageRecords env reg raw left cur consumed = .ok ((takeRecords env reg left cur).1,
      consumed + (cur.length - (takeRecords env reg left cur).2.length)) := by
  induction left generalizing cur consumed with
  | zero => simp [pageRecords, takeRecords, pure, Except.pure]
  | succ left ih =>
      unfold pageRecords takeRecords
      rw [pageRecord_eq suffix]
      cases decoded : decodeRecord env reg cur with
      | none => simp [bind, Except.bind, pure, Except.pure]
      | some done =>
          obtain ⟨record, rest⟩ := done
          have back := (decodeRecord_suffix decoded).length_le
          have further := (takeRecords_suffix env reg left rest).length_le
          simp only [bind, Except.bind, ih ((decodeRecord_suffix decoded).trans suffix)]
          simp only [pure, Except.pure]
          congr 2
          omega

theorem DiskLog.pageFromOffset_eq (env : Env) (d : DiskLog) (offset maxEntries : Nat) :
    d.pageFromOffset env offset maxEntries =
      .ok (d.readEntriesFromOffset env offset maxEntries) := by
  unfold pageFromOffset readEntriesFromOffset readEntries
  dsimp only
  split
  · rfl
  · have window : (d.active.drop offset).take (min (d.active.length - offset) readWindow) =
        (d.active.drop offset).take readWindow := by
      rw [← List.length_drop, Nat.min_comm, ← List.take_eq_take_min]
    rw [window, pageRecords_eq List.suffix_rfl]
    simp [bind, Except.bind, pure, Except.pure]

/-- The new offset stays inside the file, unless the old one was outside already. -/
theorem readEntries_le (file : List UInt8) (offset maxEntries : Nat) :
    (readEntries env reg file offset maxEntries).2 ≤ max offset file.length := by
  unfold readEntries
  split
  · exact le_max_right _ _
  · dsimp only
    have window : ((file.drop offset).take readWindow).length ≤ file.length - offset := by
      rw [List.length_take, List.length_drop]
      exact min_le_right _ _
    omega

/-! ## Whole records in a window -/

/-- The number of records that are complete within the first `width` bytes. -/
def completeWithin : Nat → List WalEntry → Nat
  | _, [] => 0
  | width, x :: xs =>
      if (encodeEntry x).length ≤ width then
        completeWithin (width - (encodeEntry x).length) xs + 1
      else 0

/-- The entry with its payload cut to the length that its 32-bit field spells. -/
def WalEntry.spelled (x : WalEntry) : WalEntry :=
  match x.2 with
  | .push msgId queue visibleAt payload =>
      (x.1, .push msgId queue visibleAt (payload.take (payload.length % 2 ^ 32)))
  | .ack msgId queue => (x.1, .ack msgId queue)

theorem spelled_of_fits {x : WalEntry} (fits : x.2.Fits) : x.spelled = x := by
  rcases x with ⟨qId, record⟩
  cases record with
  | ack msgId queue => rfl
  | push msgId queue visibleAt payload =>
      have short : payload.length < 2 ^ 32 := fits
      simp only [WalEntry.spelled, Nat.mod_eq_of_lt short, List.take_length]

theorem spelled_fits {x : WalEntry} (id : x.1 < 2 ^ 16) : x.spelled.Fits := by
  rcases x with ⟨qId, record⟩
  cases record with
  | ack msgId queue => exact ⟨id, trivial⟩
  | push msgId queue visibleAt payload =>
      refine ⟨id, ?_⟩
      have cut := List.length_take_le (payload.length % 2 ^ 32) payload
      exact cut.trans_lt (Nat.mod_lt _ (by norm_num))

/-- The bytes of an entry start with those of the entry its length field spells. -/
theorem encodeEntry_spelled (x : WalEntry) :
    ∃ rest, encodeEntry x = encodeEntry x.spelled ++ rest := by
  rcases x with ⟨qId, record⟩
  cases record with
  | ack msgId queue => exact ⟨[], (List.append_nil _).symm⟩
  | push msgId queue visibleAt payload =>
      refine ⟨payload.drop (payload.length % 2 ^ 32), ?_⟩
      have cut : (payload.take (payload.length % 2 ^ 32)).length = payload.length % 256 ^ 4 := by
        rw [List.length_take, Nat.min_eq_left (Nat.mod_le _ _)]
        norm_num
      simp only [encodeEntry, WalEntry.spelled, encodeRecord, encodePush, cut,
        toBE_mod 4 payload.length le_rfl, List.cons_append, List.append_assoc,
        List.take_append_drop]

/-- A window onto an entry decodes exactly when it holds the spelled entry. -/
theorem decodeRecord_window {x : WalEntry} (id : x.1 < 2 ^ 16) (after : List UInt8) (w : Nat) :
    decodeRecord env reg ((encodeEntry x ++ after).take w) = none ↔
      w < (encodeEntry x.spelled).length := by
  obtain ⟨rest, bytes⟩ := encodeEntry_spelled x
  rw [bytes, List.append_assoc]
  by_cases whole : (encodeEntry x.spelled).length ≤ w
  · rw [List.take_append, List.take_of_length_le whole, decodeRecord_encode (spelled_fits id)]
    simp [whole]
  · rw [List.take_append_of_le_length (by omega)]
    exact iff_of_true (decodeRecord_torn (spelled_fits id) (by omega)) (by omega)

/-- A record that a window of `width` bytes shows as it is: its length field holds the
length of its payload, or spells a record too long for the window. -/
def WalEntry.LegibleIn (width : Nat) (x : WalEntry) : Prop :=
  x.2.Fits ∨ width < (encodeEntry x.spelled).length

instance (width : Nat) (x : WalEntry) : Decidable (x.LegibleIn width) :=
  inferInstanceAs (Decidable (_ ∨ _))

theorem length_spelled_le (x : WalEntry) :
    (encodeEntry x.spelled).length ≤ (encodeEntry x).length := by
  obtain ⟨rest, bytes⟩ := encodeEntry_spelled x
  rw [bytes, List.length_append]
  exact Nat.le_add_right _ _

theorem WalEntry.LegibleIn.fits {width w : Nat} {x : WalEntry} (legible : x.LegibleIn width)
    (small : w ≤ width) (whole : (encodeEntry x).length ≤ w) : x.2.Fits := by
  have shorter := length_spelled_le x
  rcases legible with fits | long
  · exact fits
  · omega

theorem WalEntry.LegibleIn.cut {width w : Nat} {x : WalEntry} (legible : x.LegibleIn width)
    (small : w ≤ width) (cut : w < (encodeEntry x).length) :
    w < (encodeEntry x.spelled).length := by
  rcases legible with fits | long
  · rwa [spelled_of_fits fits]
  · omega

theorem decodeRecord_tail {x : WalEntry} (id : x.1 < 2 ^ 16) (t w : Nat) :
    decodeRecord env reg (((encodeEntry x).take t).take w) = none ↔
      min w t < (encodeEntry x.spelled).length := by
  have window := @decodeRecord_window env reg x id [] (min w t)
  rwa [List.append_nil, ← List.take_take] at window

theorem length_completeWithin_le (xs : List WalEntry) (w : Nat) :
    (segment (xs.take (completeWithin w xs))).length ≤ w := by
  induction xs generalizing w with
  | nil => simp
  | cons x xs ih =>
      unfold completeWithin
      split
      · rename_i whole
        have rest := ih (w - (encodeEntry x).length)
        rw [List.take_succ_cons, segment_cons, List.length_append]
        omega
      · simp

/-- The reader takes the records that are complete in its window, up to its limit. -/
theorem takeRecords_page {ys : List WalEntry} {tail : List UInt8} {width : Nat}
    (ids : ∀ y ∈ ys, y.1 < 2 ^ 16) (legible : ∀ y ∈ ys, y.LegibleIn width)
    (torn : ∀ w ≤ width, decodeRecord env reg (tail.take w) = none) (n : Nat) {w : Nat}
    (small : w ≤ width) :
    takeRecords env reg n ((segment ys ++ tail).take w) =
      ((ys.take (min n (completeWithin w ys))).map (readBack reg),
        ((segment ys ++ tail).take w).drop
          (segment (ys.take (min n (completeWithin w ys)))).length) := by
  induction n generalizing ys w with
  | zero => simp [takeRecords]
  | succ n ih =>
      cases ys with
      | nil =>
          rw [takeRecords, segment_nil, List.nil_append, torn w small]
          simp
      | cons y ys =>
          obtain ⟨idFits, ids⟩ := List.forall_mem_cons.1 ids
          obtain ⟨first, legible⟩ := List.forall_mem_cons.1 legible
          rw [takeRecords, segment_cons, List.append_assoc]
          by_cases whole : (encodeEntry y).length ≤ w
          · have fits : y.Fits := ⟨idFits, first.fits small whole⟩
            have count : completeWithin w (y :: ys) =
                completeWithin (w - (encodeEntry y).length) ys + 1 := if_pos whole
            rw [List.take_append, List.take_of_length_le whole, decodeRecord_encode fits]
            dsimp only
            rw [ih ids legible (by omega), count, Nat.add_min_add_right, List.take_succ_cons,
              segment_cons, List.map_cons, List.length_append, List.drop_append,
              List.drop_of_length_le (Nat.le_add_right _ _), List.nil_append,
              Nat.add_sub_cancel_left]
          · have count : completeWithin w (y :: ys) = 0 := if_neg whole
            rw [(decodeRecord_window idFits _ w).2 (first.cut small (by omega)), count]
            simp

/-- From every record boundary, up to every limit, a read returns the records that are
complete within the window and the rest of the file, and the boundary after them. -/
def DiskLog.PagesExactly (env : Env) (d : DiskLog) (xs : List WalEntry) : Prop :=
  ∀ i ≤ xs.length, ∀ maxEntries,
    let offset := (segment (xs.take i)).length
    let k := min maxEntries
      (completeWithin (min readWindow (d.active.length - offset)) (xs.drop i))
    d.readEntriesFromOffset env offset maxEntries =
      (((xs.drop i).take k).map (readBack d.registry), (segment (xs.take (i + k))).length)

section Exact

variable {d : DiskLog} {xs : List WalEntry} {tail : List UInt8} {i : Nat}

theorem drop_boundary (xs : List WalEntry) (tail : List UInt8) (i : Nat) :
    (segment xs ++ tail).drop (segment (xs.take i)).length = segment (xs.drop i) ++ tail := by
  rw [← segment_take_drop xs i, List.append_assoc, List.drop_left]

theorem DiskLog.pagesExactly_of_legible (active : d.active = segment xs ++ tail)
    (ids : ∀ y ∈ xs, y.1 < 2 ^ 16) (legible : ∀ y ∈ xs, y.LegibleIn readWindow)
    (torn : ∀ w ≤ readWindow, decodeRecord env d.registry (tail.take w) = none) :
    d.PagesExactly env xs := by
  intro i inside maxEntries offset k
  have dropped : d.active.drop offset = segment (xs.drop i) ++ tail := by
    rw [active, drop_boundary]
  have left : d.active.length - offset = (segment (xs.drop i) ++ tail).length := by
    rw [← dropped, List.length_drop]
  have boundary : (segment (xs.take (i + k))).length =
      offset + (segment ((xs.drop i).take k)).length := by
    rw [← List.length_append, ← segment_append, ← List.take_add]
  unfold readEntriesFromOffset readEntries
  split
  · -- the offset is the end of the file, and nothing follows
    rename_i past
    have none : segment (xs.drop i) ++ tail = [] :=
      List.eq_nil_of_length_eq_zero (by omega)
    have last : xs.drop i = [] := by
      have count := length_le_segment (xs.drop i)
      rw [(List.append_eq_nil_iff.1 none).1] at count
      exact List.eq_nil_of_length_eq_zero (Nat.le_zero.1 count)
    have reached : offset ≤ d.active.length := by
      have split := congrArg List.length (segment_take_drop xs i)
      rw [active, List.length_append, ← split, List.length_append]
      omega
    rw [boundary, last]
    simp only [List.take_nil, List.map_nil, segment_nil, List.length_nil]
    congr 1
    omega
  · have window : (d.active.drop offset).take readWindow =
        (segment (xs.drop i) ++ tail).take (min readWindow (d.active.length - offset)) := by
      rw [dropped, left, ← List.take_eq_take_min]
    have size : (segment ((xs.drop i).take k)).length ≤
        min readWindow (d.active.length - offset) :=
      (length_segment_take_le _ (Nat.min_le_right _ _)).trans (length_completeWithin_le _ _)
    have restIds : ∀ y ∈ xs.drop i, y.1 < 2 ^ 16 :=
      fun y inside => ids y (List.mem_of_mem_drop inside)
    have restLegible : ∀ y ∈ xs.drop i, y.LegibleIn readWindow :=
      fun y inside => legible y (List.mem_of_mem_drop inside)
    have page : takeRecords env d.registry maxEntries ((segment (xs.drop i) ++ tail).take
        (min readWindow (d.active.length - offset))) = (((xs.drop i).take k).map
          (readBack d.registry), ((segment (xs.drop i) ++ tail).take
            (min readWindow (d.active.length - offset))).drop
              (segment ((xs.drop i).take k)).length) :=
      takeRecords_page restIds restLegible torn maxEntries (Nat.min_le_left _ _)
    rw [window, boundary]
    dsimp only
    rw [page]
    dsimp only
    rw [List.length_drop, List.length_take, ← left]
    congr 2
    omega

theorem readEntries_ne_nil {file : List UInt8} {offset : Nat}
    (decodes : decodeRecord env reg ((file.drop offset).take readWindow) ≠ none) :
    (readEntries env reg file offset 1).1 ≠ [] := by
  unfold readEntries
  split
  · rename_i past
    rw [List.drop_of_length_le past] at decodes
    exact absurd rfl decodes
  · obtain ⟨done, decoded⟩ := Option.ne_none_iff_exists'.1 decodes
    simp [takeRecords, decoded]

theorem long_of_not_fits {x : WalEntry} (long : ¬ x.2.Fits) :
    readWindow < (encodeEntry x).length := by
  rcases x with ⟨qId, record⟩
  cases record with
  | ack msgId queue => exact absurd trivial long
  | push msgId queue visibleAt payload =>
      have big : 2 ^ 32 ≤ payload.length := Nat.not_lt.1 long
      rw [encodeEntry, encodeRecord, encodePush_length, readWindow]
      omega

/-- A payload of 4 GiB or more that is spelled short enough for the window is read as a
shorter record, where nothing is complete. -/
theorem DiskLog.legible_of_pagesExactly (active : d.active = segment xs ++ tail)
    (ids : ∀ y ∈ xs, y.1 < 2 ^ 16) (exact : d.PagesExactly env xs) :
    ∀ y ∈ xs, y.LegibleIn readWindow := by
  intro y inside
  by_contra illegible
  obtain ⟨unfit, short⟩ := not_or.1 illegible
  obtain ⟨j, here, rfl⟩ := List.mem_iff_getElem.1 inside
  have long := long_of_not_fits unfit
  have first : xs.drop j = xs[j] :: xs.drop (j + 1) := List.drop_eq_getElem_cons here
  have none : ∀ w ≤ readWindow, completeWithin w (xs.drop j) = 0 := by
    intro w small
    rw [first]
    exact if_neg (by omega)
  have page := congrArg Prod.fst (exact j here.le 1)
  dsimp only at page
  rw [none _ (Nat.min_le_left _ _), Nat.min_zero, List.take_zero, List.map_nil] at page
  refine readEntries_ne_nil (fun cut => short ?_) page
  rw [active, drop_boundary, first, segment_cons, List.append_assoc] at cut
  exact (decodeRecord_window (ids _ inside) _ _).1 cut

theorem DiskLog.torn_of_pagesExactly (active : d.active = segment xs ++ tail)
    (exact : d.PagesExactly env xs) :
    decodeRecord env d.registry (tail.take readWindow) = none := by
  by_contra decodes
  have page := congrArg Prod.fst (exact xs.length le_rfl 1)
  have rest := drop_boundary xs tail xs.length
  rw [List.drop_length, segment_nil, List.nil_append, ← active] at rest
  rw [← rest] at decodes
  refine readEntries_ne_nil decodes ?_
  rw [List.drop_length, List.take_nil, List.map_nil] at page
  exact page

/-- One paging read.  A segment of encoded records, followed by a proper prefix of one more,
is read exactly, from every boundary and up to every limit, if and only if every record is
legible in the window.  On any bytes and from any offset every read and every payload slice
stays inside the window, the new offset is at most the larger of the old one and the file
length, and it grows when a record is returned. -/
theorem DiskLog.paging_read (env : Env) (d : DiskLog) :
    (∀ (xs : List WalEntry) (x : WalEntry) (t : Nat), (∀ y ∈ x :: xs, y.1 < 2 ^ 16) →
      t < (encodeEntry x).length → d.active = segment xs ++ (encodeEntry x).take t →
      (d.PagesExactly env xs ↔
        (∀ y ∈ xs, y.LegibleIn readWindow) ∧ x.LegibleIn (min readWindow t))) ∧
    ∀ offset maxEntries,
      let read := d.readEntriesFromOffset env offset maxEntries
      d.pageFromOffset env offset maxEntries = .ok read ∧
        read.2 ≤ max offset d.active.length ∧ (read.1 ≠ [] → offset < read.2) := by
  refine ⟨fun xs x t ids short active => ⟨fun exact => ?_, fun ⟨legible, last⟩ => ?_⟩,
    fun offset maxEntries => ?_⟩
  · obtain ⟨lastId, ids⟩ := List.forall_mem_cons.1 ids
    refine ⟨legible_of_pagesExactly active ids exact, .inr ?_⟩
    exact (decodeRecord_tail lastId t readWindow).1 (torn_of_pagesExactly active exact)
  · obtain ⟨lastId, ids⟩ := List.forall_mem_cons.1 ids
    refine pagesExactly_of_legible active ids legible fun w small => ?_
    exact (decodeRecord_tail lastId t w).2 (last.cut (by omega) (by omega))
  · exact ⟨pageFromOffset_eq env d offset maxEntries, readEntries_le _ _ _,
      fun some => (readEntries_moves some).2⟩

end Exact

theorem DiskLog.paging_read_sample :
    let xs : List WalEntry := [(0, .push 7 "jobs" 1600000000 [1, 2]), (0, .ack 7 "jobs")]
    let x : WalEntry := (0, .push 8 "jobs" 1600000000 [3])
    let d : DiskLog := ⟨.empty, segment xs ++ (encodeEntry x).take 27, [], false, 75, 64⟩
    d.readEntriesFromOffset .sample 29 5 = ([.ack 7 "default"], 48) ∧
      ((∀ y ∈ xs, y.LegibleIn readWindow) ∧ x.LegibleIn (min readWindow 27)) ∧
      d.PagesExactly .sample xs ∧
      d.pageFromOffset .sample 3 5 = .ok (d.readEntriesFromOffset .sample 3 5) := by
  intro xs x d
  have legible : (∀ y ∈ xs, y.LegibleIn readWindow) ∧ x.LegibleIn (min readWindow 27) := by
    decide +kernel
  obtain ⟨exact, positions⟩ := DiskLog.paging_read .sample d
  exact ⟨by decide +kernel, legible,
    (exact xs x 27 (by decide) (by decide +kernel) rfl).2 legible, (positions 3 5).1⟩

/-- One record with a payload of 4 GiB. -/
def hugeEntry : WalEntry := (0, .push 7 "jobs" 1600000000 (List.replicate (2 ^ 32) 0))

/-- No record is complete within 1 MiB, and the read returns one with an empty payload and
an offset that is no record boundary. -/
theorem DiskLog.huge_payload_misread :
    let d : DiskLog := ⟨.empty, segment [hugeEntry], [], false, 0, 64⟩
    completeWithin (min readWindow d.active.length) [hugeEntry] = 0 ∧
      d.readEntriesFromOffset .sample 0 1 = ([.push 7 "default" 1600000000 []], 27) := by
  intro d
  have spelled : hugeEntry.spelled = (0, .push 7 "jobs" 1600000000 []) := by
    simp only [hugeEntry, WalEntry.spelled, List.length_replicate, Nat.mod_self, List.take_zero]
  have unfit : ¬ hugeEntry.2.Fits := by
    simp only [hugeEntry, WalRecord.Fits, List.length_replicate]
    omega
  have long := long_of_not_fits unfit
  obtain ⟨rest, bytes⟩ := encodeEntry_spelled hugeEntry
  rw [spelled] at bytes
  have active : d.active = encodeEntry hugeEntry := List.append_nil _
  have short : (encodeEntry (0, .push 7 "jobs" 1600000000 [])).length = 27 := by decide
  refine ⟨if_neg (by omega), ?_⟩
  unfold readEntriesFromOffset readEntries
  rw [active, if_neg (by omega), List.drop_zero, bytes, List.take_append,
    List.take_of_length_le (by rw [short, readWindow]; omega)]
  dsimp only [takeRecords]
  rw [decodeRecord_encode (by decide)]
  dsimp only
  rw [List.length_append, short, Nat.add_sub_cancel]
  rfl

end WalrQueue
