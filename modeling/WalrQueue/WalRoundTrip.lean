import WalrQueue.WalCodec

/-!
# Reading a segment back

A segment is described by its entries: the queue id written and the record it
was written for.  `readBack` is what a reader makes of an entry: the same kind,
id and payload, the queue the registry has for the id, and the visibility time
as 32-bit seconds since 2020.  Both readers decode a concatenation of entries
exactly, cut at record boundaries.
-/

namespace WalrQueue

open BigEndian

variable {env : Env} {reg : QueueRegistry}

/-- A record whose payload length fits its 32-bit field. -/
def WalRecord.Fits : WalRecord → Prop
  | .push _ _ _ payload => payload.length < 2 ^ 32
  | .ack _ _ => True

/-- An entry of a segment: the queue id written, and the record. -/
abbrev WalEntry : Type := Nat × WalRecord

/-- An entry whose queue id and payload length fit their fields. -/
def WalEntry.Fits (x : WalEntry) : Prop := x.1 < 2 ^ 16 ∧ x.2.Fits

/-- The bytes of an entry. -/
def encodeEntry (x : WalEntry) : List UInt8 := encodeRecord x.1 x.2

/-- The bytes of a list of entries. -/
def segment (xs : List WalEntry) : List UInt8 := xs.flatMap encodeEntry

/-- The visibility time after a trip through the 32-bit field. -/
def storedTime (visibleAt : Nat) : Nat := (visibleAt - epoch2020Sec) % 2 ^ 32 + epoch2020Sec

/-- What a reader makes of an entry. -/
def readBack (reg : QueueRegistry) (x : WalEntry) : WalRecord :=
  match x.2 with
  | .push msgId _ visibleAt payload =>
      .push msgId (recordQueue reg x.1) (storedTime visibleAt) payload
  | .ack msgId _ => .ack msgId (recordQueue reg x.1)

@[simp] theorem msgId_readBack (x : WalEntry) : (readBack reg x).msgId = x.2.msgId := by
  rcases x with ⟨qId, _ | _⟩ <;> rfl

@[simp] theorem isPush_readBack (x : WalEntry) : (readBack reg x).isPush = x.2.isPush := by
  rcases x with ⟨qId, _ | _⟩ <;> rfl

theorem storedTime_le {visibleAt bound : Nat} (near : visibleAt ≤ bound)
    (late : epoch2020Sec ≤ bound) : storedTime visibleAt ≤ bound := by
  unfold storedTime
  have := Nat.mod_le (visibleAt - epoch2020Sec) (2 ^ 32)
  omega

@[simp] theorem storedTime_storedTime (visibleAt : Nat) :
    storedTime (storedTime visibleAt) = storedTime visibleAt := by
  unfold storedTime
  omega

/-! ## One record -/

theorem encodePush_length (msgId : Ulid) (qId visibleAt : Nat) (payload : List UInt8) :
    (encodePush msgId qId visibleAt payload).length = 27 + payload.length := by
  simp [encodePush]
  omega

theorem encodeAck_length (msgId : Ulid) (qId : Nat) : (encodeAck msgId qId).length = 19 := by
  simp [encodeAck]

theorem encodeEntry_length_pos (x : WalEntry) : 0 < (encodeEntry x).length := by
  rcases x with ⟨qId, record⟩
  cases record with
  | push => rw [encodeEntry, encodeRecord, encodePush_length]; omega
  | ack => rw [encodeEntry, encodeRecord, encodeAck_length]; omega

theorem ofNat_ofBE_toBE (id : Ulid) : BitVec.ofNat 128 (ofBE (toBE 16 id.toNat)) = id := by
  rw [ofBE_toBE_of_lt (by have := id.isLt; norm_num at this ⊢; exact this)]
  simp

/-- The header fields of a Push, taken apart again. -/
theorem push_fields {a b c d e : List UInt8} (ha : a.length = 16) (hb : b.length = 4)
    (hc : c.length = 2) (hd : d.length = 4) :
    (a ++ b ++ c ++ d ++ e).take 16 = a ∧ ((a ++ b ++ c ++ d ++ e).drop 16).take 4 = b ∧
      ((a ++ b ++ c ++ d ++ e).drop 20).take 2 = c ∧
      ((a ++ b ++ c ++ d ++ e).drop 22).take 4 = d ∧ (a ++ b ++ c ++ d ++ e).drop 26 = e := by
  refine ⟨?_, ?_, ?_, ?_, ?_⟩
  · rw [List.append_assoc, List.append_assoc, List.append_assoc, List.take_left' ha]
  · rw [List.append_assoc, List.append_assoc, List.append_assoc, List.drop_left' ha,
      List.take_left' hb]
  · rw [List.append_assoc, List.append_assoc, List.drop_left' (by simp [ha, hb]),
      List.take_left' hc]
  · rw [List.append_assoc, List.drop_left' (by simp [ha, hb, hc]), List.take_left' hd]
  · rw [List.drop_left' (by simp [ha, hb, hc, hd])]

/-- A complete record decodes to its read-back, whatever follows it. -/
theorem decodeRecord_encode {x : WalEntry} (fits : x.Fits) (rest : List UInt8) :
    decodeRecord env reg (encodeEntry x ++ rest) = some (readBack reg x, rest) := by
  rcases x with ⟨qId, record⟩
  obtain ⟨idFits, payloadFits⟩ := fits
  dsimp only at idFits payloadFits
  have qField : ofBE (toBE 2 qId) = qId := ofBE_toBE_of_lt (by norm_num at idFits ⊢; exact idFits)
  cases record with
  | ack msgId queue =>
      have shape : encodeEntry (qId, .ack msgId queue) ++ rest =
          1 :: (toBE 16 msgId.toNat ++ (toBE 2 qId ++ rest)) := by
        simp [encodeEntry, encodeRecord, encodeAck]
      rw [shape, decodeRecord, if_pos (by decide), if_neg (by simp; omega)]
      have idField : (toBE 16 msgId.toNat ++ (toBE 2 qId ++ rest)).take 16 =
          toBE 16 msgId.toNat := List.take_left' (by simp)
      have queueField : ((toBE 16 msgId.toNat ++ (toBE 2 qId ++ rest)).drop 16).take 2 =
          toBE 2 qId := by rw [List.drop_left' (by simp), List.take_left' (by simp)]
      have tail : (toBE 16 msgId.toNat ++ (toBE 2 qId ++ rest)).drop 18 = rest := by
        rw [← List.append_assoc, List.drop_left' (by simp)]
      simp only [idField, queueField, tail, ofNat_ofBE_toBE, qField, readBack]
  | push msgId queue visibleAt payload =>
      have shape : encodeEntry (qId, .push msgId queue visibleAt payload) ++ rest =
          0 :: (toBE 16 msgId.toNat ++ toBE 4 (visibleAt - epoch2020Sec) ++ toBE 2 qId ++
            toBE 4 payload.length ++ (payload ++ rest)) := by
        simp [encodeEntry, encodeRecord, encodePush]
      have lenField : ofBE (toBE 4 payload.length) = payload.length :=
        ofBE_toBE_of_lt (by norm_num [WalRecord.Fits] at payloadFits ⊢; exact payloadFits)
      have timeField : ofBE (toBE 4 (visibleAt - epoch2020Sec)) =
          (visibleAt - epoch2020Sec) % 2 ^ 32 := by rw [ofBE_toBE]; norm_num
      obtain ⟨f₁, f₂, f₃, f₄, f₅⟩ := push_fields
        (a := toBE 16 msgId.toNat) (b := toBE 4 (visibleAt - epoch2020Sec)) (c := toBE 2 qId)
        (d := toBE 4 payload.length) (e := payload ++ rest) (by simp) (by simp) (by simp) (by simp)
      rw [shape, decodeRecord, if_neg (by decide), if_neg (by simp; omega)]
      simp only [f₁, f₂, f₃, f₄, f₅, lenField, timeField, qField, ofNat_ofBE_toBE]
      rw [if_neg (by simp), List.take_left, List.drop_left]
      rfl

/-- A record cut short does not decode. -/
theorem decodeRecord_torn {x : WalEntry} (fits : x.Fits) {t : Nat}
    (short : t < (encodeEntry x).length) :
    decodeRecord env reg ((encodeEntry x).take t) = none := by
  rcases x with ⟨qId, record⟩
  cases t with
  | zero => rfl
  | succ t =>
    cases record with
    | ack msgId queue =>
        simp only [encodeEntry, encodeRecord, encodeAck_length] at short
        simp only [encodeEntry, encodeRecord, encodeAck, List.take_succ_cons, decodeRecord]
        rw [if_pos (by decide), if_pos (by simp; omega)]
    | push msgId queue visibleAt payload =>
        simp only [encodeEntry, encodeRecord, encodePush_length] at short
        have payloadFits : payload.length < 2 ^ 32 := fits.2
        simp only [encodeEntry, encodeRecord, encodePush, List.take_succ_cons, decodeRecord]
        rw [if_neg (by decide)]
        by_cases header : t < 26
        · rw [if_pos (by simp; omega)]
        · rw [if_neg (by simp; omega)]
          have cut : (toBE 16 msgId.toNat ++ toBE 4 (visibleAt - epoch2020Sec) ++ toBE 2 qId ++
              toBE 4 payload.length ++ payload).take t =
              toBE 16 msgId.toNat ++ toBE 4 (visibleAt - epoch2020Sec) ++ toBE 2 qId ++
                toBE 4 payload.length ++ payload.take (t - 26) := by
            rw [List.take_append, List.take_of_length_le (by simp; omega)]
            simp
          have lenField : ofBE (toBE 4 payload.length) = payload.length :=
            ofBE_toBE_of_lt (by norm_num at payloadFits ⊢; exact payloadFits)
          obtain ⟨f₁, f₂, f₃, f₄, f₅⟩ := push_fields
            (a := toBE 16 msgId.toNat) (b := toBE 4 (visibleAt - epoch2020Sec))
            (c := toBE 2 qId) (d := toBE 4 payload.length) (e := payload.take (t - 26))
            (by simp) (by simp) (by simp) (by simp)
          simp only [cut, f₄, f₅, lenField]
          rw [if_pos (by simp; omega)]

/-! ## A record is its own bytes -/

theorem take_drop_take_append {n : Nat} {c : List UInt8} (inside : n ≤ c.length)
    (more : List UInt8) {i j : Nat} (within : i + j ≤ n) :
    ((c.take n ++ more).drop i).take j = (c.drop i).take j := by
  rw [List.drop_append_of_le_length (by simp; omega),
    List.take_append_of_le_length (by simp; omega), List.drop_take, List.take_take,
    Nat.min_eq_left (by omega)]

theorem drop_take_append {n : Nat} {c : List UInt8} (inside : n ≤ c.length)
    (more : List UInt8) : (c.take n ++ more).drop n = more :=
  List.drop_left' (by simp; omega)

/-- A record that decodes is a nonempty block of bytes and decodes the same way whatever
follows the block. -/
theorem decodeRecord_block {cur rest : List UInt8} {r : WalRecord}
    (decoded : decodeRecord env reg cur = some (r, rest)) :
    ∃ used, used ≠ [] ∧ cur = used ++ rest ∧
      ∀ more, decodeRecord env reg (used ++ more) = some (r, more) := by
  cases cur with
  | nil => cases decoded
  | cons flags cur =>
      unfold decodeRecord at decoded
      dsimp only at decoded
      by_cases isAck : flags &&& 0x01 ≠ 0
      · rw [if_pos isAck] at decoded
        by_cases short : cur.length < 18
        · rw [if_pos short] at decoded
          cases decoded
        · rw [if_neg short] at decoded
          cases decoded
          refine ⟨flags :: cur.take 18, by simp, by simp, fun more => ?_⟩
          have enough : 18 ≤ cur.length := by omega
          have idField := take_drop_take_append enough more (i := 0) (j := 16) (by omega)
          have queueField := take_drop_take_append enough more (i := 16) (j := 2) (by omega)
          rw [List.drop_zero, List.drop_zero] at idField
          rw [List.cons_append, decodeRecord, if_pos isAck, if_neg (by simp; omega), idField,
            queueField, drop_take_append enough]
      · rw [if_neg isAck] at decoded
        by_cases short : cur.length < 26
        · rw [if_pos short] at decoded
          cases decoded
        · rw [if_neg short] at decoded
          generalize lenField : ofBE ((cur.drop 22).take 4) = payloadLen at decoded
          by_cases torn : (cur.drop 26).length < payloadLen
          · rw [if_pos torn] at decoded
            cases decoded
          · rw [if_neg torn] at decoded
            cases decoded
            rw [List.length_drop] at torn
            have enough : 26 + payloadLen ≤ cur.length := by omega
            refine ⟨flags :: cur.take (26 + payloadLen), by simp, by simp, fun more => ?_⟩
            have idField := take_drop_take_append enough more (i := 0) (j := 16) (by omega)
            have timeField := take_drop_take_append enough more (i := 16) (j := 4) (by omega)
            have queueField := take_drop_take_append enough more (i := 20) (j := 2) (by omega)
            have lenAgain := take_drop_take_append enough more (i := 22) (j := 4) (by omega)
            have payload := take_drop_take_append enough more (i := 26) (j := payloadLen) le_rfl
            rw [List.drop_zero, List.drop_zero] at idField
            rw [List.cons_append, decodeRecord, if_neg isAck, if_neg (by simp; omega)]
            simp only [idField, timeField, queueField, lenAgain, lenField, payload]
            rw [if_neg (by simp; omega), List.drop_drop, drop_take_append enough]

/-- The records read are a block of bytes, and reading on after the block is reading the
records and then what follows. -/
theorem takeRecords_block (env : Env) (reg : QueueRegistry) (max : Nat) (cur : List UInt8) :
    ∃ used, cur = used ++ (takeRecords env reg max cur).2 ∧
      (takeRecords env reg max cur).1.length ≤ used.length ∧
      ∀ more k, takeRecords env reg ((takeRecords env reg max cur).1.length + k) (used ++ more) =
        ((takeRecords env reg max cur).1 ++ (takeRecords env reg k more).1,
          (takeRecords env reg k more).2) := by
  induction max generalizing cur with
  | zero => exact ⟨[], rfl, le_rfl, fun more k => by simp [takeRecords]⟩
  | succ max ih =>
      cases decoded : decodeRecord env reg cur with
      | none =>
          have stops : takeRecords env reg (max + 1) cur = ([], cur) := by
            rw [takeRecords, decoded]
          rw [stops]
          exact ⟨[], rfl, le_rfl, fun more k => by simp⟩
      | some done =>
          obtain ⟨r, rest⟩ := done
          have reads : takeRecords env reg (max + 1) cur =
              (r :: (takeRecords env reg max rest).1, (takeRecords env reg max rest).2) := by
            rw [takeRecords, decoded]
          obtain ⟨first, some, bytes, again⟩ := decodeRecord_block decoded
          obtain ⟨used, restBytes, short, further⟩ := ih rest
          rw [reads]
          refine ⟨first ++ used, ?_, ?_, fun more k => ?_⟩
          · rw [List.append_assoc, ← restBytes, bytes]
          · have := List.length_pos_iff.2 some
            simp only [List.length_cons, List.length_append]
            omega
          · rw [List.length_cons, Nat.succ_add, takeRecords, List.append_assoc, again]
            dsimp only
            rw [further more k]
            rfl

theorem takeRecords_suffix (env : Env) (reg : QueueRegistry) (max : Nat) (cur : List UInt8) :
    (takeRecords env reg max cur).2 <:+ cur := by
  obtain ⟨used, bytes, -⟩ := takeRecords_block env reg max cur
  exact ⟨used, bytes.symm⟩

/-- A read that returns a record moves the cursor, inside the file. -/
theorem readEntries_moves {file : List UInt8} {offset maxEntries : Nat}
    (some : (readEntries env reg file offset maxEntries).1 ≠ []) :
    offset < file.length ∧ offset < (readEntries env reg file offset maxEntries).2 := by
  unfold readEntries at some ⊢
  split at some
  · exact absurd rfl some
  · rename_i inside
    rw [if_neg inside]
    dsimp only at some ⊢
    generalize (file.drop offset).take readWindow = raw at some ⊢
    obtain ⟨used, bytes, counted, -⟩ := takeRecords_block env reg maxEntries raw
    have read := List.length_pos_iff.2 some
    have lengths := congrArg List.length bytes
    rw [List.length_append] at lengths
    omega

/-! ## Lists of records -/

@[simp] theorem segment_nil : segment [] = [] := rfl

@[simp] theorem segment_cons (x : WalEntry) (xs : List WalEntry) :
    segment (x :: xs) = encodeEntry x ++ segment xs := rfl

@[simp] theorem segment_append (xs ys : List WalEntry) :
    segment (xs ++ ys) = segment xs ++ segment ys := by
  simp [segment]

theorem segment_take_drop (xs : List WalEntry) (i : Nat) :
    segment (xs.take i) ++ segment (xs.drop i) = segment xs := by
  rw [← segment_append, List.take_append_drop]

theorem length_le_segment (xs : List WalEntry) : xs.length ≤ (segment xs).length := by
  induction xs with
  | nil => simp
  | cons x xs ih =>
      have := encodeEntry_length_pos x
      simp only [List.length_cons, segment_cons, List.length_append]
      omega

/-- The reader takes, out of a window of `w` bytes, the first `k` entries, where
`k` is as large as the window and the limit `n` allow. -/
theorem takeRecords_window (env : Env) (reg : QueueRegistry) {xs : List WalEntry} (fits : ∀ x ∈ xs, x.Fits) (n w : Nat) :
    ∃ k, k ≤ n ∧ k ≤ xs.length ∧ (segment (xs.take k)).length ≤ w ∧
      (k < n → k < xs.length → w < (segment (xs.take (k + 1))).length) ∧
      takeRecords env reg n ((segment xs).take w) =
        ((xs.take k).map (readBack reg),
          ((segment xs).take w).drop (segment (xs.take k)).length) := by
  induction xs generalizing n w with
  | nil =>
      refine ⟨0, Nat.zero_le _, Nat.le_refl _, by simp, by simp, ?_⟩
      cases n with
      | zero => simp [takeRecords]
      | succ n => simp [takeRecords, decodeRecord]
  | cons x xs ih =>
      cases n with
      | zero => exact ⟨0, Nat.le_refl _, Nat.zero_le _, by simp, by simp, by simp [takeRecords]⟩
      | succ n =>
          have headFits := fits x (by simp)
          by_cases whole : (encodeEntry x).length ≤ w
          · obtain ⟨k, kn, kx, inside, maximal, taken⟩ :=
              ih (fun y hy => fits y (by simp [hy])) n (w - (encodeEntry x).length)
            refine ⟨k + 1, by omega, by simpa using kx, ?_, ?_, ?_⟩
            · simp only [List.take_succ_cons, segment_cons, List.length_append]
              omega
            · intro small more
              have := maximal (by omega) (by simpa using more)
              simp only [List.take_succ_cons, segment_cons, List.length_append] at this ⊢
              omega
            · have window : (segment (x :: xs)).take w =
                  encodeEntry x ++ (segment xs).take (w - (encodeEntry x).length) := by
                rw [segment_cons, List.take_append, List.take_of_length_le whole]
              rw [window, takeRecords, decodeRecord_encode headFits]
              dsimp only
              rw [taken]
              simp only [List.take_succ_cons, List.map_cons, segment_cons, List.length_append,
                List.drop_append]
              simp
          · refine ⟨0, Nat.zero_le _, Nat.zero_le _, by simp, ?_, ?_⟩
            · intro _ _
              simp only [Nat.zero_add, List.take_succ_cons, List.take_zero, segment_cons,
                segment_nil, List.append_nil]
              omega
            · have window : (segment (x :: xs)).take w = (encodeEntry x).take w := by
                rw [segment_cons, List.take_append_of_le_length (by omega)]
              rw [takeRecords, window, decodeRecord_torn headFits (by omega)]
              simp

/-- `read_wal_file` returns every entry of a segment. -/
theorem readWalFile_segment {xs : List WalEntry} (fits : ∀ x ∈ xs, x.Fits) :
    readWalFile env reg (segment xs) = xs.map (readBack reg) := by
  obtain ⟨k, kn, kx, -, maximal, taken⟩ := takeRecords_window env reg fits
    (segment xs).length (segment xs).length
  rw [List.take_length] at taken
  rw [readWalFile, taken]
  have all : k = xs.length := by
    by_contra notAll
    have more : k < xs.length := by omega
    have bound := length_le_segment xs
    have cut := maximal (by omega) more
    have split := congrArg List.length (segment_take_drop xs (k + 1))
    simp only [List.length_append] at split
    omega
  rw [all, List.take_length]

/-- `read_entries_from_offset` at a record boundary returns the entries that
follow it, up to a later boundary, which is the new offset.  It stops at the limit, at the
end, or before an entry that the window cuts. -/
theorem readEntries_segment {xs : List WalEntry} (fits : ∀ x ∈ xs, x.Fits) {i : Nat}
    (inside : i ≤ xs.length) (n : Nat) :
    ∃ k, i + k ≤ xs.length ∧ (segment ((xs.drop i).take k)).length ≤ readWindow ∧
      (k < n → i + k < xs.length → readWindow < (segment ((xs.drop i).take (k + 1))).length) ∧
      readEntries env reg (segment xs) (segment (xs.take i)).length n =
        (((xs.drop i).take k).map (readBack reg), (segment (xs.take (i + k))).length) := by
  have split := segment_take_drop xs i
  unfold readEntries
  split
  · rename_i past
    have lengths := congrArg List.length split
    simp only [List.length_append] at lengths
    have none : xs.length ≤ i := by
      have count := length_le_segment (xs.drop i)
      rw [List.length_drop] at count
      omega
    have same : (segment (xs.take i)).length = (segment xs).length := by omega
    exact ⟨0, by omega, by simp, fun _ more => by omega, by simp [same]⟩
  · have dropped : (segment xs).drop (segment (xs.take i)).length = segment (xs.drop i) := by
      rw [← split, List.drop_left]
    obtain ⟨k, -, kx, inWindow, maximal, taken⟩ := takeRecords_window env reg
      (fun x hx => fits x (List.mem_of_mem_drop (i := i) hx)) n readWindow
    simp only [List.length_drop] at kx maximal
    have bound : i + k ≤ xs.length := by omega
    refine ⟨k, bound, inWindow, fun small more => maximal small (by omega), ?_⟩
    simp only [dropped, taken]
    have prefixLength : (segment (xs.take (i + k))).length =
        (segment (xs.take i)).length + (segment ((xs.drop i).take k)).length := by
      rw [← List.length_append, ← segment_append, ← List.take_add]
    have consumed : (segment ((xs.drop i).take k)).length ≤
        ((segment (xs.drop i)).take readWindow).length := by
      have := congrArg List.length (segment_take_drop (xs.drop i) k)
      simp only [List.length_append] at this
      rw [List.length_take]
      omega
    rw [prefixLength, List.length_drop]
    congr 2
    omega

end WalrQueue
