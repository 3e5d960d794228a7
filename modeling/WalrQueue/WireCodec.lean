import WalrQueue.Lib.BigEndian
import WalrQueue.Lib.Simulation
import WalrQueue.Lib.Varint

/-!
# Frames on the wire

`write_message` puts the encoding of a message on the stream after its length in
32 bits.  `read_message` and `read_message_with_buf` read the length, then that
many bytes, into a new buffer or into the one of the connection.  `postcard` is
taken as a pair of functions of which the second undoes the first.
-/

namespace WalrQueue.Wire

open BigEndian Simulation

/-- `postcard::to_allocvec` and `postcard::from_bytes` for one type. -/
structure Postcard (T : Type) where
  toAllocvec : T → List UInt8
  fromBytes : List UInt8 → Option T
  fromBytes_toAllocvec : ∀ msg, fromBytes (toAllocvec msg) = some msg

/-- The error kinds of the two readers. -/
inductive ReadError where
  | unexpectedEof
  | invalidData
  deriving DecidableEq

variable {T : Type} (pc : Postcard T)

/-- `(bytes.len() as u32).to_be_bytes()`. -/
def lenPrefix (bytes : List UInt8) : List UInt8 := toBE 4 (bytes.length % 2 ^ 32)

/-- The frame of a message: its length, then its bytes. -/
def frame (msg : T) : List UInt8 := lenPrefix (pc.toAllocvec msg) ++ pc.toAllocvec msg

/-- `write_message`, with everything written to the stream so far. -/
def writeMessage (stream : List UInt8) (msg : T) : List UInt8 := stream ++ frame pc msg

/-- `read_exact` into a buffer: the stream left, the buffer, and whether it was
filled. -/
def readExact (stream buf : List UInt8) : List UInt8 × List UInt8 × Bool :=
  if buf.length ≤ stream.length then (stream.drop buf.length, stream.take buf.length, true)
  else ([], stream ++ buf.drop stream.length, false)

/-- `postcard::from_bytes(..).map_err(..)`. -/
def decoded (bytes : List UInt8) : Except ReadError T :=
  match pc.fromBytes bytes with
  | some msg => .ok msg
  | none => .error .invalidData

/-- `read_message`: the stream left and the result. -/
def readMessage (stream : List UInt8) : List UInt8 × Except ReadError T :=
  match readExact stream (List.replicate 4 0) with
  | (stream, _, false) => (stream, .error .unexpectedEof)
  | (stream, lenBuf, true) =>
      match readExact stream (List.replicate (ofBE lenBuf) 0) with
      | (stream, _, false) => (stream, .error .unexpectedEof)
      | (stream, buf, true) => (stream, decoded pc buf)

/-- `Vec::resize(len, 0)`. -/
def resize (buf : List UInt8) (len : Nat) : List UInt8 :=
  buf.take len ++ List.replicate (len - buf.length) 0

/-- The read half of a connection, with its buffer. -/
structure Reader where
  stream : List UInt8
  buf : List UInt8
  deriving DecidableEq

/-- `read_message_with_buf`. -/
def readMessageWithBuf (r : Reader) : Reader × Except ReadError T :=
  match readExact r.stream (List.replicate 4 0) with
  | (stream, _, false) => (⟨stream, r.buf⟩, .error .unexpectedEof)
  | (stream, lenBuf, true) =>
      match readExact stream (resize r.buf (ofBE lenBuf)) with
      | (stream, buf, false) => (⟨stream, buf⟩, .error .unexpectedEof)
      | (stream, buf, true) => (⟨stream, buf⟩, decoded pc buf)

/-! ## One read -/

theorem readExact_append {buf : List UInt8} (bytes rest : List UInt8)
    (length : buf.length = bytes.length) : readExact (bytes ++ rest) buf = (rest, bytes, true) := by
  simp [readExact, length]

theorem readExact_short (stream buf : List UInt8) (short : stream.length < buf.length) :
    readExact stream buf = ([], stream ++ buf.drop stream.length, false) :=
  if_neg (Nat.not_le_of_lt short)

@[simp] theorem length_lenPrefix (bytes : List UInt8) : (lenPrefix bytes).length = 4 := by
  simp [lenPrefix]

/-- A length that fits in 32 bits is read back. -/
theorem ofBE_lenPrefix {bytes : List UInt8} (small : bytes.length < 2 ^ 32) :
    ofBE (lenPrefix bytes) = bytes.length := by
  rw [lenPrefix, ofBE_toBE, Nat.mod_eq_of_lt small]
  exact Nat.mod_eq_of_lt (small.trans_eq (by norm_num))

@[simp] theorem length_resize (buf : List UInt8) (len : Nat) : (resize buf len).length = len := by
  simp only [resize, List.length_append, List.length_take, List.length_replicate]
  omega

/-- The buffer of the connection does not matter: only its length is used, and it is
set first. -/
theorem readMessageWithBuf_eq (r : Reader) :
    ((readMessageWithBuf pc r).1.stream, (readMessageWithBuf pc r).2) =
      readMessage pc r.stream := by
  unfold readMessageWithBuf readMessage
  rcases readExact r.stream (List.replicate 4 0) with ⟨stream, lenBuf, filled⟩
  cases filled with
  | false => rfl
  | true =>
      dsimp only
      by_cases enough : ofBE lenBuf ≤ stream.length
      · simp [readExact, enough]
      · simp [readExact, enough]

/-- A read that gets the whole length. -/
theorem readMessage_of_header {stream body lenBuf rest buf : List UInt8} {filled : Bool}
    (header : readExact stream (List.replicate 4 0) = (body, lenBuf, true))
    (read : readExact body (List.replicate (ofBE lenBuf) 0) = (rest, buf, filled)) :
    readMessage pc stream =
      (rest, if filled then decoded pc buf else .error .unexpectedEof) := by
  unfold readMessage
  rw [header]
  dsimp only
  rw [read]
  cases filled <;> rfl

/-- A whole frame is read back and nothing behind it is touched. -/
theorem readMessage_frame {msg : T} (small : (pc.toAllocvec msg).length < 2 ^ 32)
    (rest : List UInt8) : readMessage pc (frame pc msg ++ rest) = (rest, .ok msg) := by
  have header : readExact (frame pc msg ++ rest) (List.replicate 4 0) =
      (pc.toAllocvec msg ++ rest, lenPrefix (pc.toAllocvec msg), true) := by
    rw [frame, List.append_assoc]
    exact readExact_append _ _ (by simp)
  have read : readExact (pc.toAllocvec msg ++ rest)
      (List.replicate (ofBE (lenPrefix (pc.toAllocvec msg))) 0) =
        (rest, pc.toAllocvec msg, true) := by
    rw [ofBE_lenPrefix small]
    exact readExact_append _ _ (by simp)
  rw [readMessage_of_header pc header read]
  simp [decoded, pc.fromBytes_toAllocvec]

/-- A cut frame is an error. -/
theorem readMessage_cut {msg : T} (small : (pc.toAllocvec msg).length < 2 ^ 32) {cut : Nat}
    (inside : cut < (frame pc msg).length) :
    (readMessage pc ((frame pc msg).take cut)).2 = .error .unexpectedEof := by
  have size : (frame pc msg).length = 4 + (pc.toAllocvec msg).length := by simp [frame]
  by_cases early : cut < 4
  · have header := readExact_short ((frame pc msg).take cut) (List.replicate 4 0) (by simp; omega)
    generalize (frame pc msg).take cut = stream at header
    unfold readMessage
    rw [header]
  · have split : (frame pc msg).take cut =
        lenPrefix (pc.toAllocvec msg) ++ (pc.toAllocvec msg).take (cut - 4) := by
      rw [frame, List.take_append, List.take_of_length_le (by simp; omega), length_lenPrefix]
    have header : readExact ((frame pc msg).take cut) (List.replicate 4 0) =
        ((pc.toAllocvec msg).take (cut - 4), lenPrefix (pc.toAllocvec msg), true) := by
      rw [split]
      exact readExact_append _ _ (by simp)
    have read := readExact_short ((pc.toAllocvec msg).take (cut - 4))
      (List.replicate (ofBE (lenPrefix (pc.toAllocvec msg))) 0)
      (by rw [ofBE_lenPrefix small]; simp; omega)
    rw [readMessage_of_header pc header read]
    rfl

/-! ## A stream of frames -/

/-- The results of `n` calls of `read_message`, and the stream they leave. -/
def readAll (n : Nat) (stream : List UInt8) : List (Except ReadError T) × List UInt8 :=
  let read := fun stream (_ : Unit) => readMessage pc stream
  (answers read stream (List.replicate n ()), after read stream (List.replicate n ()))

/-- The results of `n` calls of `read_message_with_buf` on one connection, and the
stream they leave. -/
def readAllWithBuf (n : Nat) (r : Reader) : List (Except ReadError T) × List UInt8 :=
  let read := fun r (_ : Unit) => readMessageWithBuf pc r
  (answers read r (List.replicate n ()), (after read r (List.replicate n ())).stream)

theorem readAll_succ (n : Nat) (stream : List UInt8) : readAll pc (n + 1) stream =
    ((readMessage pc stream).2 :: (readAll pc n (readMessage pc stream).1).1,
      (readAll pc n (readMessage pc stream).1).2) := rfl

/-- Sharing one buffer, whatever is in it, changes nothing. -/
theorem readAllWithBuf_eq (n : Nat) (r : Reader) :
    readAllWithBuf pc n r = readAll pc n r.stream := by
  have each : Simulates (fun r (_ : Unit) => readMessageWithBuf pc r)
      (fun stream (_ : Unit) => readMessage pc stream) (fun _ _ => True)
      (fun r stream => r.stream = stream) Eq := by
    rintro r _ _ rfl _
    have same := readMessageWithBuf_eq pc r
    exact ⟨congrArg Prod.fst same, congrArg Prod.snd same⟩
  have accepted : Trace.Along (next fun stream (_ : Unit) => readMessage pc stream)
      (fun _ _ => True) r.stream (List.replicate n ()) :=
    Trace.along_of_forall fun _ _ _ => trivial
  obtain ⟨stream, results⟩ := each.run rfl accepted
  rw [List.forall₂_eq_eq_eq] at results
  exact Prod.ext results stream

/-- What `write_message` puts on a stream for a list of messages. -/
def written (msgs : List T) : List UInt8 := msgs.foldl (writeMessage pc) []

theorem written_eq (msgs : List T) : written pc msgs = msgs.flatMap (frame pc) := by
  have loop : ∀ stream, msgs.foldl (writeMessage pc) stream =
      stream ++ msgs.flatMap (frame pc) := by
    induction msgs with
    | nil => simp
    | cons msg msgs ih => exact fun stream => by simp [ih, writeMessage]
  exact loop []

theorem readAll_written {msgs : List T}
    (small : ∀ msg ∈ msgs, (pc.toAllocvec msg).length < 2 ^ 32) (rest : List UInt8) :
    readAll pc msgs.length (written pc msgs ++ rest) = (msgs.map .ok, rest) := by
  rw [written_eq]
  induction msgs with
  | nil => rfl
  | cons msg msgs ih =>
      have later := ih fun msg' inside => small msg' (.tail _ inside)
      rw [List.flatMap_cons, List.append_assoc, List.length_cons, readAll_succ,
        readMessage_frame pc (small msg List.mem_cons_self), later, List.map_cons]

theorem readAll_cut {msgs : List T} {last : T}
    (small : ∀ msg ∈ msgs ++ [last], (pc.toAllocvec msg).length < 2 ^ 32) {cut : Nat}
    (inside : cut < (frame pc last).length) :
    (readAll pc (msgs.length + 1) (written pc msgs ++ (frame pc last).take cut)).1 =
      msgs.map .ok ++ [.error .unexpectedEof] := by
  have whole := readAll_written pc (fun msg member => small msg (List.mem_append_left _ member))
    ((frame pc last).take cut)
  have failed := readMessage_cut pc (small last (by simp)) inside
  obtain ⟨results, stream⟩ := Prod.mk.inj whole
  simp only [readAll, List.replicate_succ', answers_append] at results stream ⊢
  rw [results, stream]
  simp only [answers, failed]

/-- Frames of messages under 4 GiB keep a stream in step: each read gives the message that was
written and takes exactly its bytes, with a shared buffer as with a new one, and a read of
a cut frame is an error. -/
theorem frames_in_step (msgs : List T) (last : T) (buf : List UInt8)
    (small : ∀ msg ∈ msgs ++ [last], (pc.toAllocvec msg).length < 2 ^ 32) :
    (∀ rest, readAllWithBuf pc msgs.length ⟨written pc msgs ++ rest, buf⟩ = (msgs.map .ok, rest) ∧
      readAll pc msgs.length (written pc msgs ++ rest) = (msgs.map .ok, rest)) ∧
    ∀ cut < (frame pc last).length,
      let stream := written pc msgs ++ (frame pc last).take cut
      (readAllWithBuf pc (msgs.length + 1) ⟨stream, buf⟩).1 =
          msgs.map .ok ++ [.error .unexpectedEof] ∧
        (readAll pc (msgs.length + 1) stream).1 = msgs.map .ok ++ [.error .unexpectedEof] := by
  refine ⟨fun rest => ?_, fun cut inside => ?_⟩
  · have whole := readAll_written pc
      (fun msg member => small msg (List.mem_append_left _ member)) rest
    rw [readAllWithBuf_eq]
    exact ⟨whole, whole⟩
  · have cut := readAll_cut pc small inside
    dsimp only
    rw [readAllWithBuf_eq]
    exact ⟨cut, cut⟩

/-- The form `postcard` gives a `Vec<u8>`: its length as a varint, then its bytes. -/
def Postcard.bytes : Postcard (List UInt8) where
  toAllocvec := Varint.writeBytes
  fromBytes cur := (Varint.readBytes cur).map (·.1)
  fromBytes_toAllocvec msg := by
    have back := Varint.readBytes_writeBytes msg []
    rw [List.append_nil] at back
    rw [back]
    rfl

theorem frames_in_step_sample :
    written .bytes [[1, 2], [3]] = [0, 0, 0, 3, 2, 1, 2, 0, 0, 0, 2, 1, 3] ∧
      readAllWithBuf .bytes 2 ⟨written .bytes [[1, 2], [3]] ++ [7], [9, 9, 9, 9]⟩ =
        ([.ok [1, 2], .ok [3]], [7]) :=
  ⟨by decide, ((frames_in_step .bytes [[1, 2], [3]] [4] [9, 9, 9, 9] (by decide)).1 [7]).1⟩

/-- The length of a message of 4 GiB is written as 0. -/
theorem readMessage_of_4GiB {msg : T} (size : (pc.toAllocvec msg).length = 2 ^ 32) :
    readMessage pc (frame pc msg) = (pc.toAllocvec msg, decoded pc []) := by
  have zero : ofBE (lenPrefix (pc.toAllocvec msg)) = 0 := by
    rw [lenPrefix, ofBE_toBE, size]
    norm_num
  have header : readExact (frame pc msg) (List.replicate 4 0) =
      (pc.toAllocvec msg, lenPrefix (pc.toAllocvec msg), true) :=
    readExact_append _ _ (by simp)
  have read : readExact (pc.toAllocvec msg)
      (List.replicate (ofBE (lenPrefix (pc.toAllocvec msg))) 0) =
        (pc.toAllocvec msg, [], true) := by
    rw [zero]
    exact readExact_append [] _ rfl
  exact readMessage_of_header pc header read

/-- A `Vec<u8>` of 2^32 - 5 bytes: the read fails and leaves the whole message on the
stream, where the next read takes it for a frame. -/
theorem oversized_frame_desyncs :
    let msg : List UInt8 := List.replicate (2 ^ 32 - 5) 0
    (Postcard.bytes.toAllocvec msg).length = 2 ^ 32 ∧
      readMessage .bytes (frame .bytes msg) =
        (Postcard.bytes.toAllocvec msg, .error .invalidData) := by
  intro msg
  have digits : (Varint.write msg.length).length = 5 := by
    rw [List.length_replicate]
    exact Varint.length_writeLoop (by norm_num) (by norm_num) (by norm_num)
  have size : (Postcard.bytes.toAllocvec msg).length = 2 ^ 32 := by
    refine (List.length_append).trans ?_
    rw [digits, List.length_replicate]
    norm_num
  exact ⟨size, readMessage_of_4GiB .bytes size⟩

end WalrQueue.Wire
