import WalrQueue.Proposals

/-!
# The log under interleaved proposals

Entries are numbered and appended under one lock, so that however the sections of the
calls interleave, the log stays consecutive and no index is given out twice.  The commit
index is stored without a lock: it follows the order in which the calls finish, and it
only grows when they finish in the order of their indices.
-/

namespace WalrQueue

open RaftNode Consecutive

/-! ## Calls and the log -/

section Calls

variable {n n' : RaftNode} {calls : List LeaderCall} {c c' d : LeaderCall} {i j : Nat}

theorem getElem?_set_cases {α : Type} {l : List α} {a b : α} {i j : Nat}
    (found : (l.set i a)[j]? = some b) : j = i ∧ b = a ∨ j ≠ i ∧ l[j]? = some b := by
  by_cases same : i = j
  · subst same
    rw [List.getElem?_set_self'] at found
    obtain ⟨_, _, rfl⟩ := Option.map_eq_some_iff.1 found
    exact Or.inl ⟨rfl, rfl⟩
  · rw [List.getElem?_set_ne same] at found
    exact Or.inr ⟨Ne.symm same, found⟩

/-- The log is consecutive, and every call holds entries of its own at or below its end. -/
structure Shaped (n : RaftNode) (calls : List LeaderCall) : Prop where
  numbered : n.Numbered
  early : ∀ c ∈ calls, c.stage.isEarly → c.entries = []
  work : ∀ c ∈ calls, ∀ term work, c.stage = .assigning term work → work.commands ≠ []
  holds : ∀ c ∈ calls, c.stage.isOpen → c.entries ≠ []
  below : ∀ c ∈ calls, ∀ e ∈ c.entries, e.index ≤ n.lastIndex
  apart : ∀ (i j : Nat) (c d : LeaderCall), i ≠ j → calls[i]? = some c → calls[j]? = some d →
    ∀ e ∈ c.entries, ∀ f ∈ d.entries, e.index ≠ f.index

theorem RaftNode.Numbered.of_empty (empty : n.log = []) : n.Numbered := by
  unfold Numbered
  rw [empty]
  trivial

/-- A node without calls. -/
theorem Shaped.start (numbered : n.Numbered) : Shaped n [] where
  numbered := numbered
  early := by simp
  work := by simp
  holds := by simp
  below := by simp
  apart := by simp

theorem Shaped.engine (shaped : Shaped n calls) (engine : QueueEngine) :
    Shaped { n with engine } calls :=
  ⟨shaped.numbered, shaped.early, shaped.work, shaped.holds, shaped.below, shaped.apart⟩

/-- A call begins. -/
theorem Shaped.begins (shaped : Shaped n calls) (request : LeaderRequest) :
    Shaped n (calls ++ [⟨request, .entered, [], []⟩]) where
  numbered := shaped.numbered
  early := by
    intro c inside stage
    rcases List.mem_append.1 inside with inside | inside
    · exact shaped.early c inside stage
    · rw [List.mem_singleton.1 inside]
  work := by
    intro c inside term work stage
    rcases List.mem_append.1 inside with inside | inside
    · exact shaped.work c inside term work stage
    · rw [List.mem_singleton.1 inside] at stage
      cases stage
  holds := by
    intro c inside stage
    rcases List.mem_append.1 inside with inside | inside
    · exact shaped.holds c inside stage
    · rw [List.mem_singleton.1 inside] at stage
      cases stage
  below := by
    intro c inside e entry
    rcases List.mem_append.1 inside with inside | inside
    · exact shaped.below c inside e entry
    · rw [List.mem_singleton.1 inside] at entry
      cases entry
  apart := by
    intro i j c d other first second e entry f entry'
    rw [List.getElem?_append] at first second
    split at first
    · split at second
      · exact shaped.apart i j c d other first second e entry f entry'
      · rw [List.mem_singleton.1 (List.mem_of_getElem? second)] at entry'
        cases entry'
    · rw [List.mem_singleton.1 (List.mem_of_getElem? first)] at entry
      cases entry

/-- A call keeps its entries while the end of the log does not move back. -/
theorem Shaped.replace (shaped : Shaped n calls) (call : calls[i]? = some c)
    (numbered : n'.Numbered) (last : n.lastIndex ≤ n'.lastIndex) (entries : c'.entries = c.entries)
    (early : c'.stage.isEarly → c.stage.isEarly)
    (work : ∀ term work, c'.stage = .assigning term work → work.commands ≠ [])
    (some : c'.stage.isOpen → c.stage.isOpen) : Shaped n' (calls.set i c') := by
  have member : c ∈ calls := List.mem_of_getElem? call
  refine ⟨numbered, ?_, ?_, ?_, ?_, ?_⟩
  · intro d inside stage
    rcases List.mem_or_eq_of_mem_set inside with inside | rfl
    · exact shaped.early d inside stage
    · rw [entries]
      exact shaped.early c member (early stage)
  · intro d inside term work' stage
    rcases List.mem_or_eq_of_mem_set inside with inside | rfl
    · exact shaped.work d inside term work' stage
    · exact work term work' stage
  · intro d inside stage
    rcases List.mem_or_eq_of_mem_set inside with inside | rfl
    · exact shaped.holds d inside stage
    · rw [entries]
      exact shaped.holds c member (some stage)
  · intro d inside e entry
    rcases List.mem_or_eq_of_mem_set inside with inside | rfl
    · exact (shaped.below d inside e entry).trans last
    · rw [entries] at entry
      exact (shaped.below c member e entry).trans last
  · intro j k d d' other first second e entry f entry'
    rcases getElem?_set_cases first with ⟨rfl, rfl⟩ | ⟨_, kept⟩
    · rcases getElem?_set_cases second with ⟨rfl, _⟩ | ⟨_, kept'⟩
      · exact absurd rfl other
      · rw [entries] at entry
        exact shaped.apart _ _ _ _ other call kept' e entry f entry'
    · rcases getElem?_set_cases second with ⟨rfl, rfl⟩ | ⟨_, kept'⟩
      · rw [entries] at entry'
        exact shaped.apart _ _ _ _ other kept call e entry f entry'
      · exact shaped.apart _ _ _ _ other kept kept' e entry f entry'

/-- A call takes the lock and logs its entries above all others. -/
theorem Shaped.assign (shaped : Shaped n calls) (call : calls[i]? = some c) {term : Nat}
    {work : Work} (stands : c.stage = .assigning term work) :
    Shaped { n with log := n.log ++ entriesFrom term n.nextIndex work.commands }
      (calls.set i { c with
        stage := .replicating work
        entries := entriesFrom term n.nextIndex work.commands }) := by
  have next := shaped.numbered.nextIndex
  have fresh : ∀ e ∈ entriesFrom term n.nextIndex work.commands, n.lastIndex < e.index := by
    intro e inside
    rw [next] at inside
    exact ((from_entriesFrom term n.lastIndex work.commands).mem inside).1
  have last : RaftNode.lastIndex
      { n with log := n.log ++ entriesFrom term n.nextIndex work.commands } =
        n.lastIndex + work.commands.length := by
    simp only [lastIndex, List.length_append, length_entriesFrom]
    omega
  refine ⟨shaped.numbered.append term work.commands, ?_, ?_, ?_, ?_, ?_⟩
  · intro d inside stage
    rcases List.mem_or_eq_of_mem_set inside with inside | rfl
    · exact shaped.early d inside stage
    · cases stage
  · intro d inside term' work' stage
    rcases List.mem_or_eq_of_mem_set inside with inside | rfl
    · exact shaped.work d inside term' work' stage
    · cases stage
  · intro d inside stage
    rcases List.mem_or_eq_of_mem_set inside with inside | rfl
    · exact shaped.holds d inside stage
    · have some := shaped.work c (List.mem_of_getElem? call) term work stands
      rw [← List.length_pos_iff] at some ⊢
      rw [length_entriesFrom]
      exact some
  · intro d inside e entry
    rw [last]
    rcases List.mem_or_eq_of_mem_set inside with inside | rfl
    · exact (shaped.below d inside e entry).trans (Nat.le_add_right _ _)
    · rw [next] at entry
      have inside := ((from_entriesFrom term n.lastIndex work.commands).mem entry).2
      rw [length_entriesFrom] at inside
      exact inside
  · intro j k d d' other first second e entry f entry'
    rcases getElem?_set_cases first with ⟨rfl, rfl⟩ | ⟨_, kept⟩
    · rcases getElem?_set_cases second with ⟨rfl, _⟩ | ⟨_, kept'⟩
      · exact absurd rfl other
      · have above := fresh e entry
        have low := shaped.below d' (List.mem_of_getElem? kept') f entry'
        omega
    · rcases getElem?_set_cases second with ⟨rfl, rfl⟩ | ⟨_, kept'⟩
      · have above := fresh f entry'
        have low := shaped.below d (List.mem_of_getElem? kept) e entry
        omega
      · exact shaped.apart _ _ _ _ other kept kept' e entry f entry'

theorem isOpen_stored (work : Work) : work.stored.isOpen = false := by
  cases work <;> rfl

theorem isEarly_stored (work : Work) : work.stored.isEarly = false := by
  cases work <;> rfl

theorem stored_ne_assigning (work work' : Work) (term : Nat) :
    work.stored ≠ .assigning term work' := by
  cases work <;> simp [Work.stored]

/-- A section keeps the shape. -/
theorem Shaped.turn (shaped : Shaped n calls) (call : calls[i]? = some c)
    (turn : c.Turn n n' c') : Shaped n' (calls.set i c') := by
  have numbered := shaped.numbered
  cases turn with
  | quiet log snapshot commit peers silent closed closed' early some read =>
      have same : n'.lastIndex = n.lastIndex := by rw [lastIndex, log, snapshot, lastIndex]
      have numbered' : n'.Numbered := by
        unfold Numbered
        rw [log, snapshot]
        exact numbered
      exact shaped.replace call numbered' same.ge rfl early some (by simp [closed'])
  | assign stands => exact shaped.assign call stands
  | wait stands =>
      exact shaped.replace call numbered le_rfl rfl id (by simp [stands]) id
  | goes stands decided =>
      exact shaped.replace call numbered le_rfl rfl (by simp [LeaderStage.isEarly]) (by simp)
        (by simp [stands, LeaderStage.isOpen])
  | fails stands outvoted heard =>
      exact shaped.replace call numbered le_rfl rfl (by simp [LeaderStage.isEarly]) (by simp)
        (by simp [LeaderStage.isOpen])
  | @commits work stands =>
      exact shaped.replace call numbered le_rfl rfl (by simp [isEarly_stored])
        (fun term work' same => absurd same (stored_ne_assigning work work' term))
        (by simp [isOpen_stored])
  | @trims commit reply stands =>
      obtain ⟨numbered', last, _⟩ := numbered.compactAt commit
      exact shaped.replace call numbered' last.ge rfl (by simp [LeaderStage.isEarly]) (by simp)
        (by simp [LeaderStage.isOpen])

/-- The answer of a peer changes nothing but the answers. -/
theorem LeaderCall.answered_frame (n : RaftNode) (c : LeaderCall) (success : Bool) :
    (c.answered n success).stage = c.stage ∧ (c.answered n success).entries = c.entries := by
  unfold LeaderCall.answered
  split
  · split <;> exact ⟨rfl, rfl⟩
  · exact ⟨rfl, rfl⟩

theorem Shaped.answers (shaped : Shaped n calls) (call : calls[i]? = some c) (success : Bool) :
    Shaped n (calls.set i (c.answered n success)) := by
  obtain ⟨stage, entries⟩ := c.answered_frame n success
  refine shaped.replace call shaped.numbered le_rfl entries (by rw [stage]; exact id) ?_
    (by rw [stage]; exact id)
  rw [stage]
  exact shaped.work c (List.mem_of_getElem? call)

end Calls

/-! ## A node that only leads -/

/-- The batches logged so far are consecutive, and the log ends where they end. -/
structure Leading.Batched (base : Nat) (v : Leading) : Prop where
  shaped : Shaped v.node v.calls
  numbered : From LogEntry.index base v.batches.flatten
  last : base + v.batches.flatten.length = v.node.lastIndex

theorem Leading.Batched.turn {base i : Nat} {v v' : Leading} {c c' : LeaderCall}
    (batched : v.Batched base) (call : v.calls[i]? = some c) (turn : c.Turn v.node v'.node c')
    (calls : v'.calls = v.calls.set i c') (batches : v'.batches = v.batches ++ c.batch v.node) :
    v'.Batched base := by
  have shaped := batched.shaped.turn call turn
  have keeps : c.batch v.node = [] → v'.node.lastIndex = v.node.lastIndex → v'.Batched base := by
    intro silent last
    rw [silent, List.append_nil] at batches
    exact ⟨by rw [calls]; exact shaped, by rw [batches]; exact batched.numbered,
      by rw [batches, last]; exact batched.last⟩
  have next := batched.shaped.numbered.nextIndex
  have last := batched.last
  obtain ⟨node', clock', calls', batches'⟩ := v'
  dsimp only at calls batches turn
  subst calls batches
  cases turn with
  | quiet log snapshot commit peers silent closed closed' early some read =>
      exact keeps silent (by simp only [RaftNode.lastIndex, log, snapshot])
  | @assign term work stands =>
      have batch : c.batch v.node = [entriesFrom term v.node.nextIndex work.commands] := by
        simp only [LeaderCall.batch, stands]
      refine ⟨shaped, ?_, ?_⟩
      · rw [batch, List.flatten_append, from_append, last, List.flatten_singleton, next]
        exact ⟨batched.numbered, from_entriesFrom term _ _⟩
      · rw [batch, List.flatten_append, List.flatten_singleton, List.length_append,
          length_entriesFrom, ← Nat.add_assoc, last]
        simp only [RaftNode.lastIndex, List.length_append, length_entriesFrom, Nat.add_assoc]
  | wait stands => exact keeps (by simp only [LeaderCall.batch, stands]) rfl
  | goes stands => exact keeps (by simp only [LeaderCall.batch, stands]) rfl
  | fails stands => exact keeps (by simp only [LeaderCall.batch, stands]) rfl
  | commits stands => exact keeps (by simp only [LeaderCall.batch, stands]) rfl
  | trims stands =>
      exact keeps (by simp only [LeaderCall.batch, stands])
        (batched.shaped.numbered.compactAt _).2.1

theorem Leading.Batched.step {base : Nat} {v : Leading} (env : Env) {action : LeaderAction}
    (batched : v.Batched base) (leads : ∀ request, action ≠ .install request) :
    (v.step env action).Batched base := by
  have moves := v.step_moves env action
  generalize v.step env action = v' at moves
  obtain ⟨shaped, numbered, last⟩ := batched
  cases moves with
  | idle engine node calls batches =>
      refine ⟨?_, ?_, ?_⟩
      · rw [node, calls]
        exact shaped.engine engine
      · rw [batches]
        exact numbered
      · rw [batches, node]
        exact last
  | @begins request _ node calls batches =>
      refine ⟨?_, ?_, ?_⟩
      · rw [node, calls]
        exact shaped.begins request
      · rw [batches]
        exact numbered
      · rw [batches, node]
        exact last
  | @answers i success c _ call node calls batches =>
      refine ⟨?_, ?_, ?_⟩
      · rw [node, calls]
        exact shaped.answers call success
      · rw [batches]
        exact numbered
      · rw [batches, node]
        exact last
  | turns call turn calls batches =>
      exact Leading.Batched.turn ⟨shaped, numbered, last⟩ call turn calls batches
  | @installs request => exact absurd rfl (leads request)

/-! ## A follower of the batches -/

/-- An entry on the wire. -/
def LogEntry.wire (codec : Postcard) (entry : LogEntry) : RaftLogEntryWire :=
  ⟨entry.term, entry.index, codec.toAllocvec entry.command⟩

namespace RaftNode

variable {codec : Postcard} {n : RaftNode} {entries : List LogEntry}

theorem applyEntry_foldl_log (env : Env) (codec : Postcard) (now : Nat) (entries : List LogEntry)
    (n : RaftNode) :
    ((entries.map (LogEntry.wire codec)).foldl (applyEntry env codec now) n).log =
        n.log ++ entries ∧
      ((entries.map (LogEntry.wire codec)).foldl (applyEntry env codec now) n).snapshotIndex =
        n.snapshotIndex ∧
      ((entries.map (LogEntry.wire codec)).foldl (applyEntry env codec now) n).compactionThreshold =
        n.compactionThreshold := by
  induction entries generalizing n with
  | nil => exact ⟨(List.append_nil _).symm, rfl, rfl⟩
  | cons entry entries ih =>
      obtain ⟨log, snapshot, threshold⟩ := ih (applyEntry env codec now n (entry.wire codec))
      rw [List.map_cons, List.foldl_cons, log, snapshot, threshold]
      simp [applyEntry, LogEntry.wire, codec.fromBytes_toAllocvec]

/-- A follower that gets the entries that follow its log. -/
theorem Numbered.receives (numbered : n.Numbered) (env : Env) (now : Nat)
    (follow : From LogEntry.index n.lastIndex entries) {request : RaftAppend} (term : n.currentTerm ≤ request.term)
    (sent : request.entries = entries.map (LogEntry.wire codec)) :
    (n.handleAppendEntries env codec now request).1.Numbered ∧
      (n.handleAppendEntries env codec now request).1.lastIndex = n.lastIndex + entries.length ∧
      (n.handleAppendEntries env codec now request).1.compactionThreshold =
        n.compactionThreshold ∧
      (0 < n.compactionThreshold → (n.handleAppendEntries env codec now request).1.log.length ≤
        2 * n.compactionThreshold) := by
  unfold handleAppendEntries
  rw [if_neg (Nat.not_lt.2 term), sent]
  dsimp only
  obtain ⟨log, snapshot, threshold⟩ := applyEntry_foldl_log env codec now entries
    { n with currentLeader := some request.leaderId }
  dsimp only at log snapshot threshold
  generalize (entries.map (LogEntry.wire codec)).foldl (applyEntry env codec now)
    { n with currentLeader := some request.leaderId } = m at log snapshot threshold ⊢
  have numbered' : m.Numbered := by
    unfold Numbered
    rw [log, snapshot]
    exact from_append.2 ⟨numbered, follow⟩
  obtain ⟨trimmed, last, short⟩ := numbered'.trimLog
  refine ⟨trimmed, ?_, (trimLog_compactionThreshold m).trans threshold, ?_⟩
  · rw [last, lastIndex, log, snapshot, List.length_append, lastIndex, Nat.add_assoc]
  · rw [threshold] at short
    exact short

/-- A follower that gets consecutive batches, each once and in order. -/
theorem Numbered.deliver (numbered : n.Numbered) (env : Env) {batches : List (List LogEntry)}
    (follow : From LogEntry.index n.lastIndex batches.flatten) {arrivals : List (Nat × RaftAppend)}
    (terms : ∀ arrival ∈ arrivals, n.currentTerm ≤ arrival.2.term)
    (sent : arrivals.map (fun arrival => arrival.2.entries) =
      batches.map (List.map (LogEntry.wire codec)))
    (positive : 0 < n.compactionThreshold) (short : n.log.length ≤ 2 * n.compactionThreshold) :
    (n.deliver env codec arrivals).Numbered ∧
      (n.deliver env codec arrivals).lastIndex = n.lastIndex + batches.flatten.length ∧
      (n.deliver env codec arrivals).log.length ≤ 2 * n.compactionThreshold := by
  induction arrivals generalizing n batches with
  | nil =>
      cases batches with
      | nil => exact ⟨numbered, rfl, short⟩
      | cons batch batches => cases sent
  | cons arrival arrivals ih =>
      cases batches with
      | nil => cases sent
      | cons batch batches =>
          rw [List.map_cons, List.map_cons, List.cons.injEq] at sent
          rw [List.flatten_cons, from_append] at follow
          obtain ⟨first, later⟩ := List.forall_mem_cons.1 terms
          obtain ⟨numbered', last, threshold, short'⟩ :=
            numbered.receives env arrival.1 follow.1 first sent.1
          have term := (handleAppendEntries_engine env codec arrival.1 n arrival.2).2
          have rest := ih numbered' (by rw [last]; exact follow.2) (by rw [term]; exact later)
            sent.2 (by rw [threshold]; exact positive)
            (by rw [threshold]; exact short' positive)
          rw [last, threshold] at rest
          rw [List.flatten_cons, List.length_append, ← Nat.add_assoc]
          exact rest

end RaftNode

/-- On a node that only leads the log is consecutive from the snapshot on, indices are given
out once, and a cut drops nothing above the commit index it read; a follower that gets the
batches once and in order has a log of the same form and of bounded length. -/
theorem Leading.log_numbered (env : Env) (codec : Postcard) (n : RaftNode) (clock : Nat)
    (actions : List LeaderAction) (empty : n.log = [])
    (leads : ∀ action ∈ actions, ∀ request, action ≠ .install request) :
    let v := actions.foldl (Leading.step env) (n.lead clock)
    v.node.Numbered ∧
      v.node.nextIndex = v.node.snapshotIndex + v.node.log.length + 1 ∧
      (∀ (i j : Nat) (c d : LeaderCall), i ≠ j → v.calls[i]? = some c → v.calls[j]? = some d →
        ∀ e ∈ c.entries, ∀ f ∈ d.entries, e.index ≠ f.index) ∧
      (∀ (i : Nat) (c : LeaderCall) (commit : Nat) (reply : LeaderReply), v.calls[i]? = some c →
        c.stage = .trimming commit reply →
          ∃ dropped, v.node.log = dropped ++ (v.step env (.resume i)).node.log ∧
            ∀ e ∈ dropped, e.index ≤ commit) ∧
      ∀ (follower : RaftNode) (arrivals : List (Nat × RaftAppend)) (k : Nat),
        follower.log = [] → follower.snapshotIndex = n.snapshotIndex →
        0 < follower.compactionThreshold →
        (∀ arrival ∈ arrivals, follower.currentTerm ≤ arrival.2.term) →
        arrivals.map (fun arrival => arrival.2.entries) =
          (v.batches.take k).map (List.map (LogEntry.wire codec)) →
        (follower.deliver env codec arrivals).Numbered ∧
          (∀ entry, (v.batches.take k).flatten.getLast? = some entry →
            (follower.deliver env codec arrivals).lastIndex = entry.index) ∧
          (follower.deliver env codec arrivals).log.length ≤ 2 * follower.compactionThreshold := by
  intro v
  have batched : v.Batched n.snapshotIndex := by
    have start : (n.lead clock).Batched n.snapshotIndex :=
      ⟨.start (.of_empty empty), trivial, by simp [RaftNode.lead, RaftNode.lastIndex, empty]⟩
    have run : Trace.Along (Leading.step env)
        (fun _ action => ∀ request, action ≠ .install request) (n.lead clock) actions :=
      Trace.along_of_forall fun _ => leads
    exact run.invariant start fun _ _ batched kept => batched.step env kept
  refine ⟨batched.shaped.numbered, batched.shaped.numbered.nextIndex, batched.shaped.apart, ?_, ?_⟩
  · intro i c commit reply call stands
    obtain ⟨_, _, _, dropped, split, low⟩ := batched.shaped.numbered.compactAt commit
    refine ⟨dropped, ?_, low⟩
    simp only [Leading.step, call, LeaderCall.resume, stands]
    exact split
  · intro follower arrivals k fresh start positive terms sent
    have numbered : follower.Numbered := .of_empty fresh
    have last : follower.lastIndex = n.snapshotIndex := by
      rw [RaftNode.lastIndex, fresh, start, List.length_nil, Nat.add_zero]
    have follow : From LogEntry.index follower.lastIndex (v.batches.take k).flatten := by
      have whole := batched.numbered
      rw [← List.take_append_drop k v.batches, List.flatten_append, from_append] at whole
      rw [last]
      exact whole.1
    obtain ⟨numbered', last', short⟩ := numbered.deliver env follow terms sent positive
      (by simp [fresh])
    exact ⟨numbered', fun entry final => by rw [last', follow.getLast final], short⟩

/-- Two pushes, the second of which takes the lock first and finishes first, and a cut. -/
def sampleCrossing : List LeaderAction :=
  [.begins (.push "a" [("", [1], 0)]), .begins (.push "b" [("", [2], 0), ("", [3], 0)]),
    .resume 0, .resume 1, .resume 1, .resume 0, .resume 1, .resume 1, .begins .compact, .resume 2,
    .resume 2, .resume 0, .resume 0]

/-- The batches reach a follower one after another. -/
theorem Leading.log_numbered_sample :
    let v := sampleCrossing.foldl (Leading.step .sample) (sampleLeader.lead 1600000000)
    let arrivals := v.batches.map fun batch => (1600000000,
      ({ sampleLeader.heartbeat with entries := batch.map (LogEntry.wire .format) } : RaftAppend))
    v.node.snapshotIndex = 2 ∧ v.node.Numbered ∧
      (sampleFollower.deliver .sample .format arrivals).log.length = 3 ∧
      (sampleFollower.deliver .sample .format arrivals).Numbered := by
  obtain ⟨numbered, _, _, _, followers⟩ := Leading.log_numbered .sample .format sampleLeader
    1600000000 sampleCrossing rfl (by simp [sampleCrossing])
  exact ⟨by decide +kernel, numbered, by decide +kernel,
    (followers sampleFollower _ 2 rfl rfl (by decide) (by simp [sampleFollower, RaftNode.new,
      RaftNode.withThreshold]) (by decide +kernel)).1⟩

/-! ## The commit index -/

/-- The call is about to store the commit index. -/
def LeaderStage.isCommitting : LeaderStage → Bool
  | .committing _ => true
  | _ => false

/-- Commit indices are stored in the order of the indices, and a snapshot lies at or above
the commit index and at or below every entry still to be committed. -/
def Leading.InOrder (v : Leading) : LeaderAction → Prop
  | .resume i =>
      match v.calls[i]? with
      | some c => c.stage.isCommitting → ∀ d ∈ v.calls.eraseIdx i, d.stage.isOpen →
          ∀ e ∈ d.entries, c.lastIndex ≤ e.index
      | none => True
  | .install request =>
      v.node.currentTerm ≤ request.term → v.node.commitIndex ≤ request.lastIncludedIndex ∧
        ∀ d ∈ v.calls, d.stage.isOpen → ∀ e ∈ d.entries, request.lastIncludedIndex ≤ e.index
  | .tick _ | .poll .. | .begins _ | .answer .. => True

instance (v : Leading) : (action : LeaderAction) → Decidable (v.InOrder action)
  | .resume i =>
      match call : v.calls[i]? with
      | some c => decidable_of_iff (c.stage.isCommitting → ∀ d ∈ v.calls.eraseIdx i,
          d.stage.isOpen → ∀ e ∈ d.entries, c.lastIndex ≤ e.index)
            (by simp only [Leading.InOrder, call])
      | none => isTrue (by simp only [Leading.InOrder, call])
  | .install _ => inferInstanceAs (Decidable (_ → _ ∧ _))
  | .tick _ | .poll .. | .begins _ | .answer .. => isTrue trivial

section Commit

variable {n n' : RaftNode} {calls : List LeaderCall} {c c' : LeaderCall} {i : Nat}

theorem LeaderCall.lastIndex_mem (some : c.entries ≠ []) :
    ∃ e ∈ c.entries, e.index = c.lastIndex := by
  refine ⟨c.entries.getLast some, List.getLast_mem some, ?_⟩
  rw [LeaderCall.lastIndex, List.getLast?_eq_some_getLast some]
  rfl

/-- The commit index lies in or before the log, at or below every entry still to be
committed, and no cut under way has read a larger one. -/
structure Ordered (n : RaftNode) (calls : List LeaderCall) : Prop where
  shaped : Shaped n calls
  snapshot : n.snapshotIndex ≤ n.commitIndex
  commit : n.commitIndex ≤ n.lastIndex
  waiting : ∀ c ∈ calls, c.stage.isOpen → ∀ e ∈ c.entries, n.commitIndex ≤ e.index
  read : ∀ c ∈ calls, ∀ commit reply, c.stage = .trimming commit reply → commit ≤ n.commitIndex

/-- A node without calls whose commit index lies in or before its log. -/
theorem Ordered.start (numbered : n.Numbered) (snapshot : n.snapshotIndex ≤ n.commitIndex)
    (commit : n.commitIndex ≤ n.lastIndex) : Ordered n [] :=
  ⟨.start numbered, snapshot, commit, by simp, by simp⟩

/-- A section of a call keeps the order when the call, if it is about to store the commit
index, comes before the others. -/
theorem Ordered.turn (ordered : Ordered n calls) (call : calls[i]? = some c)
    (turn : c.Turn n n' c') (first : c.stage.isCommitting → ∀ d ∈ calls.eraseIdx i,
      d.stage.isOpen → ∀ e ∈ d.entries, c.lastIndex ≤ e.index) :
    Ordered n' (calls.set i c') ∧ n.commitIndex ≤ n'.commitIndex := by
  have member : c ∈ calls := List.mem_of_getElem? call
  have shaped := ordered.shaped.turn call turn
  obtain ⟨before, snapshot, commit, waiting, read⟩ := ordered
  -- all sections but the store leave the commit index, so only the call itself has to be looked at
  have keeps : n'.commitIndex = n.commitIndex → n'.snapshotIndex ≤ n.commitIndex →
      n.lastIndex ≤ n'.lastIndex →
      (c'.stage.isOpen → ∀ e ∈ c'.entries, n.commitIndex ≤ e.index) →
      (∀ commit reply, c'.stage = .trimming commit reply → commit ≤ n.commitIndex) →
      Ordered n' (calls.set i c') ∧ n.commitIndex ≤ n'.commitIndex := by
    intro same low last waiting' read'
    refine ⟨⟨shaped, by rw [same]; exact low, by rw [same]; exact commit.trans last, ?_, ?_⟩,
      same.ge⟩
    · intro d inside stage
      rw [same]
      rcases List.mem_or_eq_of_mem_set inside with inside | rfl
      · exact waiting d inside stage
      · exact waiting' stage
    · intro d inside
      rw [same]
      rcases List.mem_or_eq_of_mem_set inside with inside | rfl
      · exact read d inside
      · exact read'
  cases turn with
  | quiet log snapshot' commit' peers silent closed closed' early some read' =>
      have last : n'.lastIndex = n.lastIndex := by
        rw [RaftNode.lastIndex, log, snapshot', RaftNode.lastIndex]
      exact keeps commit' (snapshot'.le.trans snapshot) last.ge (by simp [closed'])
        fun k reply stage => (read' k reply stage).le
  | @assign term work stands =>
      refine keeps rfl snapshot ?_ (fun _ e inside => ?_) (by simp)
      · simp only [RaftNode.lastIndex, List.length_append]
        omega
      · rw [before.numbered.nextIndex] at inside
        exact commit.trans ((from_entriesFrom term n.lastIndex work.commands).mem inside).1.le
  | wait stands => exact keeps rfl snapshot le_rfl (waiting c member) (read c member)
  | goes stands decided =>
      exact keeps rfl snapshot le_rfl
        (fun _ => waiting c member (by simp [stands, LeaderStage.isOpen])) (by simp)
  | fails stands outvoted heard =>
      exact keeps rfl snapshot le_rfl (by simp [LeaderStage.isOpen]) (by simp)
  | @commits work stands =>
      have opened : c.stage.isOpen := by simp [stands, LeaderStage.isOpen]
      obtain ⟨e, inside, last⟩ := LeaderCall.lastIndex_mem (before.holds c member opened)
      have grows : n.commitIndex ≤ c.lastIndex := last ▸ waiting c member opened e inside
      refine ⟨⟨shaped, snapshot.trans grows, ?_, ?_, ?_⟩, grows⟩
      · rw [← last]
        exact before.below c member e inside
      · intro d inside' stage
        obtain ⟨j, found⟩ := List.mem_iff_getElem?.1 inside'
        rcases getElem?_set_cases found with ⟨_, rfl⟩ | ⟨other, kept⟩
        · rw [isOpen_stored] at stage
          cases stage
        · exact first (by simp [stands, LeaderStage.isCommitting]) d
            (List.mem_eraseIdx_iff_getElem?.2 ⟨j, other, kept⟩) stage
      · intro d inside' k reply stage
        rcases List.mem_or_eq_of_mem_set inside' with inside' | rfl
        · exact (read d inside' k reply stage).trans grows
        · cases work <;> cases stage
  | @trims k reply stands =>
      have low : (n.compactAt k).snapshotIndex ≤ n.commitIndex := by
        rcases compactAt_cases n k with same | ⟨_, last, _, _, low, _, cut⟩
        · rw [same]
          exact snapshot
        · rw [cut]
          exact low.trans (read c member k reply stands)
      exact keeps (compactAt_frame n k).1 low (before.numbered.compactAt k).2.1.ge
        (by simp [LeaderStage.isOpen]) (by simp)

theorem Ordered.engine (ordered : Ordered n calls) (engine : QueueEngine) :
    Ordered { n with engine } calls :=
  ⟨ordered.shaped.engine engine, ordered.snapshot, ordered.commit, ordered.waiting, ordered.read⟩

theorem Ordered.begins (ordered : Ordered n calls) (request : LeaderRequest) :
    Ordered n (calls ++ [⟨request, .entered, [], []⟩]) where
  shaped := ordered.shaped.begins request
  snapshot := ordered.snapshot
  commit := ordered.commit
  waiting := by
    intro c inside stage
    rcases List.mem_append.1 inside with inside | inside
    · exact ordered.waiting c inside stage
    · rw [List.mem_singleton.1 inside] at stage
      cases stage
  read := by
    intro c inside k reply stage
    rcases List.mem_append.1 inside with inside | inside
    · exact ordered.read c inside k reply stage
    · rw [List.mem_singleton.1 inside] at stage
      cases stage

theorem Ordered.answers (ordered : Ordered n calls) (call : calls[i]? = some c) (success : Bool) :
    Ordered n (calls.set i (c.answered n success)) where
  shaped := ordered.shaped.answers call success
  snapshot := ordered.snapshot
  commit := ordered.commit
  waiting := by
    intro d inside
    rcases List.mem_or_eq_of_mem_set inside with inside | rfl
    · exact ordered.waiting d inside
    · obtain ⟨stage, entries⟩ := c.answered_frame n success
      rw [stage, entries]
      exact ordered.waiting c (List.mem_of_getElem? call)
  read := by
    intro d inside
    rcases List.mem_or_eq_of_mem_set inside with inside | rfl
    · exact ordered.read d inside
    · rw [(c.answered_frame n success).1]
      exact ordered.read c (List.mem_of_getElem? call)

/-- A snapshot at or above the commit index that covers no entry still to be committed. -/
theorem Ordered.installs (ordered : Ordered n calls) (env : Env) (now : Nat)
    {request : RaftInstallSnapshot} (fits : n.currentTerm ≤ request.term →
      n.commitIndex ≤ request.lastIncludedIndex ∧
        ∀ d ∈ calls, d.stage.isOpen → ∀ e ∈ d.entries, request.lastIncludedIndex ≤ e.index) :
    Ordered (n.handleInstallSnapshot env now request).1 calls ∧
      n.commitIndex ≤ (n.handleInstallSnapshot env now request).1.commitIndex := by
  unfold handleInstallSnapshot
  split
  · exact ⟨ordered, le_rfl⟩
  · rename_i current
    obtain ⟨above, clear⟩ := fits (Nat.not_lt.1 current)
    obtain ⟨shaped, snapshot, commit, waiting, read⟩ := ordered
    obtain ⟨numbered, last⟩ := shaped.numbered.above (snapshot.trans above)
    have last' : n.lastIndex ≤ request.lastIncludedIndex +
        (n.log.filter fun entry => request.lastIncludedIndex < entry.index).length := by
      rw [last]
      exact le_max_right _ _
    refine ⟨⟨⟨numbered, shaped.early, shaped.work, shaped.holds, ?_, shaped.apart⟩, le_rfl,
      Nat.le_add_right _ _, clear, ?_⟩, above⟩
    · exact fun c inside e entry => (shaped.below c inside e entry).trans last'
    · exact fun c inside k reply stage => (read c inside k reply stage).trans above

end Commit

/-- An action in order keeps the order and does not move the commit index back. -/
theorem Leading.ordered_step (env : Env) {v : Leading} {action : LeaderAction}
    (ordered : Ordered v.node v.calls) (fits : v.InOrder action) :
    Ordered (v.step env action).node (v.step env action).calls ∧
      v.node.commitIndex ≤ (v.step env action).node.commitIndex := by
  have moves := v.step_moves env action
  generalize v.step env action = v' at moves ⊢
  cases moves with
  | idle engine node calls =>
      rw [node, calls]
      exact ⟨ordered.engine engine, le_rfl⟩
  | @begins request _ node calls =>
      rw [node, calls]
      exact ⟨ordered.begins request, le_rfl⟩
  | @answers i success c _ call node calls =>
      rw [node, calls]
      exact ⟨ordered.answers call success, le_rfl⟩
  | turns call turn calls =>
      rw [calls]
      simp only [Leading.InOrder, call] at fits
      exact ordered.turn call turn fits
  | installs node calls =>
      rw [node, calls]
      exact ordered.installs env v.clock fits

/-- When the commit index lies in or before a consecutive log, commit indices are stored in the
order of the indices and snapshots lie at or above the commit index, the commit index never
goes back and stays at or above the snapshot. -/
theorem Leading.commit_monotone (env : Env) (n : RaftNode) (clock : Nat)
    (before after : List LeaderAction) (numbered : n.Numbered)
    (snapshot : n.snapshotIndex ≤ n.commitIndex) (commit : n.commitIndex ≤ n.lastIndex)
    (run : Trace.Along (Leading.step env) Leading.InOrder (n.lead clock) (before ++ after)) :
    (before.foldl (Leading.step env) (n.lead clock)).node.commitIndex ≤
        ((before ++ after).foldl (Leading.step env) (n.lead clock)).node.commitIndex ∧
      ((before ++ after).foldl (Leading.step env) (n.lead clock)).node.snapshotIndex ≤
        ((before ++ after).foldl (Leading.step env) (n.lead clock)).node.commitIndex := by
  have fresh : Ordered (n.lead clock).node (n.lead clock).calls := .start numbered snapshot commit
  obtain ⟨run, run'⟩ := Trace.along_append.1 run
  have middle := run.invariant (I := fun v => Ordered v.node v.calls) fresh
    fun v action ordered fits => (Leading.ordered_step env ordered fits).1
  rw [List.foldl_append]
  generalize before.foldl (Leading.step env) (n.lead clock) = v at run' middle ⊢
  have final := run'.invariant
    (I := fun w => Ordered w.node w.calls ∧ v.node.commitIndex ≤ w.node.commitIndex)
    ⟨middle, le_rfl⟩ fun w action kept fits =>
      have step := Leading.ordered_step env kept.1 fits
      ⟨step.1, kept.2.trans step.2⟩
  exact ⟨final.2, final.1.snapshot⟩

/-- Two pushes, numbered 1 and 2, up to the point where both have a quorum; the second has
stored the commit index. -/
def sampleStored : List LeaderAction :=
  [.begins (.push "a" [("", [1], 0)]), .begins (.push "b" [("", [2], 0)]),
    .resume 0, .resume 0, .resume 1, .resume 1, .resume 0, .resume 1, .resume 1]

/-- The push that was numbered first stores the commit index last. -/
theorem Leading.commit_goes_back :
    (sampleStored.foldl (Leading.step .sample) (sampleLeader.lead 1600000000)).node.commitIndex = 2 ∧
      ((sampleStored ++ [LeaderAction.resume 0]).foldl (Leading.step .sample)
        (sampleLeader.lead 1600000000)).node.commitIndex = 1 := by
  decide +kernel

/-- The pushes store the commit index in the order of their numbers; then a snapshot comes. -/
def sampleInOrder : List LeaderAction :=
  [.begins (.push "a" [("", [1], 0)]), .begins (.push "b" [("", [2], 0)]),
    .resume 0, .resume 0, .resume 1, .resume 1, .resume 0, .resume 0, .resume 1, .resume 1,
    .begins .compact, .resume 2, .resume 2, .install ⟨0, "n2", 9, 0, []⟩]

/-- A leader that has cut its log at index 3 and still has the committed entry 4. -/
def sampleVeteran : RaftNode :=
  { sampleLeader with
    log := [⟨0, 4, .push "a" "" [1] 0⟩]
    snapshotIndex := 3
    commitIndex := 4 }

theorem Leading.commit_monotone_sample :
    let w := (sampleInOrder.take 8).foldl (Leading.step .sample) (sampleVeteran.lead 1600000000)
    let v := (sampleInOrder.take 8 ++ sampleInOrder.drop 8).foldl (Leading.step .sample)
      (sampleVeteran.lead 1600000000)
    w.node.commitIndex = 5 ∧ v.node.commitIndex = 9 ∧ w.node.commitIndex ≤ v.node.commitIndex ∧
      v.node.snapshotIndex ≤ v.node.commitIndex :=
  ⟨by decide +kernel, by decide +kernel, Leading.commit_monotone .sample sampleVeteran 1600000000
    (sampleInOrder.take 8) (sampleInOrder.drop 8) (by decide) (by decide) (by decide)
    (by decide +kernel)⟩

end WalrQueue
