import WalrQueue.Engine

/-!
# Requests of the client

`send_with_redirect` sends a request to the node it has a route to or to a seed
picked by the hash of the queue, follows redirects, and goes on to another seed
when a node cannot be reached.  The other seed is the first of the list that is
not the node just tried, so the seeds it can come to are few.

`Network` is what lies outside: which nodes accept a connection, and what the
request gets on a connection to a node.
-/

namespace WalrQueue.Client

/-- `Message`. -/
structure Message where
  messageId : String
  payload : List UInt8
  receiptHandle : String
  deliveryCount : Nat
  deriving DecidableEq

/-- `Response`. -/
inductive Response where
  | push (messageId : String)
  | pushBatch (messageIds : List String)
  | poll (messages : List Message)
  | ack (success : Bool)
  | ackBatch (ackedCount : Nat)
  | raftVote (term : Nat) (voteGranted : Bool)
  | raftAppend (term : Nat) (success : Bool)
  | raftInstallSnapshot (term : Nat) (success : Bool)
  | clusterMembership (success : Bool) (members : List String)
  | metrics (prometheusText : String)
  | redirect (leader : String)
  | error (message : String)
  deriving DecidableEq

/-- The errors of `ClientError` that reach a caller of `push` here. -/
inductive ClientError where
  | serverError (message : String)
  | unavailable
  | channelClosed
  deriving DecidableEq

/-- What a request gets on a connection. -/
inductive Exchange where
  | writeFailed
  | readFailed
  | answered (response : Response)
  deriving DecidableEq

structure Network where
  connects : String → Bool
  exchange : String → Exchange

/-- `ClientInner`; of the connection pool only the number of connections to each
node matters. -/
structure ClientInner where
  seedNodes : List String
  routes : FMap String String
  connections : FMap String Nat
  maxRedirects : Nat

namespace ClientInner

/-- `WalrClient::with_config`. -/
def new (seedNodes : List String) (maxRedirects : Nat) : ClientInner :=
  ⟨seedNodes, ∅, ∅, maxRedirects⟩

/-- `resolve_initial_target`. -/
def resolveInitialTarget (c : ClientInner) (queue : String) : Except ClientError String :=
  match AList.lookup queue c.routes with
  | some target => .ok target
  | none =>
      match c.seedNodes[fnv1a (utf8 queue) % c.seedNodes.length]? with
      | some seed => .ok seed
      | none => .error .unavailable

/-- `update_route`. -/
def updateRoute (c : ClientInner) (queue target : String) : ClientInner :=
  { c with routes := AList.insert queue target c.routes }

/-- `invalidate_route`. -/
def invalidateRoute (c : ClientInner) (queue target : String) : ClientInner :=
  if AList.lookup queue c.routes = some target then
    { c with routes := AList.erase queue c.routes }
  else c

/-- `remove_connection`. -/
def removeConnection (c : ClientInner) (target : String) : ClientInner :=
  { c with connections := AList.erase target c.connections }

/-- `POOL_SIZE_PER_HOST`. -/
def poolSizePerHost : Nat := 4

/-- `get_connection`, and whether it succeeds: a pooled connection when there is one, else
a new one. -/
def getConnection (net : Network) (c : ClientInner) (target : String) : ClientInner × Bool :=
  let pooled := FMap.getD c.connections target 0
  if 0 < pooled then (c, true)
  else if pooled < poolSizePerHost then
    if net.connects target then
      ({ c with connections := AList.insert target (pooled + 1) c.connections }, true)
    else ({ c with connections := AList.insert target pooled c.connections }, false)
  else (c, true)

/-- `seeds.iter().find(|&s| s != &target)`. -/
def nextSeed (c : ClientInner) (target : String) : Option String :=
  c.seedNodes.find? (· ≠ target)

/-- `invalidate_route` and `remove_connection`, after a failure. -/
def forget (c : ClientInner) (queue target : String) : ClientInner :=
  (c.invalidateRoute queue target).removeConnection target

/-- The loop of `send_with_redirect` with `tries` attempts left. -/
def sendLoop (net : Network) (queue : String) :
    Nat → String → ClientInner → ClientInner × Except ClientError Response
  | 0, _, c => (c, .error .unavailable)
  | tries + 1, target, c =>
      match c.getConnection net target with
      | (c, false) =>
          let c := c.forget queue target
          match c.nextSeed target with
          | some next => sendLoop net queue tries next c
          | none => (c, .error .unavailable)
      | (c, true) =>
          match net.exchange target with
          | .writeFailed => sendLoop net queue tries target (c.forget queue target)
          | .readFailed => sendLoop net queue tries target (c.forget queue target)
          | .answered (.redirect leader) =>
              if leader ≠ "" then sendLoop net queue tries leader c
              else sendLoop net queue tries ((c.nextSeed target).getD target) c
          | .answered response => (c.updateRoute queue target, .ok response)

/-- `send_with_redirect`: attempts 0 to `max_redirects`. -/
def sendWithRedirect (net : Network) (c : ClientInner) (queue : String) :
    ClientInner × Except ClientError Response :=
  match c.resolveInitialTarget queue with
  | .error e => (c, .error e)
  | .ok target => sendLoop net queue (c.maxRedirects + 1) target c

/-! ## The nodes a client comes to -/

variable {net : Network} {c : ClientInner} {queue target : String}

/-- The client keeps no connection to a node that cannot be reached. -/
def NoStale (net : Network) (c : ClientInner) : Prop :=
  ∀ node, net.connects node = false → FMap.getD c.connections node 0 = 0

@[simp] theorem seedNodes_forget (c : ClientInner) (queue target : String) :
    (c.forget queue target).seedNodes = c.seedNodes := by
  unfold forget removeConnection invalidateRoute
  split <;> rfl

@[simp] theorem connections_forget (c : ClientInner) (queue target : String) :
    (c.forget queue target).connections = AList.erase target c.connections := by
  unfold forget removeConnection invalidateRoute
  split <;> rfl

@[simp] theorem seedNodes_getConnection (net : Network) (c : ClientInner) (target : String) :
    (c.getConnection net target).1.seedNodes = c.seedNodes := by
  unfold getConnection
  dsimp only
  split
  · rfl
  · split
    · split <;> rfl
    · rfl

/-- A node that can be reached gives a connection. -/
theorem getConnection_up (up : net.connects target = true) :
    (c.getConnection net target).2 = true := by
  unfold getConnection
  dsimp only
  split
  · rfl
  · split
    · rfl
    · rfl

/-- A node that cannot be reached gives none, and none is kept. -/
theorem getConnection_down (fresh : NoStale net c) (down : net.connects target = false)
    (queue : String) :
    (c.getConnection net target).2 = false ∧
      NoStale net ((c.getConnection net target).1.forget queue target) := by
  have none : FMap.getD c.connections target 0 = 0 := fresh target down
  have failed : c.getConnection net target =
      ({ c with connections := AList.insert target 0 c.connections }, false) := by
    simp [getConnection, none, poolSizePerHost, down]
  rw [failed]
  refine ⟨rfl, fun node away => ?_⟩
  rw [connections_forget, FMap.getD, FMap.lookup_erase_ite]
  split
  · rfl
  · rename_i other
    rw [FMap.lookup_insert_ite, if_neg other]
    exact fresh node away

/-- A failed connection leads to the first other seed. -/
theorem sendLoop_down (fresh : NoStale net c) (down : net.connects target = false)
    (queue : String) (tries : Nat) :
    ∃ c', NoStale net c' ∧ c'.seedNodes = c.seedNodes ∧
      (sendLoop net queue (tries + 1) target c).2 =
        match c.nextSeed target with
        | some next => (sendLoop net queue tries next c').2
        | none => .error .unavailable := by
  obtain ⟨failed, fresh'⟩ := getConnection_down fresh down queue
  have seeds := seedNodes_getConnection net c target
  rcases call : c.getConnection net target with ⟨c₁, success⟩
  rw [call] at failed fresh' seeds
  cases failed
  have next : (c₁.forget queue target).nextSeed target = c.nextSeed target := by
    rw [nextSeed, seedNodes_forget, seeds, nextSeed]
  refine ⟨c₁.forget queue target, fresh', (seedNodes_forget _ _ _).trans seeds, ?_⟩
  rw [sendLoop, call]
  dsimp only
  rw [next]
  cases c.nextSeed target <;> rfl

/-- The node can be reached and answers the request. -/
def Serves (net : Network) (node : String) : Prop :=
  net.connects node = true ∧
    ∃ response, net.exchange node = .answered response ∧ ∀ leader, response ≠ .redirect leader

/-- The node answers the request, or redirects to a leader that does. -/
def Cooperates (net : Network) (node : String) : Prop :=
  Serves net node ∨
    ∃ leader, net.exchange node = .answered (.redirect leader) ∧ leader ≠ "" ∧ Serves net leader

theorem sendLoop_serves (serves : Serves net target) (tries : Nat) (c : ClientInner) :
    (sendLoop net queue (tries + 1) target c).2.isOk = true := by
  obtain ⟨up, response, exchange, answer⟩ := serves
  have success := getConnection_up (c := c) up
  rcases call : c.getConnection net target with ⟨c₁, connected⟩
  rw [call] at success
  cases success
  rw [sendLoop, call]
  dsimp only
  rw [exchange]
  cases response with
  | redirect leader => exact absurd rfl (answer leader)
  | _ => rfl

/-- A reachable node that cooperates needs two attempts at most. -/
theorem sendLoop_cooperates (up : net.connects target = true) (cooperates : Cooperates net target)
    (tries : Nat) (c : ClientInner) : (sendLoop net queue (tries + 2) target c).2.isOk = true := by
  rcases cooperates with serves | ⟨leader, exchange, named, serves⟩
  · exact sendLoop_serves serves _ c
  · have success := getConnection_up (c := c) up
    rcases call : c.getConnection net target with ⟨c₁, connected⟩
    rw [call] at success
    cases success
    rw [sendLoop, call]
    dsimp only
    rw [exchange]
    dsimp only
    rw [if_pos named]
    exact sendLoop_serves serves _ c₁

/-- The seed a request starts at, the first seed, and the first seed other than that:
the only seeds a failed connection leads to. -/
def tried (c : ClientInner) (queue : String) : List String :=
  (c.seedNodes[fnv1a (utf8 queue) % c.seedNodes.length]?).toList ++ c.seedNodes.head?.toList ++
    (c.seedNodes.head?.bind c.nextSeed).toList

theorem nextSeed_congr {c' : ClientInner} (seeds : c'.seedNodes = c.seedNodes) :
    c'.nextSeed = c.nextSeed := by
  funext target
  rw [nextSeed, seeds, nextSeed]

/-- The next seed is the first of the list, except after the first. -/
theorem nextSeed_of_ne {first : String} (head : c.seedNodes.head? = some first)
    (other : target ≠ first) : c.nextSeed target = some first := by
  obtain ⟨rest, seeds⟩ := List.head?_eq_some_iff.1 head
  rw [nextSeed, seeds, List.find?_cons_of_pos]
  simpa using other.symm

/-- While every seed tried cannot be reached, the loop only goes from one to the other. -/
theorem sendLoop_all_down {first : String} (head : c.seedNodes.head? = some first)
    (fresh : NoStale net c) (down : net.connects target = false)
    (downFirst : net.connects first = false)
    (downSecond : ∀ second, c.nextSeed first = some second → net.connects second = false)
    (queue : String) (tries : Nat) : (sendLoop net queue tries target c).2.isOk = false := by
  induction tries generalizing target c with
  | zero => rfl
  | succ tries ih =>
      obtain ⟨c', fresh', seeds, result⟩ := sendLoop_down fresh down queue tries
      rw [result]
      cases next : c.nextSeed target with
      | none => rfl
      | some node =>
          have downNext : net.connects node = false := by
            by_cases same : target = first
            · exact downSecond node (same ▸ next)
            · rw [nextSeed_of_ne head same] at next
              cases next
              exact downFirst
          exact ih (by rw [seeds]; exact head) fresh' downNext fun second found =>
            downSecond second (by rwa [nextSeed_congr seeds] at found)

theorem mem_of_nextSeed {next : String} (found : c.nextSeed target = some next) :
    next ∈ c.seedNodes ∧ next ≠ target :=
  ⟨List.mem_of_find?_eq_some found, by simpa using List.find?_some found⟩

/-- Two seeds that differ. -/
theorem two_le_length {first second : String} (head : c.seedNodes.head? = some first)
    (found : c.nextSeed first = some second) : 2 ≤ c.seedNodes.length := by
  obtain ⟨inside, other⟩ := mem_of_nextSeed found
  obtain ⟨rest, seeds⟩ := List.head?_eq_some_iff.1 head
  rw [seeds] at inside ⊢
  have later := (List.mem_cons.1 inside).resolve_left other
  have := List.length_pos_of_mem later
  simp only [List.length_cons]
  omega

section

variable {first second : String} {tries : Nat}

/-- From the first seed, when it cannot be reached, to the second. -/
theorem sendLoop_from_first (fresh : NoStale net c)
    (cooperate : ∀ seed ∈ c.seedNodes, net.connects seed = true → Cooperates net seed)
    (down : net.connects first = false) (found : c.nextSeed first = some second)
    (up : net.connects second = true) (queue : String) (tries : Nat) :
    (sendLoop net queue (tries + 3) first c).2.isOk = true := by
  obtain ⟨c', _, _, result⟩ := sendLoop_down fresh down queue (tries + 2)
  rw [result, found]
  exact sendLoop_cooperates up (cooperate second (mem_of_nextSeed found).1 up) tries c'

/-- From a seed that cannot be reached the loop comes to the first seed, and from that to
the first other one. -/
theorem sendLoop_some_up (head : c.seedNodes.head? = some first) (fresh : NoStale net c)
    (cooperate : ∀ seed ∈ c.seedNodes, net.connects seed = true → Cooperates net seed)
    (down : net.connects target = false)
    (up : net.connects first = true ∨
      ∃ second, c.nextSeed first = some second ∧ net.connects second = true)
    (enough : c.seedNodes.length + 2 ≤ tries) (queue : String) :
    (sendLoop net queue tries target c).2.isOk = true := by
  have inside : first ∈ c.seedNodes := List.mem_of_head? head
  have nonempty := List.length_pos_of_mem inside
  by_cases same : target = first
  · subst same
    rcases up with up | ⟨second, found, up⟩
    · rw [down] at up
      cases up
    · obtain ⟨more, rfl⟩ : ∃ more, tries = more + 3 := ⟨tries - 3, by omega⟩
      exact sendLoop_from_first fresh cooperate down found up queue more
  · obtain ⟨more, rfl⟩ : ∃ more, tries = more + 3 := ⟨tries - 3, by omega⟩
    obtain ⟨c', fresh', seeds, result⟩ := sendLoop_down fresh down queue (more + 2)
    rw [result, nextSeed_of_ne head same]
    dsimp only
    cases upFirst : net.connects first with
    | true => exact sendLoop_cooperates upFirst (cooperate first inside upFirst) more c'
    | false =>
        rcases up with up | ⟨second, found, up⟩
        · rw [upFirst] at up
          cases up
        · have two := two_le_length head found
          obtain ⟨less, rfl⟩ : ∃ less, more = less + 1 := ⟨more - 1, by omega⟩
          exact sendLoop_from_first fresh' (by rwa [seeds]) upFirst
            (by rwa [nextSeed_congr seeds]) up queue less

end

/-- Without a route and without stale connections, a request with enough attempts succeeds
exactly when one of the seeds tried can be reached. -/
theorem sendWithRedirect_ok_iff (net : Network) (c : ClientInner) (queue : String)
    (noRoute : AList.lookup queue c.routes = none) (fresh : NoStale net c)
    (cooperate : ∀ seed ∈ c.seedNodes, net.connects seed = true → Cooperates net seed)
    (enough : c.seedNodes.length + 1 ≤ c.maxRedirects) :
    (c.sendWithRedirect net queue).2.isOk = true ↔
      ∃ seed ∈ c.tried queue, net.connects seed = true := by
  unfold sendWithRedirect resolveInitialTarget
  rw [noRoute]
  cases start : c.seedNodes[fnv1a (utf8 queue) % c.seedNodes.length]? with
  | none =>
      have empty : c.seedNodes = [] := by
        by_contra some
        have inside := Nat.mod_lt (fnv1a (utf8 queue)) (List.length_pos_iff.2 some)
        rw [List.getElem?_eq_getElem inside] at start
        cases start
      simp [tried, empty, Except.isOk, Except.toBool]
  | some target =>
      have member : target ∈ c.seedNodes := List.mem_of_getElem? start
      obtain ⟨first, head⟩ : ∃ first, c.seedNodes.head? = some first :=
        ⟨_, List.head?_eq_some_head (List.ne_nil_of_mem member)⟩
      have all : ∀ seed, seed ∈ c.tried queue ↔
          seed = target ∨ seed = first ∨ c.nextSeed first = some seed := by
        intro seed
        simp [tried, start, head, eq_comm]
      dsimp only
      constructor
      · intro success
        by_contra none
        have down : ∀ seed ∈ c.tried queue, net.connects seed = false :=
          fun seed inside => by
            by_contra up
            exact none ⟨seed, inside, by simpa using up⟩
        have failed := sendLoop_all_down head fresh (down target ((all _).2 (.inl rfl)))
          (down first ((all _).2 (.inr (.inl rfl))))
          (fun second found => down second ((all _).2 (.inr (.inr found)))) queue
          (c.maxRedirects + 1)
        rw [failed] at success
        cases success
      · rintro ⟨seed, inside, up⟩
        cases upTarget : net.connects target with
        | true =>
            obtain ⟨more, eq⟩ : ∃ more, c.maxRedirects + 1 = more + 2 :=
              ⟨c.maxRedirects - 1, by omega⟩
            rw [eq]
            exact sendLoop_cooperates upTarget (cooperate target member upTarget) more c
        | false =>
            refine sendLoop_some_up head fresh cooperate upTarget ?_ (by omega) queue
            rcases (all seed).1 inside with rfl | rfl | found
            · rw [upTarget] at up
              cases up
            · exact .inl up
            · exact .inr ⟨seed, found, up⟩

/-- The first seed is down; the second redirects to a leader that is not a seed. -/
theorem sendWithRedirect_ok_iff_sample :
    let net : Network := ⟨fun node => node = "b" || node = "d",
      fun node => .answered (if node = "b" then .redirect "d" else .ack true)⟩
    let c := ClientInner.new ["a", "b", "c"] 4
    c.tried "events" = ["a", "a", "b"] ∧ (c.sendWithRedirect net "events").2.isOk = true := by
  intro net c
  have serves : Serves net "d" := ⟨rfl, .ack true, rfl, fun _ same => by cases same⟩
  have cooperate : ∀ seed ∈ c.seedNodes, net.connects seed = true → Cooperates net seed := by
    intro seed inside up
    simp only [c, new, List.mem_cons, List.not_mem_nil, or_false] at inside
    rcases inside with rfl | rfl | rfl
    · cases up
    · exact .inr ⟨"d", rfl, by decide, serves⟩
    · cases up
  refine ⟨by decide +kernel, ?_⟩
  exact (sendWithRedirect_ok_iff net c "events" rfl (fun _ _ => rfl) cooperate (by decide)).2
    ⟨"b", by decide +kernel, rfl⟩

/-- Only the third of three seeds can be reached, and it answers; the request goes to and fro
between the other two. -/
theorem failover_misses_seed :
    let net : Network := ⟨fun node => node = "c", fun _ => .answered (.ack true)⟩
    let c := ClientInner.new ["a", "b", "c"] 10
    "c" ∈ c.seedNodes ∧ net.connects "c" = true ∧ Serves net "c" ∧
      (c.sendWithRedirect net "orders").2 = .error .unavailable := by
  intro net c
  exact ⟨by decide, rfl, ⟨rfl, .ack true, rfl, fun _ same => by cases same⟩, by decide +kernel⟩

end ClientInner

end WalrQueue.Client
