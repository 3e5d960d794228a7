import WalrQueue.Lib.Simulation
import WalrQueue.Reopen

/-!
# Queue ids

A new name gets the number of names already registered, narrowed to 16 bits, and
the manifest stores the length of a name in 16 bits.  While at most 65536 names
are registered the maps of the registry are inverse to each other; while every
name also has under 64 KiB the manifest gives them back.
-/

namespace WalrQueue.QueueRegistry

open Simulation BigEndian

/-! ## While the ids last -/

theorem length_le_card {names : List String} {all : Finset String} (nodup : names.Nodup)
    (inside : ∀ name ∈ names, name ∈ all) : names.length ≤ all.card := by
  rw [← List.toFinset_card_of_nodup nodup]
  exact Finset.card_le_card fun name member => inside name (List.mem_toFinset.1 member)

/-- The two maps are inverse, and hold names of `all` only. -/
structure Faithful (reg : QueueRegistry) (all : Finset String) : Prop where
  agrees : reg.Agrees
  covers : reg.Covers
  nodup : reg.idToName.Nodup
  known : ∀ name ∈ reg.idToName, name ∈ all

namespace Faithful

variable {reg : QueueRegistry} {all : Finset String} {name : String} {names : List String}

theorem empty (all : Finset String) : Faithful .empty all where
  agrees _ _ found := by cases found
  covers _ inside := by cases inside
  nodup := List.nodup_nil
  known _ inside := by cases inside

/-- An id looks up to a name exactly when the name looks up to the id. -/
theorem lookup_iff (h : Faithful reg all) (name : String) (id : Nat) :
    AList.lookup name reg.nameToId = some id ↔ reg.getName id = some name := by
  refine ⟨h.agrees name id, fun found => ?_⟩
  obtain ⟨id', lookup⟩ := (FMap.mem_iff_lookup _ _).1 (h.covers name (List.mem_of_getElem? found))
  have found' : reg.idToName[id']? = some name := h.agrees name id' lookup
  obtain ⟨inside, same⟩ := List.getElem?_eq_some_iff.1 found
  obtain ⟨inside', same'⟩ := List.getElem?_eq_some_iff.1 found'
  rw [(h.nodup.getElem_inj_iff).1 (same.trans same'.symm)]
  exact lookup

theorem getOrRegister (h : Faithful reg all) (inside : name ∈ all) (few : all.card ≤ 65536) :
    Faithful (reg.getOrRegister name).1 all ∧
      (reg.getOrRegister name).1.getName (reg.getOrRegister name).2 = some name := by
  have parts : (reg.getOrRegister name).1.Covers ∧ (reg.getOrRegister name).1.idToName.Nodup ∧
      ∀ other ∈ (reg.getOrRegister name).1.idToName, other ∈ all := by
    unfold QueueRegistry.getOrRegister
    cases lookup : AList.lookup name reg.nameToId with
    | some id => exact ⟨h.covers, h.nodup, h.known⟩
    | none =>
        have new : name ∉ reg.idToName := fun old =>
          AList.lookup_eq_none.1 lookup (h.covers name old)
        refine ⟨h.covers.concat _ name _, ?_, fun other member => ?_⟩
        · exact List.nodup_append.2 ⟨h.nodup, List.nodup_singleton _, fun a old b last same =>
            new (List.mem_singleton.1 last ▸ same ▸ old)⟩
        · rcases List.mem_append.1 member with old | last
          · exact h.known other old
          · exact List.mem_singleton.1 last ▸ inside
  obtain ⟨covers, nodup, known⟩ := parts
  obtain ⟨agrees, named⟩ := h.agrees.getOrRegister name ((length_le_card nodup known).trans few)
  exact ⟨⟨agrees, covers, nodup, known⟩, named⟩

end Faithful

/-- Names keep their ids in later calls. -/
theorem idToName_prefix_after (reg : QueueRegistry) (names : List String) :
    reg.idToName <+: (after getOrRegister reg names).idToName := by
  induction names generalizing reg with
  | nil => exact List.prefix_rfl
  | cons name names ih => exact (idToName_prefix_getOrRegister reg name).trans (ih _)

theorem Faithful.after {reg : QueueRegistry} {all : Finset String} (h : Faithful reg all)
    (few : all.card ≤ 65536) (names : List String) (inside : ∀ name ∈ names, name ∈ all) :
    Faithful (Simulation.after QueueRegistry.getOrRegister reg names) all ∧
      ∀ call ∈ names.zip (answers QueueRegistry.getOrRegister reg names),
        (Simulation.after QueueRegistry.getOrRegister reg names).getName call.2 = some call.1 := by
  induction names generalizing reg with
  | nil => exact ⟨h, fun call none => by cases none⟩
  | cons name names ih =>
      obtain ⟨faithful, named⟩ := h.getOrRegister (inside name List.mem_cons_self) few
      obtain ⟨last, later⟩ := ih faithful fun other member => inside other (.tail _ member)
      refine ⟨last, fun call member => ?_⟩
      rcases List.mem_cons.1 member with rfl | member
      · exact getElem?_of_prefix (idToName_prefix_after _ names) named
      · exact later call member

/-! ## The ids of one process -/

/-- The calls on `names` gave every name one id of its own, and the id leads back to
the name, for the registry and for a WAL record that carries it. -/
structure Unambiguous (names : List String) : Prop where
  ids : ∀ call ∈ names.zip (answers getOrRegister .empty names),
    ∀ call' ∈ names.zip (answers getOrRegister .empty names), call.1 = call'.1 ↔ call.2 = call'.2
  names : ∀ call ∈ names.zip (answers getOrRegister .empty names),
    (after getOrRegister .empty names).getName call.2 = some call.1 ∧
      recordQueue (after getOrRegister .empty names) call.2 = call.1

theorem answers_lt {reg : QueueRegistry} (fit : reg.IdsFit) (names : List String) :
    ∀ id ∈ answers getOrRegister reg names, id < 2 ^ 16 := by
  induction names generalizing reg with
  | nil => exact fun id none => by cases none
  | cons name names ih =>
      obtain ⟨fit', small⟩ := fit.getOrRegister name
      intro id member
      rcases List.mem_cons.1 member with rfl | member
      · exact small
      · exact ih fit' id member

/-- Every name of the calls is in one of them. -/
theorem mem_zip_answers {names : List String} {name : String} (inside : name ∈ names)
    (reg : QueueRegistry) : (name, (answers getOrRegister reg names).getD (names.idxOf name) 0) ∈
      names.zip (answers getOrRegister reg names) := by
  have place : names.idxOf name < names.length := List.idxOf_lt_length_of_mem inside
  have place' : names.idxOf name < (answers getOrRegister reg names).length := by
    rwa [length_answers]
  have pair : (names.zip (answers getOrRegister reg names))[names.idxOf name]? =
      some (name, (answers getOrRegister reg names).getD (names.idxOf name) 0) := by
    rw [List.getElem?_zip_eq_some]
    refine ⟨by simp [place], ?_⟩
    rw [List.getElem?_eq_getElem place', List.getD_eq_getElem _ _ place']
  exact List.mem_of_getElem? pair

/-- Distinct names with ids of their own are at most as many as there are ids. -/
theorem Unambiguous.card_le {names : List String} (h : Unambiguous names) :
    names.toFinset.card ≤ 65536 := by
  let id := fun name => (answers getOrRegister .empty names).getD (names.idxOf name) 0
  have call : ∀ name ∈ names.toFinset,
      (name, id name) ∈ names.zip (answers getOrRegister .empty names) :=
    fun name inside => mem_zip_answers (List.mem_toFinset.1 inside) .empty
  have fits : Set.MapsTo id names.toFinset (Finset.range 65536) := by
    intro name inside
    refine Finset.mem_coe.2 (Finset.mem_range.2 ?_)
    exact answers_lt (fun _ _ found => by cases found) names _
      (List.of_mem_zip (call name inside)).2
  have injective : Set.InjOn id names.toFinset := fun name inside name' inside' same =>
    (h.ids _ (call name inside) _ (call name' inside')).2 same
  simpa using Finset.card_le_card_of_injOn id fits injective

/-- Ids are unambiguous exactly as long as there are no more names than ids. -/
theorem unambiguous_iff (names : List String) :
    Unambiguous names ↔ names.toFinset.card ≤ 65536 := by
  constructor
  · exact Unambiguous.card_le
  · intro few
    obtain ⟨faithful, named⟩ := (Faithful.empty names.toFinset).after few names (by simp)
    have lookup : ∀ call ∈ names.zip (answers getOrRegister .empty names),
        AList.lookup call.1 (after getOrRegister .empty names).nameToId = some call.2 :=
      fun call inside => (faithful.lookup_iff call.1 call.2).2 (named call inside)
    refine ⟨fun call inside call' inside' => ⟨fun same => ?_, fun same => ?_⟩,
      fun call inside => ?_⟩
    · have first := lookup call inside
      rw [same, lookup call' inside'] at first
      exact (Option.some.inj first).symm
    · have first := named call inside
      rw [same, named call' inside'] at first
      exact (Option.some.inj first).symm
    · refine ⟨named call inside, ?_⟩
      rw [recordQueue, named call inside]
      rfl

/-- New names get consecutive ids, narrowed to 16 bits. -/
theorem answers_of_new {reg : QueueRegistry} {names : List String} (nodup : names.Nodup)
    (new : ∀ name ∈ names, name ∉ reg.nameToId) : answers getOrRegister reg names =
      (List.range' reg.idToName.length names.length).map (· % 2 ^ 16) := by
  induction names generalizing reg with
  | nil => rfl
  | cons name names ih =>
      have lookup : AList.lookup name reg.nameToId = none :=
        AList.lookup_eq_none.2 (new name List.mem_cons_self)
      obtain ⟨first, rest⟩ := List.nodup_cons.1 nodup
      have later : ∀ other ∈ names, other ∉ (reg.getOrRegister name).1.nameToId := by
        intro other member inside
        simp only [getOrRegister, lookup, AList.mem_insert] at inside
        rcases inside with rfl | inside
        · exact first member
        · exact new other (.tail _ member) inside
      have length : (reg.getOrRegister name).1.idToName.length = reg.idToName.length + 1 := by
        simp [getOrRegister, lookup]
      rw [answers, ih rest later, length, List.length_cons, List.range'_succ, List.map_cons]
      simp [getOrRegister, lookup]

/-- One name more than there are ids: runs of the letter a, by length. -/
def runNames : List String := (List.range 65537).map fun n => String.ofList (List.replicate n 'a')

theorem nodup_runNames : runNames.Nodup := by
  refine List.nodup_range.map fun n k same => ?_
  have same : List.replicate n 'a' = List.replicate k 'a' := String.ofList_injective same
  simpa using congrArg List.length same

/-- The last of them gets the id of the first, which looks up to the first. -/
theorem id_reused : runNames[0]? = some "" ∧
    runNames[65536]? = some (String.ofList (List.replicate 65536 'a')) ∧
    (answers getOrRegister .empty runNames)[0]? = some 0 ∧
    (answers getOrRegister .empty runNames)[65536]? = some 0 ∧
    ¬ Unambiguous runNames := by
  have ids : answers getOrRegister .empty runNames = (List.range' 0 65537).map (· % 2 ^ 16) := by
    rw [answers_of_new nodup_runNames fun name _ inside => by cases inside]
    simp [runNames, empty]
  have last : runNames[65536]? = some (String.ofList (List.replicate 65536 'a')) := by
    rw [runNames, List.getElem?_map, List.getElem?_range (by norm_num), Option.map_some]
  refine ⟨by simp [runNames], last, by simp [ids], by simp [ids], fun h => ?_⟩
  have few := h.card_le
  rw [List.toFinset_card_of_nodup nodup_runNames] at few
  simp [runNames] at few

/-! ## The manifest -/

/-- A call on the registry, or the next opening of its directory. -/
inductive RegistryOp where
  | getOrRegister (name : String)
  | reopen
  deriving DecidableEq

def step (reg : QueueRegistry) : RegistryOp → QueueRegistry
  | .getOrRegister name => (reg.getOrRegister name).1
  | .reopen => openManifest reg.manifest

/-- The names the calls of a run are made on. -/
def RegistryOp.names (ops : List RegistryOp) : List String :=
  ops.filterMap fun
    | .getOrRegister name => some name
    | .reopen => none

/-- Opening the manifest gives the maps back, and the next new name then gets the
next unused id. -/
structure RoundTrips (reg : QueueRegistry) : Prop where
  ids : ∀ name, AList.lookup name (openManifest reg.manifest).nameToId =
    AList.lookup name reg.nameToId
  names : (openManifest reg.manifest).idToName = reg.idToName
  next : ∀ name, AList.lookup name reg.nameToId = none → reg.idToName.length < 65536 →
    ((openManifest reg.manifest).getOrRegister name).2 = reg.idToName.length ∧
      ∀ other, AList.lookup other reg.nameToId ≠ some reg.idToName.length

section

variable {reg : QueueRegistry} {all : Finset String}

theorem Faithful.openManifest (h : Faithful reg all) (manifested : reg.Manifested)
    (short : ∀ name ∈ all, (utf8 name).length < 2 ^ 16) (few : all.card ≤ 65536) :
    (QueueRegistry.openManifest reg.manifest).idToName = reg.idToName ∧
      Faithful (QueueRegistry.openManifest reg.manifest) all ∧
      (QueueRegistry.openManifest reg.manifest).Manifested := by
  obtain ⟨names, agrees, covers⟩ := manifested.openManifest
    (fun name inside => short name (h.known name inside))
    ((length_le_card h.nodup h.known).trans few)
  refine ⟨names, ⟨agrees, covers, ?_, ?_⟩, ?_⟩
  · rw [names]
    exact h.nodup
  · rw [names]
    exact h.known
  · rw [Manifested, names]
    exact manifested

theorem Faithful.step (h : Faithful reg all) (manifested : reg.Manifested)
    (short : ∀ name ∈ all, (utf8 name).length < 2 ^ 16) (few : all.card ≤ 65536) (op : RegistryOp)
    (inside : ∀ name ∈ RegistryOp.names [op], name ∈ all) :
    Faithful (reg.step op) all ∧ (reg.step op).Manifested := by
  cases op with
  | getOrRegister name =>
      exact ⟨(h.getOrRegister (inside name (by simp [RegistryOp.names])) few).1,
        manifested.getOrRegister name⟩
  | reopen => exact (h.openManifest manifested short few).2

theorem Faithful.run (h : Faithful reg all) (manifested : reg.Manifested)
    (short : ∀ name ∈ all, (utf8 name).length < 2 ^ 16) (few : all.card ≤ 65536)
    (ops : List RegistryOp) (inside : ∀ name ∈ RegistryOp.names ops, name ∈ all) :
    Faithful (ops.foldl QueueRegistry.step reg) all ∧
      (ops.foldl QueueRegistry.step reg).Manifested := by
  induction ops generalizing reg with
  | nil => exact ⟨h, manifested⟩
  | cons op ops ih =>
      have split : RegistryOp.names (op :: ops) =
          RegistryOp.names [op] ++ RegistryOp.names ops := by
        rw [RegistryOp.names, RegistryOp.names, RegistryOp.names, ← List.filterMap_append]
        rfl
      obtain ⟨faithful, manifested'⟩ := h.step manifested short few op fun name member =>
        inside name (split ▸ List.mem_append_left _ member)
      exact ih faithful manifested' fun name member =>
        inside name (split ▸ List.mem_append_right _ member)

theorem Faithful.roundTrips (h : Faithful reg all) (manifested : reg.Manifested)
    (short : ∀ name ∈ all, (utf8 name).length < 2 ^ 16) (few : all.card ≤ 65536) :
    RoundTrips reg := by
  obtain ⟨names, opened, _⟩ := h.openManifest manifested short few
  have ids : ∀ name, AList.lookup name (QueueRegistry.openManifest reg.manifest).nameToId =
      AList.lookup name reg.nameToId := by
    intro name
    refine Option.ext fun id => ?_
    rw [opened.lookup_iff, h.lookup_iff, getName, names, getName]
  refine ⟨ids, names, fun name new room => ⟨?_, fun other found => ?_⟩⟩
  · rw [QueueRegistry.getOrRegister, ids, new]
    dsimp only
    rw [names]
    exact Nat.mod_eq_of_lt room
  · have inside := h.agrees other _ found
    simp at inside

end

/-- In every run on at most 65536 names of under 64 KiB, over any number of openings, the
manifest gives the registry back. -/
theorem manifest_roundTrips (ops : List RegistryOp)
    (few : (RegistryOp.names ops).toFinset.card ≤ 65536)
    (short : ShortNames (RegistryOp.names ops)) :
    RoundTrips (ops.foldl step .empty) := by
  have short : ∀ name ∈ (RegistryOp.names ops).toFinset, (utf8 name).length < 2 ^ 16 :=
    fun name inside => short name (List.mem_toFinset.1 inside)
  obtain ⟨faithful, manifested⟩ :=
    (Faithful.empty (RegistryOp.names ops).toFinset).run rfl short few ops (by simp)
  exact faithful.roundTrips manifested short few

/-- Three names over two openings. -/
theorem manifest_roundTrips_sample :
    let ops : List RegistryOp := [.getOrRegister "a", .getOrRegister "b", .reopen,
      .getOrRegister "a", .getOrRegister "c", .reopen]
    (ops.foldl step .empty).idToName = ["a", "b", "c"] ∧ RoundTrips (ops.foldl step .empty) :=
  ⟨by decide +kernel, manifest_roundTrips _ (by decide +kernel) (by decide +kernel)⟩

theorem length_utf8_replicate (n : Nat) :
    (utf8 (String.ofList (List.replicate n 'a'))).length = n := by
  have size : (List.replicate n 'a').utf8Encode.size = n := by
    induction n with
    | zero => rfl
    | succ n ih =>
        rw [List.replicate_succ, List.utf8Encode_cons, ByteArray.size_append, ih, Nat.add_comm]
        rfl
  simpa [utf8] using size

/-- Opening keeps every name it has read. -/
theorem mem_openLoop {name : String} (fuel : Nat) (cur : List UInt8) {ids : FMap String Nat}
    (known : List String) (inside : name ∈ ids) : name ∈ (openLoop fuel cur ids known).1 := by
  induction fuel generalizing cur ids known with
  | zero => exact inside
  | succ fuel ih =>
      unfold openLoop
      dsimp only
      split
      · exact inside
      · split
        · exact inside
        · exact ih _ _ ((AList.mem_insert _).2 (.inr inside))

/-- An entry of 65536 bytes is read as an entry of none. -/
theorem mem_openManifest_zero (rest : List UInt8) :
    "" ∈ (openManifest (toBE 2 0 ++ toBE 2 65536 ++ rest)).nameToId := by
  have length : (toBE 2 0 ++ toBE 2 65536 ++ rest).length = rest.length + 3 + 1 := by
    simp only [List.length_append, length_toBE]
    omega
  have lenField : ((toBE 2 0 ++ toBE 2 65536 ++ rest).drop 2).take 2 = toBE 2 65536 := by simp
  have lenRead : ofBE (toBE 2 65536) = 0 := by
    rw [ofBE_toBE]
    norm_num
  unfold openManifest
  dsimp only
  rw [length]
  unfold openLoop
  dsimp only
  rw [length, if_neg (by omega), lenField, lenRead, if_neg (Nat.not_lt_zero _)]
  exact mem_openLoop _ _ _ ((AList.mem_insert _).2 (.inl rfl))

/-- A name of 65536 bytes is written with the length 0, and read back as the empty
name. -/
theorem long_name_misread :
    let name := String.ofList (List.replicate 65536 'a')
    let reg := (empty.getOrRegister name).1
    "" ∉ reg.nameToId ∧ "" ∈ (openManifest reg.manifest).nameToId ∧ ¬ RoundTrips reg := by
  intro name reg
  have length : (utf8 name).length = 65536 := length_utf8_replicate 65536
  have ids : reg.nameToId = AList.insert name 0 ∅ := rfl
  have manifest : reg.manifest = toBE 2 0 ++ toBE 2 65536 ++ utf8 name := by
    rw [← length]
    rfl
  have absent : "" ∉ reg.nameToId := by
    intro inside
    rw [ids, AList.mem_insert] at inside
    rcases inside with same | none
    · rw [← same] at length
      cases length
    · cases none
  have present : "" ∈ (openManifest reg.manifest).nameToId := by
    rw [manifest]
    exact mem_openManifest_zero _
  refine ⟨absent, present, fun h => ?_⟩
  have lookup := h.ids ""
  rw [AList.lookup_eq_none.2 absent] at lookup
  exact AList.lookup_eq_none.1 lookup present

end WalrQueue.QueueRegistry
