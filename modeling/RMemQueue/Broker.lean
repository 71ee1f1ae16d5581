import RMemQueue.BackendRun
import RMemQueue.Group
import RMemQueue.Partitioner

/-!
# The broker (`broker.rs`)

A broker with the in-memory backend, its groups and its offset store, generic in the partitioner.  Groups are never
removed or replaced, so that an `Arc<ConsumerGroup>` is the group's id.  `produce` and `produce_typed` differ in the
content they store only, hence are one definition.
-/

namespace RMemQueue

open Conc

structure RecordMetadata where
  topic : String
  partition : Int
  offset : Int
  timestamp : Int
  deriving DecidableEq, Repr

/-- `Broker` with an in-memory backend. -/
structure Broker (π : Type) where
  backend : InMemoryBackend
  consumerGroups : AList (fun _ : String => ConsumerGroup)
  shutdown : Bool
  config : BrokerConfig
  partitioner : π
  offsetStore : OffsetStore

abbrev BrokerM (π : Type) := Act (Broker π) RmqError

/-- The bytes by which the partitioner chooses; a typed key is not used. -/
def Content.partitionKey : Content → Option Bytes
  | .raw key _ => key
  | .typed _ _ => none

namespace Broker

variable {π α : Type}

def withPartitioner (config : RmqClientConfig) (partitioner : π) : RmqResult (Broker π) := do
  let brokerConfig ← BrokerConfig.fromConfig config
  return {
    backend := .new brokerConfig
    consumerGroups := ∅
    shutdown := false
    config := brokerConfig
    partitioner
    offsetStore := ∅ }

def new (config : RmqClientConfig) : RmqResult (Broker RoundRobinPartitioner) :=
  withPartitioner config .new

/-- A new broker is running and has no topic, no group and no offset. -/
theorem withPartitioner_eq_ok {config : RmqClientConfig} {partitioner : π} {broker : Broker π} :
    withPartitioner config partitioner = .ok broker ↔
      ∃ c, BrokerConfig.fromConfig config = .ok c ∧ broker = ⟨.new c, ∅, false, c, partitioner, ∅⟩ := by
  unfold withPartitioner
  rw [RmqResult.bind_eq_ok]
  refine exists_congr fun c => and_congr_right fun _ => ?_
  constructor
  · intro h
    exact (Except.ok.inj h).symm
  · rintro rfl
    rfl

theorem config_of_new {config : RmqClientConfig} {broker : Broker RoundRobinPartitioner}
    (h : new config = .ok broker) : BrokerConfig.fromConfig config = .ok broker.config := by
  obtain ⟨c, hc, rfl⟩ := withPartitioner_eq_ok.1 h
  exact hc

/-- The backend of a broker. -/
def backendLens : Lens (Broker π) InMemoryBackend where
  get b := b.backend
  put b backend := { b with backend }
  get_put _ _ := rfl
  put_get _ := rfl
  put_put _ _ _ := rfl

def onBackend (x : BackendM α) : BrokerM π α := x.zoom backendLens

def checkShutdown : BrokerM π Unit :=
  .read fun b => if b.shutdown then .err .brokerShutdown else .ok ()

/-- The configuration never changes. -/
def getConfig : BrokerM π BrokerConfig := .read fun b => .ok b.config

def ensureTopic (topic : String) (numPartitions : Int) : BrokerM π Unit :=
  onBackend (InMemoryBackend.ensureTopic topic numPartitions)

/-- The call of the partitioner. -/
def choosePartition [Partitioner π] (topic : String) (key : Option Bytes) (numPartitions : Int) : BrokerM π Int :=
  .step fun b =>
    let (p, partitioner) := Partitioner.partition b.partitioner topic key numPartitions
    (match p with
      | some p => .ok p
      | none => .panic, { b with partitioner })

/-- The partition of a record: the explicit one, or the partitioner's choice. -/
def recordPartition [Partitioner π] (partition : Option Int) (topic : String) (key : Option Bytes)
    (numPartitions : Int) : BrokerM π Int :=
  match partition with
  | some p => pure p
  | none => choosePartition topic key numPartitions

/-- `produce` and `produce_typed`. -/
def produce [Partitioner π] (topic : String) (partition : Option Int) (content : Content)
    (headers : Option OwnedHeaders) (timestamp : Option Int) (clock : Clock) : BrokerM π RecordMetadata := do
  checkShutdown
  let config ← getConfig
  ensureTopic topic config.defaultNumPartitions
  let metadata ← onBackend (InMemoryBackend.metadata config.brokerId (some topic))
  let numP : Int := match metadata.topics.head? with
    | some t => t.partitions.length
    | none => config.defaultNumPartitions
  let p ← recordPartition partition topic content.partitionKey numP
  let (partitionId, offset, ts) ← onBackend (InMemoryBackend.produce topic p content headers timestamp clock)
  pure ⟨topic, partitionId, offset, ts⟩

def fetch (topic : String) (partition offset : Int) (maxCount : Nat) : BrokerM π (List StoredMessage) :=
  onBackend (InMemoryBackend.fetch topic partition offset maxCount)

/-- The lookup of a group that has to exist. -/
def requireGroup (groupId : String) : BrokerM π Unit :=
  .read fun b => if (b.consumerGroups.lookup groupId).isSome then .ok () else .err (.groupNotFound groupId)

def watermarks (topic : String) (partition : Int) : BrokerM π (Int × Int) :=
  onBackend (InMemoryBackend.watermarks topic partition)

def oldestOffset (topic : String) (partition : Int) : BrokerM π Int := do
  let (oldest, _) ← watermarks topic partition
  pure oldest

/-- The committed offset of a group, if the group exists. -/
def groupOffset (groupId topic : String) (partition : Int) : BrokerM π (Option Int) := do
  let known ← .read fun b => .ok (b.consumerGroups.lookup groupId).isSome
  if known then .read fun b => .ok (b.offsetStore.lookup (groupId, topic, partition))
  else pure none

/-- Where a fetch begins: at the position, else after the group's commit, else at the oldest message. -/
def startOffset (topic : String) (partition : Int) (position : Option Int) (groupId : Option String) :
    BrokerM π Int :=
  match position, groupId with
  | some o, _ => pure o
  | none, none => oldestOffset topic partition
  | none, some gid => do
    let committed ← groupOffset gid topic partition
    match committed with
    | some committed =>
      match i64Checked (committed + 1) with
      | some offset => pure offset
      | none => .panicked
    | none => oldestOffset topic partition

def fetchOneFromPosition (topic : String) (partition : Int) (position : Option Int) (groupId : Option String) :
    BrokerM π (Option StoredMessage) := do
  checkShutdown
  let offset ← startOffset topic partition position groupId
  let result ← (onBackend (InMemoryBackend.fetchOne topic partition offset)).attempt
  match result with
  | .ok msg => pure msg
  | .error (.offsetOutOfRange _ _ _) => do
    let oldest ← oldestOffset topic partition
    .fail (.offsetOutOfRange topic partition oldest)
  | .error e => .fail e

def metadata (topic : Option String) : BrokerM π Metadata := do
  checkShutdown
  let config ← getConfig
  onBackend (InMemoryBackend.metadata config.brokerId topic)

def shutdownBroker : BrokerM π Unit := do
  .modify fun b => { b with shutdown := true }
  onBackend InMemoryBackend.shutdownBackend

def getPartitionNotifies (topics : List String) : BrokerM π (List NotifyRef) :=
  onBackend (InMemoryBackend.getPartitionNotifies topics)

/-- The partition counts of the joining member's topics. -/
def countsOf (topics : List String) (metadata : Metadata) : PartitionCounts :=
  topics.foldl (fun counts topic =>
    match metadata.topics.find? (·.name = topic) with
    | some tm => counts.insert topic tm.partitions.length
    | none => counts) ∅

/-- The partition counts of all topics. -/
def countsOfAll (metadata : Metadata) : PartitionCounts :=
  metadata.topics.foldl (fun counts tm => counts.insert tm.name tm.partitions.length) ∅

/-- The critical section of an existing group's state. -/
def onGroup (groupId : String) (f : ConsumerGroup → RmqResult α × ConsumerGroup) : BrokerM π α :=
  .step fun b =>
    match b.consumerGroups.lookup groupId with
    | some g => (InMemoryBackend.ofResult (f g).1, { b with consumerGroups := b.consumerGroups.insert groupId (f g).2 })
    | none => (.panic, b)

def joinGroup (order : HashOrder) (groupId memberId : String) (topics : List String) :
    BrokerM π TopicPartitionList := do
  checkShutdown
  let config ← getConfig
  let _ ← .forEach (fun topic => ensureTopic topic config.defaultNumPartitions) topics
  .modify fun b =>
    if (b.consumerGroups.lookup groupId).isSome then b
    else { b with consumerGroups := b.consumerGroups.insert groupId (.new groupId) }
  let _ ← getPartitionNotifies topics
  let metadata ← onBackend (InMemoryBackend.metadata config.brokerId none)
  onGroup groupId fun g => g.join order memberId topics (countsOf topics metadata)

def leaveGroup (order : HashOrder) (groupId memberId : String) : BrokerM π Unit := do
  checkShutdown
  requireGroup groupId
  let config ← getConfig
  let metadata ← onBackend (InMemoryBackend.metadata config.brokerId none)
  onGroup groupId fun g => (.ok (), g.leave order memberId (countsOfAll metadata))

def commitOffset (groupId topic : String) (partition offset : Int) : BrokerM π Unit := do
  checkShutdown
  requireGroup groupId
  .modify fun b => { b with offsetStore := b.offsetStore.insert (groupId, topic, partition) offset }

def committedOffset (groupId topic : String) (partition : Int) : BrokerM π (Option Int) := do
  checkShutdown
  requireGroup groupId
  .read fun b => .ok (b.offsetStore.lookup (groupId, topic, partition))

end Broker

end RMemQueue
