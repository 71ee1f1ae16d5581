import RMemQueue.Lib.LockAct
import RMemQueue.Sections
import RMemQueue.World

/-!
# The operations with their locks

The operations of `World` with the locks that the source takes and the scopes of their guards: `Broker::inner`, the state
of a consumer group, the offset store, `InMemoryBackend::inner`, the partition list of a topic, the buffer of a
partition, and the state of a consumer.

A critical section that changes something reads it in one step and writes it in another one, so that without the lock the
change of another thread in between would be lost: the buffer of a partition with what is kept of it, a group's state, the
offset store and a consumer's state are overwritten, a topic is bound to its name and a group entered under its id.  The
message of a fetch, the oldest offset of a partition and what a poll reads of an entry are read after what they depend on.
The parts of a topic that never change are read under its lock, which is a `visit`.
-/

namespace RMemQueue

open Conc

inductive Lock where
  | consumer (i : Nat)
  | broker
  | group (groupId : String)
  | offsets
  | backend
  | topic (a : TopicRef)
  | partition (a : TopicRef) (id : Int)
  deriving DecidableEq, Repr

/-- A lock is only taken while locks of lower ranks are held. -/
def Lock.rank : Lock → Nat
  | .consumer _ => 0
  | .broker => 1
  | .group _ => 2
  | .offsets => 2
  | .backend => 2
  | .topic _ => 3
  | .partition _ _ => 3

theorem Lock.rank_le (l : Lock) : l.rank ≤ 3 := by
  cases l <;> simp [rank]

open LockAct

namespace LockedBackend

open InMemoryBackend (noPartition orElse)

abbrev BackendL := LockAct Lock InMemoryBackend RmqError

variable {α : Type}

/-- A critical section of `inner` that makes one read. -/
def readInner (g : InMemoryBackend → Outcome RmqError α) : BackendL α := guarded .backend .read (.read g)

/-- `get_partition` under the topic's lock, and then the section of the partition's lock; without such a partition the call
ends with `missing`. -/
def onPartition (a : TopicRef) (id : Int) (missing : InMemoryBackend → Outcome RmqError α) (x : BackendL α) :
    BackendL α :=
  .acquire (.topic a) .read <| .atomic (fun b => b) fun b =>
    if (b.partitionAt a id).isSome then .release x else .release (.ret (missing b))

def checkShutdown : BackendL Unit :=
  readInner fun b => if b.shutdown then .err .brokerShutdown else .ok ()

def getTopic (topic : String) : BackendL TopicRef :=
  readInner fun b =>
    match b.topics.lookup topic with
    | some a => .ok a
    | none => .err (.topicNotFound topic)

/-- The write-locked part of `ensure_topic`: the name is looked up again, and a topic is bound to it if there is none. -/
def insertTopic (topic : String) (numPartitions : Int) : BackendL Unit :=
  update .backend (fun b => (.ok (), if (b.topics.lookup topic).isSome then none else some ()))
    fun _ b => b.bindTopic topic numPartitions

def ensureTopic (topic : String) (numPartitions : Int) : BackendL Unit := do
  checkShutdown
  let known ← readInner fun b => .ok (b.topics.lookup topic).isSome
  if known then pure ()
  else insertTopic topic numPartitions

/-- What `Partition::append` computes from the partition that it has read. -/
def appended (a : TopicRef) (id : Int) (content : Content) (headers : Option OwnedHeaders) (timestamp : Option Int)
    (clock : Clock) (b : InMemoryBackend) : Outcome RmqError (Int × Int) × Option Partition :=
  match b.partitionAt a id with
  | none => (noPartition a id b, none)
  | some p =>
    match p.withoutNotify.appendContent content headers timestamp clock with
    | none => (.panic, none)
    | some (r, p') => (.ok r, some p')

/-- `Partition::append`: the partition is read, and then its buffer is overwritten. -/
def append (a : TopicRef) (id : Int) (content : Content) (headers : Option OwnedHeaders) (timestamp : Option Int)
    (clock : Clock) : BackendL (Int × Int) :=
  update (.partition a id) (appended a id content headers timestamp clock) fun p b => b.storePartition a id p

/-- `Topic::produce`. -/
def produceAt (a : TopicRef) (partition : Int) (content : Content) (headers : Option OwnedHeaders)
    (timestamp : Option Int) (clock : Clock) : BackendL (Int × Int) :=
  onPartition a partition (noPartition a partition) (append a partition content headers timestamp clock)

def produce (topic : String) (partition : Int) (content : Content) (headers : Option OwnedHeaders)
    (timestamp : Option Int) (clock : Clock) : BackendL (Int × Int × Int) := do
  checkShutdown
  let ts := timestamp.getD clock.wall
  let t ← getTopic topic
  let (partitionId, offset) ← produceAt t partition content headers (some ts) clock
  pure (partitionId, offset, ts)

/-- `Partition::read_one`: the bounds of the buffer are read, and then the message. -/
def readOne (a : TopicRef) (id offset : Int) : BackendL (Option StoredMessage) :=
  inspect (.partition a id) .read
    (fun b =>
      match b.partitionAt a id with
      | none => .inl (noPartition a id b)
      | some p => p.findOne offset)
    fun idx b => (b.partitionAt a id).elim .panic (·.messageAt idx)

def fetchOne (topic : String) (partition offset : Int) : BackendL (Option StoredMessage) := do
  checkShutdown
  let t ← getTopic topic
  onPartition t partition (noPartition t partition) (readOne t partition offset)

/-- `Partition::watermarks`: the next offset is read, and then the length of the buffer. -/
def readWatermarks (a : TopicRef) (id : Int) (missing : InMemoryBackend → Outcome RmqError (Int × Int)) :
    BackendL (Int × Int) :=
  inspect (.partition a id) .read
    (fun b =>
      match b.partitionAt a id with
      | none => .inl (missing b)
      | some p => .inr p.buffer.nextOffset)
    fun next b =>
      match b.partitionAt a id with
      | none => .panic
      | some p => .ok (if p.buffer.log.isEmpty then 0 else next - p.buffer.log.length, next - 1)

def watermarks (topic : String) (partition : Int) : BackendL (Int × Int) := do
  checkShutdown
  let t ← getTopic topic
  onPartition t partition (noPartition t partition) (readWatermarks t partition (noPartition t partition))

/-- `Partition::message_count`. -/
def readMessageCount (a : TopicRef) (id : Int) (missing : InMemoryBackend → Outcome RmqError Int) : BackendL Int :=
  guarded (.partition a id) .read (.read fun b => (b.partitionAt a id).elim (missing b) fun p => .ok p.messageCount)

def partitionMetadata (a : TopicRef) (i : Int) : BackendL PartitionMetadata := do
  let (oldest, newest) ← onPartition a i (orElse a (0, -1)) (readWatermarks a i (orElse a (0, -1)))
  let count ← onPartition a i (orElse a 0) (readMessageCount a i (orElse a 0))
  pure ⟨i, oldest, newest, count⟩

/-- The name and the number of partitions are not guarded. -/
def topicMetadata (a : TopicRef) : BackendL TopicMetadata := do
  let (name, numPartitions) ← lift (InMemoryBackend.readTopic a fun t => .ok (t.name, t.partitionCount))
  if numPartitions < 0 then .ret .panic
  else do
    let partitions ← forEach (partitionMetadata a) ((List.range numPartitions.toNat).map Int.ofNat)
    pure ⟨name, partitions, none⟩

/-- `inner` is locked until the last partition has been read. -/
def metadata (brokerId : String) (topic : Option String) : BackendL Metadata := do
  checkShutdown
  hold .backend .read do
    let found ← lift (.read fun b =>
      match topic with
      | some name =>
        match b.topics.lookup name with
        | some a => .ok [a]
        | none => .err (.topicNotFound name)
      | none => .ok (b.topics.entries.map (·.2)))
    let topics ← forEach topicMetadata found
    pure ⟨brokerId, topics⟩

def getPartitionNotifies (topics : List String) : BackendL (List NotifyRef) :=
  hold .backend .read do
    let refs ← lift (InMemoryBackend.getPartitionNotifies topics)
    visit (refs.map fun r => .topic r.1)
    pure refs

/-- `inner` is locked while the handles of all partitions are notified. -/
def shutdownBackend : BackendL Unit :=
  hold .backend .write do
    lift InMemoryBackend.shutdownBackend
    let refs ← look fun b => b.topics.entries.flatMap fun e =>
      ((b.heap[e.2]?).elim [] Topic.partitions).map fun _ => e.2
    visit (refs.map .topic)

end LockedBackend

namespace LockedBroker

variable {π α : Type}

abbrev BrokerL (π : Type) := LockAct Lock (Broker π) RmqError

def onBackend (x : LockedBackend.BackendL α) : BrokerL π α := x.zoom Broker.backendLens

def checkShutdown : BrokerL π Unit :=
  guarded .broker .read (.read fun b => if b.shutdown then .err .brokerShutdown else .ok ())

/-- The configuration and the partitioner are not guarded. -/
def produce [Partitioner π] (topic : String) (partition : Option Int) (content : Content)
    (headers : Option OwnedHeaders) (timestamp : Option Int) (clock : Clock) : BrokerL π RecordMetadata := do
  checkShutdown
  let config ← lift Broker.getConfig
  onBackend (LockedBackend.ensureTopic topic config.defaultNumPartitions)
  let metadata ← onBackend (LockedBackend.metadata config.brokerId (some topic))
  let numP : Int := match metadata.topics.head? with
    | some t => t.partitions.length
    | none => config.defaultNumPartitions
  let p ← lift (Broker.recordPartition partition topic content.partitionKey numP)
  let (partitionId, offset, ts) ← onBackend (LockedBackend.produce topic p content headers timestamp clock)
  pure ⟨topic, partitionId, offset, ts⟩

def watermarks (topic : String) (partition : Int) : BrokerL π (Int × Int) :=
  onBackend (LockedBackend.watermarks topic partition)

def oldestOffset (topic : String) (partition : Int) : BrokerL π Int := do
  let (oldest, _) ← watermarks topic partition
  pure oldest

def groupOffset (groupId topic : String) (partition : Int) : BrokerL π (Option Int) := do
  let known ← lift (.read fun b : Broker π => .ok (b.consumerGroups.lookup groupId).isSome)
  if known then guarded .offsets .read (.read fun b => .ok (b.offsetStore.lookup (groupId, topic, partition)))
  else pure none

/-- For a group `inner` is locked until the start is known. -/
def startOffset (topic : String) (partition : Int) (position : Option Int) (groupId : Option String) :
    BrokerL π Int :=
  match position, groupId with
  | some o, _ => pure o
  | none, none => oldestOffset topic partition
  | none, some gid => hold .broker .read do
    let committed ← groupOffset gid topic partition
    match committed with
    | some committed =>
      match i64Checked (committed + 1) with
      | some offset => pure offset
      | none => .ret .panic
    | none => oldestOffset topic partition

def fetchOneFromPosition (topic : String) (partition : Int) (position : Option Int) (groupId : Option String) :
    BrokerL π (Option StoredMessage) := do
  checkShutdown
  let offset ← startOffset topic partition position groupId
  let result ← (onBackend (LockedBackend.fetchOne topic partition offset)).attempt
  match result with
  | .ok msg => pure msg
  | .error (.offsetOutOfRange _ _ _) => do
    let oldest ← oldestOffset topic partition
    .ret (.err (.offsetOutOfRange topic partition oldest))
  | .error e => .ret (.err e)

def metadata (topic : Option String) : BrokerL π Metadata := do
  checkShutdown
  let config ← lift Broker.getConfig
  onBackend (LockedBackend.metadata config.brokerId topic)

def shutdownBroker : BrokerL π Unit := do
  guarded .broker .write (.modify fun b => { b with shutdown := true })
  onBackend LockedBackend.shutdownBackend

/-- The group's entry is looked up, and a new group is entered if there is none. -/
def insertGroup (groupId : String) : BrokerL π Unit :=
  update .broker (fun b => (.ok (), if (b.consumerGroups.lookup groupId).isSome then none else some ()))
    fun _ b => { b with consumerGroups := b.consumerGroups.insert groupId (.new groupId) }

/-- The section of a group's state, which is read, and then overwritten. -/
def onGroup (groupId : String) (f : ConsumerGroup → RmqResult α × ConsumerGroup) : BrokerL π α :=
  update (.group groupId)
    (fun b =>
      match b.consumerGroups.lookup groupId with
      | some g => (InMemoryBackend.ofResult (f g).1, some (f g).2)
      | none => (.panic, none))
    fun g b => { b with consumerGroups := b.consumerGroups.insert groupId g }

def joinGroup (order : HashOrder) (groupId memberId : String) (topics : List String) :
    BrokerL π TopicPartitionList := do
  checkShutdown
  let config ← lift Broker.getConfig
  let _ ← forEach (fun topic => onBackend (LockedBackend.ensureTopic topic config.defaultNumPartitions)) topics
  insertGroup groupId
  let _ ← onBackend (LockedBackend.getPartitionNotifies topics)
  let metadata ← onBackend (LockedBackend.metadata config.brokerId none)
  onGroup groupId fun g => g.join order memberId topics (Broker.countsOf topics metadata)

/-- `inner` is locked until the member has left. -/
def leaveGroup (order : HashOrder) (groupId memberId : String) : BrokerL π Unit := do
  checkShutdown
  hold .broker .read do
    lift (Broker.requireGroup groupId)
    let config ← lift Broker.getConfig
    let metadata ← onBackend (LockedBackend.metadata config.brokerId none)
    onGroup groupId fun g => (.ok (), g.leave order memberId (Broker.countsOfAll metadata))

def commitOffset (groupId topic : String) (partition offset : Int) : BrokerL π Unit := do
  checkShutdown
  hold .broker .read do
    lift (Broker.requireGroup groupId)
    update .offsets (fun b => (.ok (), some (b.offsetStore.insert (groupId, topic, partition) offset)))
      fun offsetStore b => { b with offsetStore }

def committedOffset (groupId topic : String) (partition : Int) : BrokerL π (Option Int) := do
  checkShutdown
  hold .broker .read do
    lift (Broker.requireGroup groupId)
    guarded .offsets .read (.read fun b => .ok (b.offsetStore.lookup (groupId, topic, partition)))

end LockedBroker

namespace LockedConsumer

variable {π α : Type} (i : Nat) (c : BaseConsumer)

abbrev ConsumerL (π : Type) := LockAct Lock (Session π) RmqError

def onBroker (x : LockedBroker.BrokerL π α) : ConsumerL π α := x.zoom Session.brokerLens

/-- One read of the state. -/
def readState (g : ConsumerState → α) : ConsumerL π α := guarded (.consumer i) .write (Session.readState g)

/-- The state is read, and then overwritten. -/
def updateState (f : ConsumerState → ConsumerState) : ConsumerL π Unit :=
  update (.consumer i) (fun s => (.ok (), some (f s.state))) fun state s => { s with state }

/-- The number of entries is read, and then where the last poll has ended. -/
def pollBounds : ConsumerL π (Nat × Nat) :=
  inspect (.consumer i) .write (fun s => .inr s.state.assignedPartitions.elements.length)
    fun len s => .ok (if len > 0 then s.state.pollStart % len else 0, len)

/-- The entry is read, and then its position and whether it is paused. -/
def pollEntry (idx : Nat) : ConsumerL π (Option ((String × Int) × Option Int × Bool)) :=
  inspect (.consumer i) .write
    (fun s =>
      match s.state.assignedPartitions.elements[idx]? with
      | some elem => .inr elem
      | none => .inl (.ok none))
    fun elem s => .ok (some (elem.key, s.state.position.lookup elem.key, decide (elem.key ∈ s.state.paused)))

/-- `position`: the entries are read, and then their positions. -/
def positions : ConsumerL π TopicPartitionList :=
  inspect (.consumer i) .write (fun s => .inr s.state.assignedPartitions.elements)
    fun elements s => .ok ⟨elements.map fun elem =>
      ⟨elem.topic, elem.partition, .offset ((s.state.position.lookup elem.key).getD (-1))⟩⟩

def onFetched (key : String × Int) (idx : Nat) (rest : ConsumerL π (Option StoredMessage)) :
    RmqResult (Option StoredMessage) → ConsumerL π (Option StoredMessage)
  | .ok (some msg) => do
    updateState i (·.delivered key msg.offset idx)
    pure (some msg)
  | .ok none => rest
  | .error (.offsetOutOfRange _ _ offset) => do
    updateState i (·.setPosition key offset)
    rest
  | .error (.topicNotFound _) => rest
  | .error (.partitionOutOfRange _ _) => rest
  | .error e => .ret (.err e)

/-- The state is not locked while the broker is asked. -/
def onEntry (idx : Nat) (rest : ConsumerL π (Option StoredMessage)) :
    Option ((String × Int) × Option Int × Bool) → ConsumerL π (Option StoredMessage)
  | none => rest
  | some (_, _, true) => rest
  | some (key, position, false) => do
    let result ← (onBroker (LockedBroker.fetchOneFromPosition key.1 key.2 position c.groupId)).attempt
    onFetched i key idx rest result

def pollFrom (startIdx elementsLen : Nat) : List Nat → ConsumerL π (Option StoredMessage)
  | [] => pure none
  | n :: rest => do
    let entry ← pollEntry i ((startIdx + n) % elementsLen)
    onEntry i c ((startIdx + n) % elementsLen) (pollFrom startIdx elementsLen rest) entry

def pollOnce : ConsumerL π (Option StoredMessage) := do
  let (startIdx, elementsLen) ← pollBounds i
  if elementsLen = 0 then pure none
  else pollFrom i c startIdx elementsLen (List.range elementsLen)

def newAssignment (order : HashOrder) (topics : List String) : ConsumerL π TopicPartitionList :=
  match c.groupId with
  | some gid => onBroker (LockedBroker.joinGroup order gid c.memberId topics)
  | none => do
    let results ← forEach (fun topic => (onBroker (LockedBroker.metadata (some topic))).attempt) topics
    pure ⟨results.flatMap BaseConsumer.topicEntries⟩

def subscribe (order : HashOrder) (topics : List String) : ConsumerL π Unit := do
  let assignment ← newAssignment c order topics
  updateState i fun s => { s with subscribedTopics := topics, assignedPartitions := assignment }

def leave (order : HashOrder) : ConsumerL π Unit :=
  match c.groupId with
  | some gid => onBroker (LockedBroker.leaveGroup order gid c.memberId)
  | none => pure ()

def unsubscribe (order : HashOrder) : ConsumerL π Unit := do
  let _ ← readState i (·.assignedPartitions)
  leave c order
  updateState i (·.cleared)

/-- `assignment` and `subscription`. -/
def assignment : ConsumerL π TopicPartitionList := readState i (·.assignedPartitions)

def assign (partitions : TopicPartitionList) : ConsumerL π Unit :=
  updateState i fun s => { s with assignedPartitions := partitions, position := ∅ }

def seekTarget (topic : String) (partition : Int) : Offset → ConsumerL π Int
  | .beginning => do
    let (oldest, _) ← onBroker (LockedBroker.watermarks topic partition)
    pure oldest
  | .end_ => do
    let (_, newest) ← onBroker (LockedBroker.watermarks topic partition)
    pure (newest + 1)
  | .offset o => pure o
  | .stored =>
    match c.groupId with
    | some gid => do
      let committed ← onBroker (LockedBroker.committedOffset gid topic partition)
      pure (committed.getD 0)
    | none => pure 0
  | .offsetTail tail => do
    let (_, newest) ← onBroker (LockedBroker.watermarks topic partition)
    match i64Checked (newest + 1 - tail) with
    | some o => pure (max o 0)
    | none => .ret .panic

def seek (topic : String) (partition : Int) (offset : Offset) : ConsumerL π Unit := do
  let target ← seekTarget c topic partition offset
  updateState i (·.setPosition (topic, partition) target)

def commitElem (gid : String) (elem : TopicPartitionElem) : ConsumerL π Unit :=
  match elem.offset with
  | .offset o => onBroker (LockedBroker.commitOffset gid elem.topic elem.partition o)
  | _ => pure ()

def commit (tpl : TopicPartitionList) : ConsumerL π Unit :=
  match c.groupId with
  | some gid => do
    let _ ← forEach (commitElem gid) tpl.elements
    pure ()
  | none => pure ()

def commitMessage (msg : StoredMessage) : ConsumerL π Unit :=
  commit c (TopicPartitionList.new.addPartitionOffset msg.topic msg.partition (.offset (msg.offset + 1)))

/-- The state is not locked while the broker is asked for the offsets. -/
def committed : ConsumerL π TopicPartitionList := do
  let assigned ← readState i (·.assignedPartitions)
  match c.groupId with
  | some gid => do
    let elements ← forEach (fun elem : TopicPartitionElem => do
      let offset ← onBroker (LockedBroker.committedOffset gid elem.topic elem.partition)
      pure (⟨elem.topic, elem.partition, .offset (offset.getD (-1))⟩ : TopicPartitionElem)) assigned.elements
    pure ⟨elements⟩
  | none => pure .new

def storeOffset (topic : String) (partition offset : Int) : ConsumerL π Unit :=
  updateState i (·.setPosition (topic, partition) offset)

def pause (partitions : TopicPartitionList) : ConsumerL π Unit := updateState i (·.pause partitions)

def resume (partitions : TopicPartitionList) : ConsumerL π Unit := updateState i (·.resume partitions)

def metadata (topic : Option String) : ConsumerL π Metadata := onBroker (LockedBroker.metadata topic)

def watermarks (topic : String) (partition : Int) : ConsumerL π (Int × Int) :=
  onBroker (LockedBroker.watermarks topic partition)

end LockedConsumer

namespace LockedWorld

variable {π : Type}

def reply {Λ σ ε α : Type} (x : LockAct Λ σ ε α) (f : α → Reply) : LockAct Λ σ ε Reply := x >>= fun a => pure (f a)

/-- An operation of consumer `i`. -/
def request (i : Nat) (c : BaseConsumer) : Request → LockedConsumer.ConsumerL π Reply
  | .pollOnce => reply (LockedConsumer.pollOnce i c) .message
  | .subscribe order topics => reply (LockedConsumer.subscribe i c order topics) fun _ => .unit
  | .unsubscribe order => reply (LockedConsumer.unsubscribe i c order) fun _ => .unit
  | .assignment => reply (LockedConsumer.assignment i) .partitions
  | .assign partitions => reply (LockedConsumer.assign i partitions) fun _ => .unit
  | .seek topic partition offset => reply (LockedConsumer.seek i c topic partition offset) fun _ => .unit
  | .commit tpl => reply (LockedConsumer.commit c tpl) fun _ => .unit
  | .commitMessage msg => reply (LockedConsumer.commitMessage c msg) fun _ => .unit
  | .storeOffset topic partition offset =>
    reply (LockedConsumer.storeOffset i topic partition offset) fun _ => .unit
  | .committed => reply (LockedConsumer.committed i c) .partitions
  | .positions => reply (LockedConsumer.positions i) .partitions
  | .pause partitions => reply (LockedConsumer.pause i partitions) fun _ => .unit
  | .resume partitions => reply (LockedConsumer.resume i partitions) fun _ => .unit
  | .metadata topic => reply (LockedConsumer.metadata topic) .metadata
  | .watermarks topic partition => reply (LockedConsumer.watermarks topic partition) .watermarks

/-- The operations with their locks. -/
def body [Partitioner π] (ids : Nat → BaseConsumer) : Op → LockAct Lock (World π) RmqError Reply
  | .send call =>
    (reply (LockedBroker.produce call.topic call.partition call.content call.headers call.timestamp call.clock)
      .record).zoom World.brokerLens
  | .consumer i r => (request i (ids i) r).zoom (World.sessionLens i)
  | .shutdown => (reply LockedBroker.shutdownBroker fun _ => .unit).zoom World.brokerLens

end LockedWorld

end RMemQueue
