import RMemQueue.Config
import RMemQueue.Lib.WriteLog
import RMemQueue.Topic

/-!
# The in-memory backend (`broker_backend.rs`)

The topics live in a heap and are bound to their names in a map; an `Arc<Topic>` is the topic's address.  Each
operation is a sequence of the critical sections that the source makes of it: a lock that the source keeps through
several of them is released in between here, which only admits more interleavings.

`InMemoryBackend.Later` says what every step of every operation does to the backend; `run_*` says what an operation
computes alone.
-/

namespace RMemQueue

open Conc

/-- The address of a topic. -/
abbrev TopicRef := Nat

/-- A partition's `Arc<PartitionNotify>`: the address of its topic and its number. -/
abbrev NotifyRef := TopicRef × Nat

structure PartitionMetadata where
  id : Int
  oldestOffset : Int
  newestOffset : Int
  messageCount : Int
  deriving DecidableEq, Repr

structure TopicMetadata where
  name : String
  partitions : List PartitionMetadata
  error : Option RmqError
  deriving DecidableEq, Repr

structure Metadata where
  brokerId : String
  topics : List TopicMetadata
  deriving DecidableEq, Repr

/-- `InMemoryBackend`.  A topic is never removed, so every topic of the heap is bound to its name. -/
structure InMemoryBackend where
  topics : AList (fun _ : String => TopicRef)
  heap : List Topic
  shutdown : Bool
  config : BrokerConfig
  bound : ∀ (name : String) (a : TopicRef), topics.lookup name = some a → ∃ t, heap[a]? = some t ∧ t.name = name

abbrev BackendM := Act InMemoryBackend RmqError

namespace InMemoryBackend

def new (config : BrokerConfig) : InMemoryBackend where
  topics := ∅
  heap := []
  shutdown := false
  config := config
  bound := by simp

def makePartitionConfig (b : InMemoryBackend) : PartitionConfig where
  maxCapacity := b.config.bufferCapacity
  retentionMs := b.config.retentionMs
  retentionCapacity := b.config.retentionCapacity

/-- The backend with the topic at one address replaced by a later state of it. -/
def setTopic (b : InMemoryBackend) (a : TopicRef) (t t' : Topic) (h : b.heap[a]? = some t) (ht : t.Later t') :
    InMemoryBackend where
  topics := b.topics
  heap := b.heap.set a t'
  shutdown := b.shutdown
  config := b.config
  bound := by
    intro name a' ha
    obtain ⟨u, hu, hn⟩ := b.bound name a' ha
    by_cases haa : a = a'
    · subst haa
      obtain ⟨hlt, -⟩ := List.getElem?_eq_some_iff.1 h
      rw [h] at hu
      obtain rfl := Option.some.inj hu
      exact ⟨t', List.getElem?_set_self hlt, ht.name.trans hn⟩
    · exact ⟨u, by rw [List.getElem?_set_ne haa, hu], hn⟩

/-- A name can be bound to a new topic of this name at the end of the heap. -/
theorem bound_insert (b : InMemoryBackend) (topic : String) (numPartitions : Int) (name : String) (a : TopicRef)
    (h : (b.topics.insert topic b.heap.length).lookup name = some a) :
    ∃ t, (b.heap ++ [Topic.new topic numPartitions b.makePartitionConfig])[a]? = some t ∧ t.name = name := by
  rcases WriteLog.lookup_insert_cases h with ⟨rfl, rfl⟩ | ⟨-, ha⟩
  · exact ⟨_, List.getElem?_concat_length, rfl⟩
  · obtain ⟨u, hu, hname⟩ := b.bound name a ha
    obtain ⟨hlt, -⟩ := List.getElem?_eq_some_iff.1 hu
    rw [List.getElem?_append_left hlt]
    exact ⟨u, hu, hname⟩

/-- The write-locked part of `ensure_topic`: the name is looked up again. -/
def insertTopic (b : InMemoryBackend) (topic : String) (numPartitions : Int) : InMemoryBackend :=
  if (b.topics.lookup topic).isSome then b
  else { b with
    topics := b.topics.insert topic b.heap.length
    heap := b.heap ++ [Topic.new topic numPartitions b.makePartitionConfig]
    bound := b.bound_insert topic numPartitions }

/-- The write-locked part of `shutdown`. -/
def setShutdown (b : InMemoryBackend) : InMemoryBackend where
  topics := b.topics
  heap := b.heap.map Topic.notifyAll
  shutdown := true
  config := b.config
  bound := by
    intro name a ha
    obtain ⟨t, ht, hn⟩ := b.bound name a ha
    exact ⟨t.notifyAll, by rw [List.getElem?_map, ht]; rfl, hn⟩

/-! ### The operations -/

def checkShutdown : BackendM Unit :=
  .read fun b => if b.shutdown then .err .brokerShutdown else .ok ()

def getTopic (topic : String) : BackendM TopicRef :=
  .read fun b =>
    match b.topics.lookup topic with
    | some a => .ok a
    | none => .err (.topicNotFound topic)

/-- A read of the topic at an address.  An `Arc` keeps its topic, so the address is never dangling. -/
def readTopic {α : Type} (a : TopicRef) (g : Topic → Outcome RmqError α) : BackendM α :=
  .read fun b =>
    match b.heap[a]? with
    | some t => g t
    | none => .panic

/-- `Topic::produce` at an address: the append to the partition is one critical section. -/
def produceAt (a : TopicRef) (partition : Int) (content : Content) (headers : Option OwnedHeaders)
    (timestamp : Option Int) (clock : Clock) : BackendM (Int × Int) :=
  .step fun b =>
    match h : b.heap[a]? with
    | some t =>
      ((t.produce partition content headers timestamp clock).1,
        b.setTopic a t (t.produce partition content headers timestamp clock).2 h
          (t.later_produce partition content headers timestamp clock))
    | none => (.panic, b)

def ensureTopic (topic : String) (numPartitions : Int) : BackendM Unit := do
  checkShutdown
  let known ← .read fun b => .ok (b.topics.lookup topic).isSome
  if known then pure ()
  else .modify fun b => b.insertTopic topic numPartitions

/-- `produce` and `produce_typed`. -/
def produce (topic : String) (partition : Int) (content : Content) (headers : Option OwnedHeaders)
    (timestamp : Option Int) (clock : Clock) : BackendM (Int × Int × Int) := do
  checkShutdown
  let ts := timestamp.getD clock.wall
  let t ← getTopic topic
  let (partitionId, offset) ← produceAt t partition content headers (some ts) clock
  pure (partitionId, offset, ts)

/-- The result of a call that cannot panic. -/
def ofResult {α : Type} : RmqResult α → Outcome RmqError α
  | .ok a => .ok a
  | .error e => .err e

@[simp] theorem ofResult_eq_ok {α : Type} {r : RmqResult α} {a : α} : ofResult r = .ok a ↔ r = .ok a := by
  cases r <;> simp [ofResult]

@[simp] theorem ofResult_eq_err {α : Type} {r : RmqResult α} {e : RmqError} : ofResult r = .err e ↔ r = .error e := by
  cases r <;> simp [ofResult]

def fetch (topic : String) (partition offset : Int) (maxCount : Nat) : BackendM (List StoredMessage) := do
  checkShutdown
  let t ← getTopic topic
  readTopic t fun t => t.fetch partition offset maxCount

def fetchOne (topic : String) (partition offset : Int) : BackendM (Option StoredMessage) := do
  checkShutdown
  let t ← getTopic topic
  readTopic t fun t => ofResult (t.fetchOne partition offset)

def watermarks (topic : String) (partition : Int) : BackendM (Int × Int) := do
  checkShutdown
  let t ← getTopic topic
  readTopic t fun t => ofResult (t.watermarks partition)

def partitionMetadata (a : TopicRef) (i : Int) : BackendM PartitionMetadata := do
  let (oldest, newest) ← readTopic a fun t => .ok ((t.watermarks i).toOption.getD (0, -1))
  let count ← readTopic a fun t => .ok (((t.getPartition i).toOption.map Partition.messageCount).getD 0)
  pure ⟨i, oldest, newest, count⟩

/-- A negative number of partitions asks `Vec::with_capacity` for more than can be allocated. -/
def topicMetadata (a : TopicRef) : BackendM TopicMetadata := do
  let (name, numPartitions) ← readTopic a fun t => .ok (t.name, t.partitionCount)
  if numPartitions < 0 then .panicked
  else do
    let partitions ← .forEach (partitionMetadata a) ((List.range numPartitions.toNat).map Int.ofNat)
    pure ⟨name, partitions, none⟩

/-- The order in which the topics of a `HashMap` are listed is the one of the model's map. -/
def metadata (brokerId : String) (topic : Option String) : BackendM Metadata := do
  checkShutdown
  let found ← .read fun b =>
    match topic with
    | some name =>
      match b.topics.lookup name with
      | some a => .ok [a]
      | none => .err (.topicNotFound name)
    | none => .ok (b.topics.entries.map (·.2))
  let topics ← .forEach topicMetadata found
  pure ⟨brokerId, topics⟩

def getPartitionNotifies (topics : List String) : BackendM (List NotifyRef) :=
  .read fun b => .ok <| topics.flatMap fun name =>
    match b.topics.lookup name with
    | some a =>
      match b.heap[a]? with
      | some t => ((List.range t.partitionCount.toNat).filter fun i : Nat => (t.partition? i).isSome).map (a, ·)
      | none => []
    | none => []

def shutdownBackend : BackendM Unit := .modify setShutdown

/-! ### What is stored -/

/-- The topic bound to a name. -/
def topic? (b : InMemoryBackend) (topic : String) : Option Topic := (b.topics.lookup topic).bind (b.heap[·]?)

def partition? (b : InMemoryBackend) (topic : String) (id : Int) : Option Partition :=
  (b.topic? topic).bind (·.partition? id)

/-- The number of partitions of an existing topic. -/
def count? (b : InMemoryBackend) (topic : String) : Option Int := (b.topic? topic).map (·.partitionCount)

/-- The log of a partition; it is empty as long as there is no such partition. -/
def log (b : InMemoryBackend) (topic : String) (id : Int) : TrimmedLog StoredMessage :=
  ((b.partition? topic id).map Partition.abs).getD .empty

variable {b b' : InMemoryBackend}

theorem topic?_of_lookup {topic : String} {a : TopicRef} (h : b.topics.lookup topic = some a) :
    ∃ t, b.heap[a]? = some t ∧ b.topic? topic = some t ∧ t.name = topic := by
  obtain ⟨t, ht, hn⟩ := b.bound topic a h
  exact ⟨t, ht, by rw [topic?, h]; exact ht, hn⟩

theorem lookup_eq_none_iff {topic : String} : b.topics.lookup topic = none ↔ b.topic? topic = none := by
  cases h : b.topics.lookup topic with
  | none => simp [topic?, h]
  | some a =>
    obtain ⟨t, -, ht, -⟩ := topic?_of_lookup h
    simp [ht]

theorem isSome_partition?_iff (b : InMemoryBackend) (topic : String) (p : Int) :
    (b.partition? topic p).isSome ↔ ∃ n, b.count? topic = some n ∧ 0 ≤ p ∧ p < n := by
  unfold partition? count?
  cases b.topic? topic with
  | none => simp
  | some t => simp [Topic.isSome_partition?]

theorem name_of_topic? {topic : String} {t : Topic} (h : b.topic? topic = some t) : t.name = topic := by
  obtain ⟨a, ha, ht⟩ := Option.bind_eq_some_iff.1 h
  obtain ⟨u, hu, hn⟩ := b.bound topic a ha
  rw [ht] at hu
  obtain rfl := Option.some.inj hu
  exact hn

theorem named_of_partition? {topic : String} {id : Int} {p : Partition} (h : b.partition? topic id = some p) :
    p.topicName = topic ∧ p.partitionId = id := by
  obtain ⟨t, ht, hp⟩ := Option.bind_eq_some_iff.1 h
  obtain ⟨h₁, h₂⟩ := Topic.named_of_partition? hp
  exact ⟨h₁.trans (name_of_topic? ht), h₂⟩

theorem log_of_partition? {topic : String} {id : Int} {p : Partition} (h : b.partition? topic id = some p) :
    b.log topic id = p.abs := by
  rw [log, h]; rfl

/-- The `n`-th message of a log carries the offset `n` and the names of its partition. -/
theorem stamped {topic : String} {id : Int} {n : Nat} {m : StoredMessage}
    (h : (b.log topic id).history[n]? = some m) : m.offset = n ∧ m.topic = topic ∧ m.partition = id := by
  cases hp : b.partition? topic id with
  | none =>
    rw [log, hp] at h
    simp [TrimmedLog.empty] at h
  | some p =>
    obtain ⟨ht, hi⟩ := named_of_partition? hp
    rw [log_of_partition? hp] at h
    rw [← ht, ← hi]
    exact p.stamped h

@[simp] theorem topic?_new (config : BrokerConfig) (topic : String) : (new config).topic? topic = none := by
  simp [topic?, new]

theorem topic?_setTopic {a : TopicRef} {t t' : Topic} (h : b.heap[a]? = some t) (ht : t.Later t') {topic : String}
    (ha : b.topics.lookup topic = some a) (name : String) :
    (b.setTopic a t t' h ht).topic? name = if name = topic then some t' else b.topic? name := by
  obtain ⟨hlt, -⟩ := List.getElem?_eq_some_iff.1 h
  by_cases hn : name = topic
  · subst hn
    rw [if_pos rfl]
    simp only [topic?, setTopic, ha, Option.bind_some, List.getElem?_set_self hlt]
  · rw [if_neg hn]
    simp only [topic?, setTopic]
    cases hl : b.topics.lookup name with
    | none => rfl
    | some a' =>
      have hne : a ≠ a' := by
        rintro rfl
        obtain ⟨u, hu, hun⟩ := b.bound name a hl
        obtain ⟨v, hv, hvn⟩ := b.bound topic a ha
        rw [hu] at hv
        obtain rfl := Option.some.inj hv
        exact hn (hun.symm.trans hvn)
      simp only [Option.bind_some, List.getElem?_set_ne hne]

theorem setTopic_eq_self {a : TopicRef} {t t' : Topic} (h : b.heap[a]? = some t) (ht : t.Later t') (e : t' = t) :
    b.setTopic a t t' h ht = b := by
  subst e
  obtain ⟨hlt, rfl⟩ := List.getElem?_eq_some_iff.1 h
  have hset : b.heap.set a b.heap[a] = b.heap := List.set_getElem_self hlt
  cases b
  simp only [setTopic, hset]

theorem topic?_insertTopic (b : InMemoryBackend) (topic : String) (n : Int) (name : String) :
    (b.insertTopic topic n).topic? name =
      if b.topic? name = none ∧ name = topic then some (.new topic n b.makePartitionConfig) else b.topic? name := by
  unfold insertTopic
  split
  · rename_i h
    rw [if_neg]
    rintro ⟨hn, rfl⟩
    rw [lookup_eq_none_iff.2 hn] at h
    cases h
  · rename_i h
    have hnone : b.topics.lookup topic = none := by simpa using h
    by_cases hn : name = topic
    · subst hn
      rw [if_pos ⟨lookup_eq_none_iff.1 hnone, rfl⟩]
      simp only [topic?, AList.lookup_insert, Option.bind_some, List.getElem?_concat_length]
    · rw [if_neg fun h => hn h.2]
      simp only [topic?, AList.lookup_insert_ne hn]
      cases hl : b.topics.lookup name with
      | none => rfl
      | some a =>
        obtain ⟨t, ht, -⟩ := b.bound name a hl
        obtain ⟨hlt, -⟩ := List.getElem?_eq_some_iff.1 ht
        simp only [Option.bind_some, List.getElem?_append_left hlt]

theorem topic?_setShutdown (b : InMemoryBackend) (name : String) :
    b.setShutdown.topic? name = (b.topic? name).map Topic.notifyAll := by
  simp only [topic?, setShutdown, List.getElem?_map]
  cases b.topics.lookup name <;> rfl

@[simp] theorem log_insertTopic (b : InMemoryBackend) (topic : String) (n : Int) : (b.insertTopic topic n).log = b.log := by
  funext name id
  simp only [log, partition?, topic?_insertTopic]
  split
  · rename_i h
    rw [h.1]
    simp only [Option.bind_some, Topic.partition?_new]
    split <;> rfl
  · rfl

@[simp] theorem log_setShutdown (b : InMemoryBackend) : b.setShutdown.log = b.log := by
  funext name id
  simp only [log, partition?, topic?_setShutdown]
  cases b.topic? name with
  | none => rfl
  | some t =>
    simp only [Option.map_some, Option.bind_some, Topic.partition?_notifyAll]
    cases t.partition? id <;> rfl

/-! ### What a step does -/

/-- `b'` is a later state of the backend `b`. -/
structure Later (b b' : InMemoryBackend) : Prop where
  topics : ∀ name a, b.topics.lookup name = some a → b'.topics.lookup name = some a
  heap : ∀ (a : TopicRef) (t : Topic), b.heap[a]? = some t → ∃ t', b'.heap[a]? = some t' ∧ t.Later t'
  shutdown : b.shutdown = true → b'.shutdown = true
  config : b'.config = b.config

theorem Later.refl (b : InMemoryBackend) : b.Later b := ⟨fun _ _ h => h, fun _ t h => ⟨t, h, .refl t⟩, id, rfl⟩

theorem Later.trans {b₁ b₂ b₃ : InMemoryBackend} (h₁ : b₁.Later b₂) (h₂ : b₂.Later b₃) : b₁.Later b₃ := by
  refine ⟨fun n a h => h₂.topics n a (h₁.topics n a h), fun a t ht => ?_, h₂.shutdown ∘ h₁.shutdown,
    h₂.config.trans h₁.config⟩
  obtain ⟨t', ht', hl⟩ := h₁.heap a t ht
  obtain ⟨t'', ht'', hl'⟩ := h₂.heap a t' ht'
  exact ⟨t'', ht'', hl.trans hl'⟩

theorem Later.topic? (h : b.Later b') {topic : String} {t : Topic} (ht : b.topic? topic = some t) :
    ∃ t', b'.topic? topic = some t' ∧ t.Later t' := by
  obtain ⟨a, ha, hat⟩ := Option.bind_eq_some_iff.1 ht
  obtain ⟨t', ht', hl⟩ := h.heap a t hat
  exact ⟨t', by rw [InMemoryBackend.topic?, h.topics topic a ha]; exact ht', hl⟩

theorem Later.count? (h : b.Later b') {topic : String} {n : Int} (hn : b.count? topic = some n) :
    b'.count? topic = some n := by
  obtain ⟨t, ht, rfl⟩ := Option.map_eq_some_iff.1 hn
  obtain ⟨t', ht', hl⟩ := h.topic? ht
  rw [InMemoryBackend.count?, ht', Option.map_some, hl.partitionCount]

theorem Later.partition? (h : b.Later b') {topic : String} {id : Int} {p : Partition}
    (hp : b.partition? topic id = some p) : ∃ p', b'.partition? topic id = some p' ∧ p.Later p' := by
  obtain ⟨t, ht, htp⟩ := Option.bind_eq_some_iff.1 hp
  obtain ⟨t', ht', hl⟩ := h.topic? ht
  obtain ⟨p', hp', hpl⟩ := hl.partition? id p htp
  exact ⟨p', by rw [InMemoryBackend.partition?, ht']; exact hp', hpl⟩

theorem Later.log (h : b.Later b') (topic : String) (id : Int) : b.log topic id ≤ b'.log topic id := by
  cases hp : b.partition? topic id with
  | none =>
    rw [InMemoryBackend.log, hp]
    exact TrimmedLog.empty_le _
  | some p =>
    obtain ⟨p', hp', hl⟩ := h.partition? hp
    rw [log_of_partition? hp, log_of_partition? hp']
    exact hl.abs

theorem later_setTopic {a : TopicRef} {t t' : Topic} (h : b.heap[a]? = some t) (ht : t.Later t') :
    b.Later (b.setTopic a t t' h ht) := by
  refine ⟨fun _ _ h => h, fun a' u hu => ?_, id, rfl⟩
  by_cases haa : a = a'
  · subst haa
    obtain ⟨hlt, -⟩ := List.getElem?_eq_some_iff.1 h
    rw [h] at hu
    obtain rfl := Option.some.inj hu
    exact ⟨t', List.getElem?_set_self hlt, ht⟩
  · exact ⟨u, by rw [setTopic, List.getElem?_set_ne haa, hu], .refl u⟩

theorem later_insertTopic (b : InMemoryBackend) (topic : String) (n : Int) : b.Later (b.insertTopic topic n) := by
  unfold insertTopic
  split
  · exact .refl b
  · rename_i h
    have hnone : b.topics.lookup topic = none := by simpa using h
    refine ⟨fun name a ha => ?_, fun a t ht => ⟨t, ?_, .refl t⟩, id, rfl⟩
    · have hn : name ≠ topic := by
        rintro rfl
        rw [hnone] at ha
        cases ha
      rw [AList.lookup_insert_ne hn, ha]
    · obtain ⟨hlt, -⟩ := List.getElem?_eq_some_iff.1 ht
      rw [List.getElem?_append_left hlt, ht]

theorem later_setShutdown (b : InMemoryBackend) : b.Later b.setShutdown := by
  refine ⟨fun _ _ h => h, fun a t ht => ⟨t.notifyAll, ?_, t.later_notifyAll⟩, fun _ => rfl, rfl⟩
  rw [setShutdown, List.getElem?_map, ht]
  rfl

end InMemoryBackend

end RMemQueue
