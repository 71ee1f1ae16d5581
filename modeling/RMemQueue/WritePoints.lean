import RMemQueue.BrokerCalls
import RMemQueue.Lib.Points

/-!
# Where a call writes topics and logs (`broker.rs`, `broker_backend.rs`)

The places in `ensure_topic`, `produce` and `join_group`, which are the operations that create topics or append: one for
each critical section up to the last that writes.  `writePoints` computes the place of a call from what its critical
sections find; the operations that never write have one place only.
-/

namespace RMemQueue

open Conc

namespace InMemoryBackend

/-- Neither the topic map nor a log changes. -/
structure Still (b b' : InMemoryBackend) : Prop where
  topics : b'.topics = b.topics
  log : b'.log = b.log
  later : b.Later b'

theorem Still.refl (b : InMemoryBackend) : b.Still b := ⟨rfl, rfl, .refl b⟩

theorem Still.trans {b₁ b₂ b₃ : InMemoryBackend} (h₁ : b₁.Still b₂) (h₂ : b₂.Still b₃) : b₁.Still b₃ :=
  ⟨h₂.topics.trans h₁.topics, h₂.log.trans h₁.log, h₁.later.trans h₂.later⟩

theorem always_still_shutdownBackend : shutdownBackend.Always Still :=
  Act.always_modify fun b => ⟨rfl, log_setShutdown b, later_setShutdown b⟩

end InMemoryBackend

variable {π : Type}

namespace Broker

/-- Neither the topics nor the logs of the broker change. -/
def Still (b b' : Broker π) : Prop := b.backend.Still b'.backend

theorem Still.refl (b : Broker π) : b.Still b := InMemoryBackend.Still.refl _

theorem Still.trans {b₁ b₂ b₃ : Broker π} (h₁ : b₁.Still b₂) (h₂ : b₂.Still b₃) : b₁.Still b₃ :=
  InMemoryBackend.Still.trans h₁ h₂

theorem always_still_onGroup {α : Type} (groupId : String) (f : ConsumerGroup → RmqResult α × ConsumerGroup) :
    (onGroup groupId f : BrokerM π α).Always Still := by
  refine Act.always_step fun b => ?_
  split <;> exact .refl _

/-- `join_group` after the topics have been ensured. -/
def register (order : HashOrder) (groupId memberId : String) (topics : List String) (config : BrokerConfig) :
    BrokerM π TopicPartitionList := do
  .modify fun b =>
    if (b.consumerGroups.lookup groupId).isSome then b
    else { b with consumerGroups := b.consumerGroups.insert groupId (.new groupId) }
  let _ ← getPartitionNotifies topics
  let metadata ← onBackend (InMemoryBackend.metadata config.brokerId none)
  onGroup groupId fun g => g.join order memberId topics (countsOf topics metadata)

theorem always_still_register (order : HashOrder) (groupId memberId : String) (topics : List String)
    (config : BrokerConfig) : (register order groupId memberId topics config : BrokerM π _).Always Still := by
  refine (Act.always_modify fun b => ?_).bind fun _ => ?_
  · split <;> exact .refl _
  refine ((readOnly_getPartitionNotifies topics).always Still.refl).bind fun _ => ?_
  refine Act.Always.bind ?_ fun m => always_still_onGroup groupId _
  exact Act.Always.zoom (InMemoryBackend.readOnly_metadata _ _) fun b s h => by rw [h]; exact .refl b

end Broker

/-- The critical sections of `ensure_topic`. -/
inductive EnsurePoint where
  | check
  | lookUp
  | insert

namespace EnsurePoint

/-- `ensure_topic` from a critical section on. -/
def code (topic : String) (numPartitions : Int) : EnsurePoint → BackendM Unit
  | check => InMemoryBackend.ensureTopic topic numPartitions
  | lookUp => do
    let known ← .read fun b => .ok (b.topics.lookup topic).isSome
    if known then pure ()
    else .modify fun b => b.insertTopic topic numPartitions
  | insert => .modify fun b => b.insertTopic topic numPartitions

/-- The critical section after the next one, unless that is the last. -/
def next (topic : String) (b : InMemoryBackend) : EnsurePoint → Option EnsurePoint
  | check => some lookUp
  | lookUp => if (b.topics.lookup topic).isSome then none else some insert
  | insert => none

/-- The next critical section of `ensure_topic` inside a call. -/
theorem rest_code {α : Type} (topic : String) (n : Int) (e : EnsurePoint) (b : Broker π)
    (g : Unit → BrokerM π α) (h : (((Broker.onBackend (e.code topic n)) >>= g).rest b).Goes) :
    (Broker.onBackend (e.code topic n) >>= g).rest b =
      (e.next topic b.backend).elim (g ()) fun e' => Broker.onBackend (e'.code topic n) >>= g := by
  cases e with
  | check =>
    obtain ⟨-, -, hrest⟩ := Act.Goes.zoom_read_bind h
    exact hrest
  | lookUp =>
    obtain ⟨known, hknown, hrest⟩ := Act.Goes.zoom_read_bind h
    obtain rfl := Outcome.ok.inj hknown
    refine hrest.trans ?_
    show (if (b.backend.topics.lookup topic).isSome then _ else _ : BackendM Unit).zoom _ >>= g = _
    rw [EnsurePoint.next]
    split <;> rfl
  | insert => rfl

end EnsurePoint

/-- What is left of a call of `metadata`, which only reads. -/
structure Describing where
  f : InMemoryBackend → InMemoryBackend
  k : InMemoryBackend → BackendM Metadata
  readOnly : (Act.atomic f k).ReadOnly

def Describing.call (x : Describing) : BackendM Metadata := .atomic x.f x.k

/-- The critical sections of `produce`. -/
inductive ProducePoint where
  | start
  | config
  | ensure (config : BrokerConfig) (e : EnsurePoint)
  | metadata (config : BrokerConfig) (x : Describing)
  | choose (numP : Int)
  | check (p : Int)
  | getTopic (p : Int)
  | append (a : TopicRef) (p : Int)

namespace ProducePoint

variable [Partitioner π] (c : ProduceCall)

/-- `InMemoryBackend::produce` and what follows it. -/
def finish (x : BackendM (Int × Int × Int)) : BrokerM π RecordMetadata := do
  let (partitionId, offset, ts) ← Broker.onBackend x
  pure ⟨c.topic, partitionId, offset, ts⟩

/-- The backend's `produce` from the lookup of the topic on. -/
def appendAt (p ts : Int) (x : BackendM TopicRef) : BackendM (Int × Int × Int) := do
  let t ← x
  let (partitionId, offset) ← InMemoryBackend.produceAt t p c.content c.headers (some ts) c.clock
  pure (partitionId, offset, ts)

/-- `produce` from the choice of the partition on. -/
def choosing (partition : BrokerM π Int) : BrokerM π RecordMetadata := do
  let p ← partition
  finish c (InMemoryBackend.produce c.topic p c.content c.headers c.timestamp c.clock)

/-- The number of partitions of the topic. -/
def numPartitions (config : BrokerConfig) (metadata : Metadata) : Int :=
  match metadata.topics.head? with
  | some t => t.partitions.length
  | none => config.defaultNumPartitions

def describing (config : BrokerConfig) (x : BackendM Metadata) : BrokerM π RecordMetadata := do
  let metadata ← Broker.onBackend x
  choosing c (Broker.recordPartition c.partition c.topic c.content.partitionKey (numPartitions config metadata))

/-- `produce` from a critical section on. -/
def code : ProducePoint → BrokerM π RecordMetadata
  | start => c.body
  | config => do
    let cfg ← Broker.getConfig
    Broker.ensureTopic c.topic cfg.defaultNumPartitions
    describing c cfg (InMemoryBackend.metadata cfg.brokerId (some c.topic))
  | ensure cfg e => do
    Broker.onBackend (e.code c.topic cfg.defaultNumPartitions)
    describing c cfg (InMemoryBackend.metadata cfg.brokerId (some c.topic))
  | metadata cfg x => describing c cfg x.call
  | choose numP => choosing c (Broker.choosePartition c.topic c.content.partitionKey numP)
  | check p => finish c (InMemoryBackend.produce c.topic p c.content c.headers c.timestamp c.clock)
  | getTopic p => finish c (appendAt c p (c.timestamp.getD c.clock.wall) (InMemoryBackend.getTopic c.topic))
  | append a p => finish c (appendAt c p (c.timestamp.getD c.clock.wall) (pure a))

/-- The critical section after the metadata has been read. -/
def chosen (numP : Int) : ProducePoint :=
  match c.partition with
  | some p => check p
  | none => choose numP

/-- The critical sections of `metadata` begin. -/
def describe (cfg : BrokerConfig) : ProducePoint :=
  metadata cfg ⟨_, _, InMemoryBackend.readOnly_metadata cfg.brokerId (some c.topic)⟩

/-- The critical section after the next one, if that is not the last. -/
def next (b : Broker π) : ProducePoint → ProducePoint
  | start => config
  | config => ensure b.config .check
  | ensure cfg e => (e.next c.topic b.backend).elim (describe c cfg) (ensure cfg)
  | metadata cfg x =>
    match h : x.k b.backend with
    | .ret (.ok m) => chosen c (numPartitions cfg m)
    | .atomic f k => metadata cfg ⟨f, k, h ▸ (x.readOnly b.backend).2⟩
    | _ => metadata cfg x
  | choose numP =>
    match (Partitioner.partition b.partitioner c.topic c.content.partitionKey numP).1 with
    | some p => check p
    | none => choose numP
  | check p => getTopic p
  | getTopic p =>
    match b.backend.topics.lookup c.topic with
    | some a => append a p
    | none => getTopic p
  | append a p => append a p

/-- The append is the last critical section. -/
private theorem not_goes_append (b : Broker π) (a : TopicRef) (p : Int) :
    ¬(((append a p).code c : BrokerM π RecordMetadata).rest b).Goes := by
  exact Act.not_goes_zoom_step (fun _ => ⟨_, rfl⟩) fun _ => ⟨_, rfl⟩

theorem code_next (b : Broker π) (p : ProducePoint) (h : ((p.code c).rest b).Goes) :
    (p.next c b).code c = (p.code c).rest b := by
  cases p with
  | start =>
    obtain ⟨-, -, hrest⟩ := Act.Goes.read_bind h
    exact hrest.symm
  | config => rfl
  | ensure cfg e =>
    have hcode := EnsurePoint.rest_code c.topic cfg.defaultNumPartitions e b
      (fun _ => describing c cfg (InMemoryBackend.metadata cfg.brokerId (some c.topic))) h
    refine Eq.trans ?_ hcode.symm
    rw [next]
    cases e.next c.topic b.backend <;> rfl
  | metadata cfg x =>
    have hrest : ((metadata cfg x).code c).rest b = (Broker.onBackend (x.k b.backend) : BrokerM π _) >>= fun m =>
        choosing c (Broker.recordPartition c.partition c.topic c.content.partitionKey (numPartitions cfg m)) := rfl
    rw [hrest] at h ⊢
    rw [next]
    split
    · rename_i m hm
      rw [hm, chosen]
      cases c.partition <;> rfl
    · rename_i f k hk
      show describing c cfg (Act.atomic f k) = _
      rw [← hk]
      rfl
    · rename_i hret hatomic
      rcases hk : x.k b.backend with (m | e | _) | ⟨f, k⟩
      · exact absurd hk (hret m)
      · rw [hk] at h
        obtain ⟨f, k, h⟩ := h
        cases h
      · rw [hk] at h
        obtain ⟨f, k, h⟩ := h
        cases h
      · exact absurd hk (hatomic f k)
  | choose numP =>
    obtain ⟨p, hp, hrest⟩ := Act.Goes.step_bind h
    refine Eq.trans ?_ hrest.symm
    rw [next]
    revert hp
    dsimp only
    cases (Partitioner.partition b.partitioner c.topic c.content.partitionKey numP).1 with
    | some p' =>
      intro hp
      obtain rfl := Outcome.ok.inj hp
      rfl
    | none =>
      intro hp
      cases hp
  | check p =>
    obtain ⟨-, -, hrest⟩ := Act.Goes.zoom_read_bind h
    exact hrest.symm
  | getTopic p =>
    obtain ⟨a, ha, hrest⟩ := Act.Goes.zoom_read_bind h
    refine Eq.trans ?_ hrest.symm
    rw [next]
    revert ha
    dsimp only [Broker.backendLens]
    cases b.backend.topics.lookup c.topic with
    | some a' =>
      intro ha
      obtain rfl := Outcome.ok.inj ha
      rfl
    | none =>
      intro ha
      cases ha
  | append a p => exact absurd h (not_goes_append c b a p)

theorem goes_code (p : ProducePoint) : (p.code c : BrokerM π RecordMetadata).Goes := by
  cases p with
  | ensure cfg e => cases e <;> exact ⟨_, _, rfl⟩
  | _ => exact ⟨_, _, rfl⟩

end ProducePoint

/-! ### All operations -/

/-- The operations that create topics or append. -/
def BrokerCall.Writes : BrokerCall → Prop
  | ensureTopic _ _ => True
  | produce _ => True
  | joinGroup _ _ _ _ => True
  | _ => False

theorem BrokerCall.always_still_body [Partitioner π] (call : BrokerCall) (h : ¬call.Writes) :
    (call.body : BrokerM π BrokerReply).Always Broker.Still := by
  have hreadOnly : ∀ {α : Type} {x : BrokerM π α}, x.ReadOnly → x.Always Broker.Still :=
    fun hx => hx.always Broker.Still.refl
  have hread : ∀ {α : Type} (g : Broker π → Outcome RmqError α), (Act.read g).Always Broker.Still :=
    fun g => hreadOnly (Act.readOnly_read g)
  cases call with
  | ensureTopic => exact absurd trivial h
  | produce => exact absurd trivial h
  | joinGroup => exact absurd trivial h
  | fetchOne topic partition position groupId =>
    exact (hreadOnly (Broker.readOnly_fetchOneFromPosition topic partition position groupId)).bind fun _ => trivial
  | watermarks topic partition => exact (hreadOnly (Broker.readOnly_watermarks topic partition)).bind fun _ => trivial
  | metadata topic => exact (hreadOnly (Broker.readOnly_metadata topic)).bind fun _ => trivial
  | getPartitionNotifies topics =>
    exact (hreadOnly (Broker.readOnly_getPartitionNotifies topics)).bind fun _ => trivial
  | leaveGroup order groupId memberId =>
    refine Act.Always.bind ?_ fun _ => trivial
    refine (hread _).bind fun _ => (hread _).bind fun _ => (hread _).bind fun config => ?_
    refine Act.Always.bind ?_ fun m => Broker.always_still_onGroup groupId _
    exact Act.Always.zoom (InMemoryBackend.readOnly_metadata _ _) fun b s h => by rw [h]; exact .refl b
  | commitOffset groupId topic partition offset =>
    refine Act.Always.bind ?_ fun _ => trivial
    exact (hread _).bind fun _ => (hread _).bind fun _ => Act.always_modify fun b => .refl _
  | committedOffset groupId topic partition =>
    exact (hreadOnly (Broker.readOnly_committedOffset groupId topic partition)).bind fun _ => trivial
  | shutdown =>
    refine Act.Always.bind ?_ fun _ => trivial
    refine (Act.always_modify fun b => .refl _).bind fun _ => ?_
    exact Act.Always.zoom InMemoryBackend.always_still_shutdownBackend fun _ _ h => h

/-- The critical sections of `join_group` up to the last topic. -/
inductive JoinPoint where
  | start
  | config
  | ensure (config : BrokerConfig) (topic : String) (later : List String) (e : EnsurePoint)

/-- What is left of a call that writes neither topics nor logs any more. -/
structure Silent (π : Type) where
  f : Broker π → Broker π
  k : Broker π → BrokerM π BrokerReply
  always : (Act.atomic f k).Always Broker.Still

/-- A place in an operation of the broker. -/
inductive WritePoint (π : Type) where
  | ensureTopic (topic : String) (numPartitions : Int) (e : EnsurePoint)
  | produce (c : ProduceCall) (p : ProducePoint)
  | join (order : HashOrder) (groupId memberId : String) (topics : List String) (p : JoinPoint)
  | silent (x : Silent π)

namespace WritePoint

/-- `join_group` from the next topic on. -/
def joining (order : HashOrder) (groupId memberId : String) (topics : List String) (cfg : BrokerConfig)
    (later : List String) : BrokerM π BrokerReply := do
  let _ ← .forEach (fun topic => Broker.ensureTopic topic cfg.defaultNumPartitions) later
  answer (Broker.register order groupId memberId topics cfg) .partitions

variable [Partitioner π]

/-- What is left of the call. -/
def code : WritePoint π → BrokerM π BrokerReply
  | ensureTopic topic n e => answer (Broker.onBackend (e.code topic n)) fun _ => .unit
  | produce c p => answer (p.code c) .record
  | join order groupId memberId topics .start => (BrokerCall.joinGroup order groupId memberId topics).body
  | join order groupId memberId topics .config => do
    let cfg ← Broker.getConfig
    joining order groupId memberId topics cfg topics
  | join order groupId memberId topics (.ensure cfg topic later e) => do
    Broker.onBackend (e.code topic cfg.defaultNumPartitions)
    joining order groupId memberId topics cfg later
  | silent x => .atomic x.f x.k

def start : BrokerCall → WritePoint π
  | .ensureTopic topic n => ensureTopic topic n .check
  | .produce c => produce c .start
  | .joinGroup order groupId memberId topics => join order groupId memberId topics .start
  | .fetchOne topic partition position groupId =>
    silent ⟨_, _, BrokerCall.always_still_body (.fetchOne topic partition position groupId) id⟩
  | .watermarks topic partition => silent ⟨_, _, BrokerCall.always_still_body (.watermarks topic partition) id⟩
  | .metadata topic => silent ⟨_, _, BrokerCall.always_still_body (.metadata topic) id⟩
  | .getPartitionNotifies topics =>
    silent ⟨_, _, BrokerCall.always_still_body (.getPartitionNotifies topics) id⟩
  | .leaveGroup order groupId memberId =>
    silent ⟨_, _, BrokerCall.always_still_body (.leaveGroup order groupId memberId) id⟩
  | .commitOffset groupId topic partition offset =>
    silent ⟨_, _, BrokerCall.always_still_body (.commitOffset groupId topic partition offset) id⟩
  | .committedOffset groupId topic partition =>
    silent ⟨_, _, BrokerCall.always_still_body (.committedOffset groupId topic partition) id⟩
  | .shutdown => silent ⟨_, _, BrokerCall.always_still_body .shutdown id⟩

omit [Partitioner π] in
theorem always_still_registered (order : HashOrder) (groupId memberId : String) (topics : List String)
    (cfg : BrokerConfig) :
    (answer (Broker.register order groupId memberId topics cfg) .partitions : BrokerM π _).Always Broker.Still :=
  (Broker.always_still_register order groupId memberId topics cfg).bind fun _ => trivial

/-- The place where a topic of a subscription comes next. -/
def joinFrom (order : HashOrder) (groupId memberId : String) (topics : List String) (cfg : BrokerConfig) :
    List String → WritePoint π
  | [] => silent ⟨_, _, always_still_registered order groupId memberId topics cfg⟩
  | topic :: later => join order groupId memberId topics (.ensure cfg topic later .check)

/-- The place after the next critical section, if that is not the last. -/
def next (p : WritePoint π) (b : Broker π) : WritePoint π :=
  match p with
  | ensureTopic topic n e => (e.next topic b.backend).elim (ensureTopic topic n e) (ensureTopic topic n)
  | produce c p => produce c (p.next c b)
  | join order groupId memberId topics .start => join order groupId memberId topics .config
  | join order groupId memberId topics .config => joinFrom order groupId memberId topics b.config topics
  | join order groupId memberId topics (.ensure cfg topic later e) =>
    (e.next topic b.backend).elim (joinFrom order groupId memberId topics cfg later) fun e' =>
      join order groupId memberId topics (.ensure cfg topic later e')
  | silent x =>
    match h : x.k b with
    | .atomic f k => silent ⟨f, k, h ▸ (x.always b).2⟩
    | .ret _ => silent x

private theorem code_joinFrom (order : HashOrder) (groupId memberId : String) (topics : List String)
    (cfg : BrokerConfig) (later : List String) :
    (joinFrom order groupId memberId topics cfg later : WritePoint π).code =
      joining order groupId memberId topics cfg later := by
  cases later with
  | nil => rfl
  | cons topic later =>
    rw [joining, Act.forEach_cons_bind]
    rfl

theorem body_joinGroup (order : HashOrder) (groupId memberId : String) (topics : List String) :
    ((BrokerCall.joinGroup order groupId memberId topics).body : BrokerM π BrokerReply) =
      Broker.checkShutdown >>= fun _ => (join order groupId memberId topics .config).code := by
  simp only [BrokerCall.body, code, joining, answer, Broker.joinGroup, Broker.register, Act.bind_assoc]

theorem code_next (p : WritePoint π) (b : Broker π) (h : (p.code.rest b).Goes) : (p.next b).code = p.code.rest b := by
  cases p with
  | ensureTopic topic n e =>
    have hcode : (ensureTopic topic n e : WritePoint π).code.rest b = _ :=
      EnsurePoint.rest_code topic n e b (fun _ => pure BrokerReply.unit) h
    rw [hcode] at h ⊢
    rw [next]
    cases hn : e.next topic b.backend with
    | none =>
      -- the last critical section
      rw [hn] at h
      obtain ⟨f, k, h⟩ := h
      cases h
    | some e' => rfl
  | produce c p =>
    have hgoes := p.goes_code (π := π) c
    have hrest : (produce c p : WritePoint π).code.rest b = answer ((p.code c).rest b) .record := hgoes.rest_bind _ b
    rw [hrest] at h ⊢
    exact congrArg (answer · .record) (p.code_next c b h.of_bind_pure)
  | join order groupId memberId topics p =>
    cases p with
    | start =>
      have hstart : (join order groupId memberId topics .start : WritePoint π).code =
          Broker.checkShutdown >>= fun _ => (join order groupId memberId topics .config).code :=
        body_joinGroup order groupId memberId topics
      rw [hstart] at h ⊢
      obtain ⟨-, -, hrest⟩ := Act.Goes.read_bind h
      exact hrest.symm
    | config => exact code_joinFrom order groupId memberId topics b.config topics
    | ensure cfg topic later e =>
      have hcode := EnsurePoint.rest_code topic cfg.defaultNumPartitions e b
        (fun _ => joining order groupId memberId topics cfg later) h
      refine Eq.trans ?_ hcode.symm
      rw [next]
      cases e.next topic b.backend with
      | none => exact code_joinFrom order groupId memberId topics cfg later
      | some e' => rfl
  | silent x =>
    rw [next]
    split
    · rename_i f k hk
      exact hk.symm
    · rename_i o ho
      obtain ⟨f, k, hk⟩ := h
      have hk' : x.k b = .atomic f k := hk
      rw [ho] at hk'
      cases hk'

end WritePoint

/-- The places of the operations of a broker. -/
def writePoints [Partitioner π] : Points (BrokerCall.body : BrokerCall → BrokerM π BrokerReply) (WritePoint π) where
  code := WritePoint.code
  start := WritePoint.start
  advance := WritePoint.next
  code_start call := by cases call <;> rfl
  code_advance := WritePoint.code_next

end RMemQueue
