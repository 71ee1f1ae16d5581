import RMemQueue.BrokerRun
import RMemQueue.LogContract

/-!
# A produce call executed alone (`broker.rs`)

What `produce` and `produce_typed` do to a broker that nobody else uses: the topic is created when it does not exist,
its number of partitions is read, the partition is chosen, and the message is appended.

* `failed_produce`: a call that fails appends nothing; it leaves a topic behind when it has created it.
* `produce_usable`: when a record without an explicit partition is stored.
-/

namespace RMemQueue

open Conc

namespace Broker

variable {π : Type} [Partitioner π] {b : Broker π}

/-- The topic that a produce call works on, after its creation if need be. -/
def topicFor (b : Broker π) (topic : String) : Topic :=
  (b.backend.topic? topic).getD (.new topic b.config.defaultNumPartitions b.backend.makePartitionConfig)

/-- The backend after `ensure_topic`. -/
def ensured (b : Broker π) (topic : String) : InMemoryBackend :=
  b.backend.insertTopic topic b.config.defaultNumPartitions

/-- The partition of a record, and the partitioner afterwards. -/
def choice (b : Broker π) (c : ProduceCall) : Option Int × π :=
  match c.partition with
  | some p => (some p, b.partitioner)
  | none => Partitioner.partition b.partitioner c.topic c.content.partitionKey (b.topicFor c.topic).partitionCount

omit [Partitioner π] in
theorem topic?_ensured (b : Broker π) (topic name : String) :
    (b.ensured topic).topic? name = if name = topic then some (b.topicFor topic) else b.backend.topic? name := by
  rw [ensured, InMemoryBackend.topic?_insertTopic, topicFor]
  by_cases hn : name = topic
  · subst hn
    cases b.backend.topic? name <;> simp
  · simp [hn]

omit [Partitioner π] in
theorem topic?_ensured_self (b : Broker π) (topic : String) :
    (b.ensured topic).topic? topic = some (b.topicFor topic) := by
  rw [topic?_ensured, if_pos rfl]

omit [Partitioner π] in
theorem shutdown_ensured (b : Broker π) (topic : String) : (b.ensured topic).shutdown = b.backend.shutdown := by
  unfold ensured InMemoryBackend.insertTopic
  split <;> rfl

/-- What the call computes on a running broker. -/
theorem run_produce (h : b.Running) (c : ProduceCall) :
    c.body.run b =
      if (b.topicFor c.topic).partitionCount < 0 then (.panic, { b with backend := b.ensured c.topic })
      else match b.choice c with
        | (none, partitioner) => (.panic, { b with backend := b.ensured c.topic, partitioner })
        | (some p, partitioner) =>
          let r := (InMemoryBackend.produce c.topic p c.content c.headers c.timestamp c.clock).run (b.ensured c.topic)
          (r.1.map fun r => ⟨c.topic, r.1, r.2.1, r.2.2⟩, { b with backend := r.2, partitioner }) := by
  have hs : (b.ensured c.topic).shutdown = false := (shutdown_ensured b c.topic).trans h.backend
  have ht := topic?_ensured_self b c.topic
  rw [ProduceCall.body, produce, Act.run_bind, run_checkShutdown h, Outcome.andThen_ok, Act.run_bind, getConfig,
    Act.run_read, Outcome.andThen_ok, Act.run_bind, ensureTopic, run_onBackend,
    InMemoryBackend.run_ensureTopic h.backend, Outcome.andThen_ok, Act.run_bind, run_onBackend]
  rw [show b.backend.insertTopic c.topic b.config.defaultNumPartitions = b.ensured c.topic from rfl,
    InMemoryBackend.run_metadata_some hs, ht, Option.elim_some]
  -- `metadata` casts the count to a capacity, which panics when it is negative
  cases hm : (b.topicFor c.topic).metadata? with
  | none =>
    have hneg : (b.topicFor c.topic).partitionCount < 0 := by
      by_contra hn
      rw [Topic.metadata?, if_neg hn] at hm
      cases hm
    rw [if_pos hneg]
    rfl
  | some m =>
    obtain ⟨hnn, -, hids⟩ := Topic.metadata?_eq_some hm
    have hlen : (m.partitions.length : Int) = (b.topicFor c.topic).partitionCount := by
      have := congrArg List.length hids
      simp only [List.length_map, List.length_range] at this
      omega
    rw [if_neg (by omega)]
    simp only [Option.elim_some, Outcome.andThen_ok, List.head?_cons, hlen]
    rw [Act.run_bind]
    cases hp : c.partition with
    | some p =>
      -- a record with a partition does not ask the partitioner
      simp only [recordPartition, choice, hp, Act.run_pure, Outcome.andThen_ok]
      rw [Act.run_bind, run_onBackend]
      dsimp only
      cases ((InMemoryBackend.produce c.topic p c.content c.headers c.timestamp c.clock).run (b.ensured c.topic)).1 <;>
        rfl
    | none =>
      simp only [recordPartition, choosePartition, choice, hp, Act.run_step]
      rcases Partitioner.partition b.partitioner c.topic c.content.partitionKey
        (b.topicFor c.topic).partitionCount with ⟨_ | p, q⟩
      · rfl
      · simp only [Outcome.andThen_ok]
        rw [Act.run_bind, run_onBackend]
        dsimp only
        cases ((InMemoryBackend.produce c.topic p c.content c.headers c.timestamp c.clock).run (b.ensured c.topic)).1 <;>
          rfl

end Broker

namespace Broker

variable {π : Type} [Partitioner π] {b : Broker π}

/-- How a call on a running broker ends: it panics, as no partition takes the record; it fails at a partition that does
not exist, and may have created its topic; or it appends the record to the chosen partition. -/
inductive Ends (b : Broker π) (c : ProduceCall) : Outcome RmqError RecordMetadata × Broker π → Prop
  | panicked {b' : Broker π} (hr : b'.Running)
    (hno : ∀ p q, (b.choice c).1 = some p → (b.topicFor c.topic).partition? p = some q → i64Max ≤ (q.abs.next : Int)) :
    Ends b c (.panic, b')
  | failed {p : Int} {partitioner : π} (hchoice : (b.choice c).1 = some p)
    (hp : (b.topicFor c.topic).partition? p = none) :
    Ends b c (.err (.partitionOutOfRange c.topic p), { b with backend := b.ensured c.topic, partitioner })
  | stored {p : Int} {q : Partition} {backend : InMemoryBackend} {partitioner : π} (hchoice : (b.choice c).1 = some p)
    (hq : (b.topicFor c.topic).partition? p = some q) (hroom : (q.abs.next : Int) < i64Max)
    (hs : backend.shutdown = false) (hcount : backend.count? c.topic = some (b.topicFor c.topic).partitionCount) :
    Ends b c (.ok ⟨c.topic, p, q.abs.next, c.timestamp.getD c.clock.wall⟩, { b with backend, partitioner })

theorem ends_run (h : b.Running) (c : ProduceCall) : b.Ends c (c.body.run b) := by
  have hs : (b.ensured c.topic).shutdown = false := (shutdown_ensured b c.topic).trans h.backend
  have ht := topic?_ensured_self b c.topic
  have hpart : ∀ id, (b.ensured c.topic).partition? c.topic id = (b.topicFor c.topic).partition? id := by
    intro id
    rw [InMemoryBackend.partition?, ht]
    rfl
  rw [run_produce h]
  split
  -- a negative number of partitions
  · refine .panicked ⟨h.broker, hs⟩ fun p q _ hq => ?_
    obtain ⟨h0, hlt⟩ := ((b.topicFor c.topic).isSome_partition? p).1 (by rw [hq]; rfl)
    omega
  · split
    -- the partitioner panics
    · rename_i hchoice
      refine .panicked ⟨h.broker, hs⟩ fun p q hp _ => ?_
      rw [hchoice] at hp
      cases hp
    · rename_i p partitioner hchoice
      have hp : (b.choice c).1 = some p := congrArg Prod.fst hchoice
      dsimp only
      rcases InMemoryBackend.run_produce_cases hs c.topic p c.content c.headers c.timestamp c.clock with
        ⟨q, r, q', b'', hq, hqa, ho, hl, hsame, -⟩ | ⟨hnone, ho⟩ | ⟨q, hq, hqa, ho⟩
      · obtain ⟨rfl, -, -, -⟩ := Partition.appendContent_eq_some hqa
        have hroom : (q.abs.next : Int) < i64Max := by
          by_contra hfull
          rw [Partition.appendContent_eq_none.2 (by omega)] at hqa
          cases hqa
        have hcount : (b.ensured c.topic).count? c.topic = some (b.topicFor c.topic).partitionCount := by
          rw [InMemoryBackend.count?, ht, Option.map_some]
        rw [ho, (InMemoryBackend.named_of_partition? hq).2]
        exact .stored hp (hpart p ▸ hq) hroom (hsame.trans hs) (hl.count? hcount)
      · rw [ho, InMemoryBackend.missing, ht]
        exact .failed hp (hpart p ▸ hnone)
      · rw [ho]
        refine .panicked ⟨h.broker, hs⟩ fun p' q' hp' hq' => ?_
        obtain rfl : p = p' := Option.some.inj (hp.symm.trans hp')
        obtain rfl : q = q' := Option.some.inj (hq.symm.trans (hpart p ▸ hq'))
        rw [Partition.appendContent_eq_none] at hqa
        omega

/-- A call that fails changes nothing, or has only created its topic and fails at the partition. -/
private theorem run_produce_err (h : b.Running) {c : ProduceCall} {e : RmqError} {b' : Broker π}
    (hrun : c.body.run b = (.err e, b')) :
    b'.backend = b.ensured c.topic ∧ ∃ p, (b.choice c).1 = some p ∧ e = .partitionOutOfRange c.topic p := by
  have hends := ends_run h c
  rw [hrun] at hends
  cases hends with
  | failed hchoice => exact ⟨rfl, _, hchoice, rfl⟩

/-- A call on a broker that has been shut down. -/
private theorem run_produce_of_not_running (h : ¬b.Running) (c : ProduceCall) :
    c.body.run b = (.err .brokerShutdown, b) := by
  rw [ProduceCall.body, produce, Act.run_bind]
  cases hb : b.shutdown with
  | true => simp [checkShutdown, hb]
  | false =>
    have hbe : b.backend.shutdown = true := by
      by_contra hbe
      exact h ⟨hb, by simpa using hbe⟩
    simp only [checkShutdown, Act.run_read, hb, Bool.false_eq_true, ↓reduceIte, Outcome.andThen_ok]
    rw [Act.run_bind, getConfig, Act.run_read, Outcome.andThen_ok, Act.run_bind, ensureTopic, run_onBackend,
      InMemoryBackend.ensureTopic, InMemoryBackend.run_checked_of_shutdown hbe]
    rfl

theorem later_run (b : Broker π) (c : ProduceCall) : b.Later (c.body.run b).2 :=
  Act.Always.run (updates_later.always_produce _ _ _ _ _ _) Later.refl (fun _ _ _ => Later.trans) b

theorem running_run (h : b.Running) (c : ProduceCall) : (c.body.run b).2.Running := by
  have hends := ends_run h c
  generalize c.body.run b = r at hends
  cases hends with
  | panicked hr => exact hr
  | failed => exact ⟨h.broker, (shutdown_ensured b c.topic).trans h.backend⟩
  | stored _ _ _ hs => exact ⟨h.broker, hs⟩

/-- A produce call does not commit. -/
private theorem committed?_run (b : Broker π) (c : ProduceCall) : (c.body.run b).2.committed? = b.committed? := by
  have hbackend : ∀ {α : Type} (x : BackendM α),
      (onBackend x : BrokerM π α).Always fun b b' => b'.committed? = b.committed? :=
    fun x => Act.always_part_zoom x fun _ _ => rfl
  have hread : ∀ {α : Type} (g : Broker π → Outcome RmqError α),
      (Act.read g : BrokerM π α).Always fun b b' => b'.committed? = b.committed? :=
    fun g => Act.always_read (R := fun b b' => b'.committed? = b.committed?) (fun _ => rfl) g
  have hbody : (c.body : BrokerM π RecordMetadata).Always fun b b' => b'.committed? = b.committed? := by
    refine (hread _).bind fun _ => (hread _).bind fun config => ?_
    refine (hbackend _).bind fun _ => (hbackend _).bind fun metadata => ?_
    refine Act.Always.bind ?_ fun p => (hbackend _).bind fun _ => trivial
    cases c.partition with
    | some p => trivial
    | none => exact Act.always_step fun _ => rfl
  exact hbody.run (fun _ => rfl) (fun _ _ _ h₁ h₂ => h₂.trans h₁) b

/-- The broker after calls that are executed one after the other. -/
def produced (b : Broker π) (calls : List ProduceCall) : Broker π := calls.foldl (fun b c => (c.body.run b).2) b

theorem later_produced (b : Broker π) (calls : List ProduceCall) : b.Later (b.produced calls) := by
  induction calls generalizing b with
  | nil => exact .refl b
  | cons c calls ih => exact (later_run b c).trans (ih (c.body.run b).2)

theorem committed?_produced (b : Broker π) (calls : List ProduceCall) : (b.produced calls).committed? = b.committed? := by
  induction calls generalizing b with
  | nil => rfl
  | cons c calls ih => exact (ih (c.body.run b).2).trans (committed?_run b c)

theorem running_produced (h : b.Running) (calls : List ProduceCall) : (b.produced calls).Running := by
  induction calls generalizing b with
  | nil => exact h
  | cons c calls ih => exact ih (running_run h c)

end Broker

open Broker

/-- A produce call that returns an error leaves every log as it is, and every topic; only when the topic of the call did
not exist may the call have created it, without a message, and then the error is that it has no such partition. -/
theorem failed_produce {π : Type} [Partitioner π] {b b' : Broker π} {c : ProduceCall} {e : RmqError}
    (h : c.body.run b = (.err e, b')) :
    b'.backend.log = b.backend.log ∧
      ∀ name, b'.backend.topic? name = b.backend.topic? name ∨
        name = c.topic ∧ b.backend.topic? name = none ∧
          b'.backend.topic? name = some (.new name b.config.defaultNumPartitions b.backend.makePartitionConfig) ∧
          ∃ p, e = .partitionOutOfRange name p := by
  by_cases hr : b.Running
  · obtain ⟨hb', p, -, he⟩ := run_produce_err hr h
    rw [hb']
    refine ⟨InMemoryBackend.log_insertTopic _ _ _, fun name => ?_⟩
    rw [topic?_ensured]
    by_cases hn : name = c.topic
    · subst hn
      -- the topic of the call, which `ensure_topic` may have created
      rw [if_pos rfl, topicFor]
      cases ht : b.backend.topic? c.topic with
      | none => exact Or.inr ⟨rfl, rfl, rfl, p, he⟩
      | some t => exact Or.inl rfl
    · exact Or.inl (if_neg hn)
  · rw [run_produce_of_not_running hr] at h
    obtain ⟨-, rfl⟩ := Prod.mk.inj h
    exact ⟨rfl, fun _ => Or.inl rfl⟩

/-- A record for the partition `5` of the topic `t`. -/
def toPartitionFive : ProduceCall := ⟨"t", some 5, .raw none none, none, none, ⟨7, 0, fun _ => 0⟩⟩

theorem failed_produce_log : ∃ b : Broker RoundRobinPartitioner,
    Broker.new (RmqClientConfig.new.set ConfigKeys.brokerId "b") = .ok b ∧
    ((toPartitionFive.body.run b).2.backend.log = b.backend.log) := by
  exact ⟨_, rfl, (failed_produce (e := .partitionOutOfRange "t" 5) (c := toPartitionFive) rfl).1⟩

/-- The call fails, and the topic exists afterwards. -/
theorem failed_produce_creates : ∃ b : Broker RoundRobinPartitioner,
    Broker.new (RmqClientConfig.new.set ConfigKeys.brokerId "b") = .ok b ∧
    (toPartitionFive.body.run b).1 = .err (.partitionOutOfRange "t" 5) ∧ b.backend.topics.keys = [] ∧
    (toPartitionFive.body.run b).2.backend.topics.keys = ["t"] := by
  exact ⟨_, rfl, by decide +kernel, by decide +kernel, by decide +kernel⟩

/-! ### Records without an explicit partition -/

namespace Broker

variable {π : Type} [Partitioner π] {b : Broker π}

/-- The call returns a partition that the topic has. -/
def Stores (b : Broker π) (c : ProduceCall) : Prop :=
  ∃ r b', c.body.run b = (.ok r, b') ∧ ∃ n, b'.backend.count? c.topic = some n ∧ 0 ≤ r.partition ∧ r.partition < n

/-- A call on a running broker stores its record if and only if its partition exists and has an offset left. -/
theorem stores_iff (h : b.Running) (c : ProduceCall) :
    b.Stores c ↔ ∃ p q, (b.choice c).1 = some p ∧ (b.topicFor c.topic).partition? p = some q ∧
      (q.abs.next : Int) < i64Max := by
  have hends := ends_run h c
  unfold Stores
  generalize c.body.run b = r at hends
  cases hends with
  | panicked _ hno =>
    refine iff_of_false ?_ ?_
    · rintro ⟨r, b', hrun, -⟩
      cases hrun
    · rintro ⟨p, q, hchoice, hq, hroom⟩
      have := hno p q hchoice hq
      omega
  | failed hchoice hp =>
    refine iff_of_false ?_ ?_
    · rintro ⟨r, b', hrun, -⟩
      cases hrun
    · rintro ⟨p', q, hchoice', hq, -⟩
      obtain rfl := Option.some.inj (hchoice.symm.trans hchoice')
      rw [hp] at hq
      cases hq
  | stored hchoice hq hroom _ hcount =>
    obtain ⟨h0, hlt⟩ := ((b.topicFor c.topic).isSome_partition? _).1 (by rw [hq]; rfl)
    exact iff_of_true ⟨_, _, rfl, _, hcount, h0, hlt⟩ ⟨_, _, hchoice, hq, hroom⟩

theorem choice_roundRobin (b : Broker RoundRobinPartitioner) {c : ProduceCall} (hc : c.partition = none) :
    (b.choice c).1 = (b.partitioner.partition (b.topicFor c.topic).partitionCount).1 := by
  rw [choice, hc]
  rfl

/-- The condition for a record without an explicit partition under round robin. -/
private theorem stores_roundRobin_iff {b : Broker RoundRobinPartitioner} (h : b.Running) {c : ProduceCall}
    (hc : c.partition = none) {n : Int} (hn : n = (b.topicFor c.topic).partitionCount) :
    b.Stores c ↔ 1 ≤ n ∧ b.partitioner.counter.tmod n + n ≤ i32Max ∧
      ∀ q, (b.topicFor c.topic).partition? ((b.partitioner.counter.tmod n + n).tmod n) = some q →
        (q.abs.next : Int) < i64Max := by
  rw [stores_iff h, choice_roundRobin b hc, ← hn]
  by_cases h1 : 1 ≤ n
  -- the sum of the remainder and `n` is positive, so that the partition is in range
  · have hlow := Int.lt_tmod_of_pos b.partitioner.counter (by omega : 0 < n)
    have hsome : ((b.topicFor c.topic).partition? ((b.partitioner.counter.tmod n + n).tmod n)).isSome := by
      rw [Topic.isSome_partition?, ← hn]
      exact ⟨Int.tmod_nonneg _ (by omega), Int.tmod_lt_of_pos _ (by omega)⟩
    simp only [RoundRobinPartitioner.partition_eq_some h1, h1, true_and]
    constructor
    · rintro ⟨p, q, ⟨rfl, hle⟩, hq, hroom⟩
      refine ⟨hle, fun q' hq' => ?_⟩
      obtain rfl := Option.some.inj (hq.symm.trans hq')
      exact hroom
    · rintro ⟨hle, hroom⟩
      obtain ⟨q, hq⟩ := Option.isSome_iff_exists.1 hsome
      exact ⟨_, q, ⟨rfl, hle⟩, hq, hroom q hq⟩
  -- without partitions the partitioner returns `0`, which does not exist
  · refine iff_of_false ?_ fun hcond => h1 hcond.1
    rintro ⟨p, q, hp, hq, -⟩
    rw [RoundRobinPartitioner.partition, if_pos (by omega)] at hp
    obtain rfl := Option.some.inj hp
    have := ((b.topicFor c.topic).isSome_partition? 0).1 (by rw [hq]; rfl)
    omega

end Broker

/-- The broker that is built from an accepted configuration stores a record without an explicit partition if and only if
the default number of partitions is at least `1`.  Whatever the state of a running broker is, it stores such a record if
and only if the topic has, or will have, a partition, the round robin stays within an `i32` and the partition that it
chooses has an offset left. -/
theorem produce_usable {config : RmqClientConfig} {b₀ : Broker RoundRobinPartitioner}
    (h : Broker.new config = .ok b₀) {c : ProduceCall} (hc : c.partition = none) :
    (b₀.Stores c ↔ 1 ≤ b₀.config.defaultNumPartitions) ∧
      ∀ b : Broker RoundRobinPartitioner, b.Running → ∀ n, n = (b.topicFor c.topic).partitionCount →
        (b.Stores c ↔ 1 ≤ n ∧ b.partitioner.counter.tmod n + n ≤ i32Max ∧
          ∀ q, (b.topicFor c.topic).partition? ((b.partitioner.counter.tmod n + n).tmod n) = some q →
            (q.abs.next : Int) < i64Max) := by
  refine ⟨?_, fun b hb n hn => stores_roundRobin_iff hb hc hn⟩
  have hmax := BrokerConfig.defaultNumPartitions_le (Broker.config_of_new h)
  obtain ⟨hrun, hcounter, htopic⟩ : b₀.Running ∧ b₀.partitioner.counter = 0 ∧ b₀.topicFor c.topic =
      .new c.topic b₀.config.defaultNumPartitions b₀.backend.makePartitionConfig := by
    obtain ⟨c, -, rfl⟩ := Broker.withPartitioner_eq_ok.1 h
    exact ⟨⟨rfl, rfl⟩, rfl, rfl⟩
  rw [stores_roundRobin_iff hrun hc (n := b₀.config.defaultNumPartitions) (by rw [htopic]; rfl), hcounter]
  refine ⟨fun hcond => hcond.1, fun h1 => ⟨h1, ?_, fun q hq => ?_⟩⟩
  · rw [Int.zero_tmod]
    simp only [IntType.i32, i32Max] at hmax ⊢
    omega
  · rw [htopic, Topic.partition?_new] at hq
    split at hq
    · obtain rfl := Option.some.inj hq
      rw [Partition.abs_new]
      decide
    · cases hq

/-- A record for the topic `t` without an explicit partition. -/
def toAnyPartition : ProduceCall := ⟨"t", none, .raw none none, none, none, ⟨7, 0, fun _ => 0⟩⟩

theorem produce_usable_default : ∃ b : Broker RoundRobinPartitioner,
    Broker.new (RmqClientConfig.new.set ConfigKeys.brokerId "b") = .ok b ∧ b.Stores toAnyPartition :=
  ⟨_, rfl, (produce_usable (c := toAnyPartition) (show Broker.new (RmqClientConfig.new.set ConfigKeys.brokerId "b") = _
    from rfl) rfl).1.2 (by decide +kernel)⟩

/-- A client configuration with a default number of partitions. -/
def configOf (numPartitions : String) : RmqClientConfig :=
  (RmqClientConfig.new.set ConfigKeys.brokerId "b").set ConfigKeys.numPartitions numPartitions

/-- The configurations `0` and `-1` are accepted; a record fails in the one case and panics in the other. -/
theorem produce_unusable :
    (∃ b : Broker RoundRobinPartitioner, Broker.new (configOf "0") = .ok b ∧ b.Running ∧
      (toAnyPartition.body.run b).1 = .err (.partitionOutOfRange "t" 0)) ∧
    ∃ b : Broker RoundRobinPartitioner, Broker.new (configOf "-1") = .ok b ∧ b.Running ∧
      (toAnyPartition.body.run b).1 = .panic :=
  ⟨⟨_, rfl, ⟨rfl, rfl⟩, by decide +kernel⟩, ⟨_, rfl, ⟨rfl, rfl⟩, by decide +kernel⟩⟩

end RMemQueue
