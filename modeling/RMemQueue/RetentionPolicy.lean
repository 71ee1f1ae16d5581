import RMemQueue.BrokerRun
import RMemQueue.Retention

/-!
# The retention policy (`config.rs`, `broker_backend.rs`)

The way of the retention settings from the client configuration to the passes of a partition.  Every limit that is set
reaches the partition (`makePartitionConfig_limits`), and nothing reads `retention.policy`.

* `policy_honoured_iff`: an unbounded partition removes only what the policy allows if and only if no limit that the
  policy does not name can ever apply.
-/

namespace RMemQueue

open Conc

namespace RmqClientConfig

/-- The number that a key is set to. -/
def number? (config : RmqClientConfig) (ty : IntType) (key : String) : Option Nat :=
  (config.get key).bind fun s => (ty.parse s).toOption.map Int.toNat

/-- The limits that the settings ask for. -/
def limits (config : RmqClientConfig) : PartitionConfig where
  maxCapacity := (config.number? .usize ConfigKeys.bufferCapacity).getD 10000
  retentionMs := config.number? .u64 ConfigKeys.retentionMs
  retentionCapacity := config.number? .usize ConfigKeys.retentionCapacity

/-- The policy that the settings ask for. -/
def policy (config : RmqClientConfig) : String := (config.get ConfigKeys.retentionPolicy).getD "none"

end RmqClientConfig

private theorem number?_eq {config : RmqClientConfig} {ty : IntType} {key : String} {n : Option Int}
    (h : BrokerConfig.number config ty key = .ok n) : config.number? ty key = n.map Int.toNat := by
  unfold BrokerConfig.number at h
  rw [RmqClientConfig.number?]
  split at h
  · rename_i hget
    cases h
    rw [hget]
    rfl
  · rename_i s hget
    split at h
    · rename_i m hparse
      cases h
      rw [hget, Option.bind_some, hparse]
      rfl
    · cases h

/-- A broker gives its partitions all the limits that are set, whatever the policy. -/
theorem makePartitionConfig_limits {config : RmqClientConfig} {c : BrokerConfig}
    (h : BrokerConfig.fromConfig config = .ok c) :
    (InMemoryBackend.new c).makePartitionConfig = config.limits := by
  obtain ⟨_, _, bufferCapacity, _, _, _, -, -, hbuffer, hcapacity, hms, -, rfl⟩ := BrokerConfig.fromConfig_cases h
  simp only [InMemoryBackend.makePartitionConfig, InMemoryBackend.new, RmqClientConfig.limits, number?_eq hbuffer,
    number?_eq hcapacity, number?_eq hms]
  cases bufferCapacity <;> rfl

/-! ### What a policy allows -/

/-- The time limit never applies: there is none, or it is the largest `u64`. -/
def PartitionConfig.Untimed (c : PartitionConfig) : Prop := ∀ r, c.retentionMs = some r → u64Max ≤ r

/-- The capacity limit never applies: there is none, or there are no more offsets than it allows. -/
def PartitionConfig.Uncounted (c : PartitionConfig) : Prop := ∀ k, c.retentionCapacity = some k → i64Max ≤ k

namespace RmqClientConfig

/-- At a reading of the clock, the policy allows the `n`-th of `total` messages to be removed. -/
structure Allows (config : RmqClientConfig) (now n total : Nat) (m : StoredMessage) : Prop where
  none : config.policy ≠ "none"
  capacity : config.policy = "capacity" → config.limits.Exceeded n total
  time : config.policy = "time" → config.limits.Expired now m

/-- After any appends to the partition, a further one removes only messages that the policy allows to be removed, each
at the reading of its round of the pass. -/
def HonouredBy (config : RmqClientConfig) (p : Partition) : Prop :=
  ∀ calls q call q' n m, p.appendAll calls = some q → q.appendCall call = some q' →
    q.abs.dropped ≤ n → n < q'.abs.dropped → q'.appended[n]? = some m →
      config.Allows (call.clock.evict (n - q.abs.dropped)) n q'.appended.length m

/-- A limit that the policy does not name never applies, or never decides. -/
structure LimitsAgree (config : RmqClientConfig) : Prop where
  none : config.policy = "none" → config.limits.Untimed ∧ config.limits.Uncounted
  capacity : config.policy = "capacity" → config.limits.Untimed ∨ config.limits.retentionCapacity = some 0
  time : config.policy = "time" → config.limits.Uncounted

end RmqClientConfig

namespace Partition

variable {config : PartitionConfig} {topic : String} {id : Int} {calls : List AppendCall} {call : AppendCall}
  {q q' : Partition} {n : Nat} {m : StoredMessage}

private theorem exists_appendAll (topic : String) (id : Int) (config : PartitionConfig) (calls : List AppendCall)
    (h : (calls.length : Int) ≤ i64Max) : ∃ q, (new topic id config).appendAll calls = some q := by
  cases hq : (new topic id config).appendAll calls with
  | none => exact absurd (appendAll_eq_none hq) (not_lt.2 h)
  | some q => exact ⟨q, rfl⟩

/-- The pass of an append to an unbounded partition begins at the front of the log. -/
private theorem pass_of_appendCall (hconfig : config.maxCapacity = 0)
    (hq : (new topic id config).appendAll calls = some q) (hcall : q.appendCall call = some q') :
    Given config topic id (calls ++ [call]) q' ∧ q'.Pass (PartitionOp.append call).clock q.abs.dropped := by
  have hgiven := given_appendAll calls q hq
  refine ⟨hgiven.appendCall hcall, ?_⟩
  obtain ⟨d, -, hd, hpass⟩ := pass_applyOp (show q.applyOp (.append call) = some q' from hcall)
  exact hd (hgiven.maxCapacity.trans hconfig) ▸ hpass

/-- What an append to an unbounded partition removes, it removes by a limit that applies. -/
private theorem cause_of_appendCall (hconfig : config.maxCapacity = 0)
    (hq : (new topic id config).appendAll calls = some q) (hcall : q.appendCall call = some q')
    (hd : q.abs.dropped ≤ n) (hn : n < q'.abs.dropped) (hm : q'.appended[n]? = some m) :
    (¬config.Untimed ∧ config.Expired (call.clock.evict (n - q.abs.dropped)) m) ∨
      (¬config.Uncounted ∧ config.Exceeded n q'.appended.length) := by
  obtain ⟨hgiven, hpass⟩ := pass_of_appendCall hconfig hq hcall
  have hev := hpass.removed n m hd hn hm
  rw [hgiven.policies] at hev
  rcases evicts_buildPolicies.1 hev with ⟨r, hr, hlt⟩ | ⟨k, hk, hlt⟩
  -- an age that fits into a `u64` is at most the largest one
  · refine Or.inl ⟨fun hu => ?_, r, hr, lt_of_lt_of_le hlt (Nat.mod_le _ _)⟩
    have hage := Nat.mod_lt ((call.clock.evict (n - q.abs.dropped) - m.createdAt) / 1000000) (Nat.succ_pos u64Max)
    exact absurd (lt_of_lt_of_le hlt (Nat.le_of_lt_succ hage)) (not_lt.2 (hu r hr))
  -- there are no more messages than offsets
  · refine Or.inr ⟨fun hu => ?_, k, hk, by omega⟩
    have hmax := hu k hk
    have := q'.next_le_i64Max
    simp only [Partition.abs, TrimmedLog.next] at this
    omega

end Partition

namespace RmqClientConfig

open RMemQueue.Partition

variable {config : RmqClientConfig}

theorem LimitsAgree.honoured (h : config.LimitsAgree) (h0 : config.limits.maxCapacity = 0) (topic : String) (id : Int) :
    config.HonouredBy (.new topic id config.limits) := by
  intro calls q call q' n m hq hcall hd hn hm
  have hcause := cause_of_appendCall h0 hq hcall hd hn hm
  refine ⟨fun hp => ?_, fun hp => ?_, fun hp => ?_⟩
  · obtain ⟨htime, hcount⟩ := h.none hp
    exact hcause.elim (fun hc => hc.1 htime) fun hc => hc.1 hcount
  · rcases h.capacity hp with htime | hk
    · exact (hcause.resolve_left fun hc => hc.1 htime).2
    · exact ⟨0, hk, (List.getElem?_eq_some_iff.1 hm).1⟩
  · exact (hcause.resolve_right fun hc => hc.1 (h.time hp)).2

/-- An append of a message that is too old by the end of its pass. -/
private def tooOld (retentionMs : Nat) : AppendCall :=
  ⟨.raw none none, none, none, ⟨0, 0, fun _ => (retentionMs + 1) * 1000000⟩⟩

/-- A time limit that can apply has the first message removed, whatever the policy. -/
private theorem allows_of_timed (h0 : config.limits.maxCapacity = 0) {topic : String} {id : Int}
    (h : config.HonouredBy (.new topic id config.limits)) (ht : ¬config.limits.Untimed) :
    ∃ now m, config.Allows now 0 1 m := by
  simp only [PartitionConfig.Untimed, not_forall, not_le] at ht
  obtain ⟨r, hr, hlt⟩ := ht
  obtain ⟨q', hq'⟩ := exists_appendAll topic id config.limits [tooOld r] (by simp [i64Max])
  have hcall : (Partition.new topic id config.limits).appendCall (tooOld r) = some q' := by
    rw [← List.nil_append [tooOld r], appendAll_concat] at hq'
    exact hq'
  have hnil : (Partition.new topic id config.limits).appendAll [] = some (.new topic id config.limits) := rfl
  obtain ⟨hgiven, hpass⟩ := pass_of_appendCall h0 hnil hcall
  have happ : q'.appended = [(tooOld r).message topic id 0] := hgiven.appended
  -- the message is too old when it is appended, so that the pass does not keep it
  have hpos : 0 < q'.abs.dropped := by
    by_contra hzero
    have hzero : q'.abs.dropped = 0 := by omega
    have hkept := hpass.kept _ (by rw [hzero, happ]; rfl)
    rw [hgiven.policies, Bool.eq_false_iff] at hkept
    refine hkept (evicts_buildPolicies.2 (Or.inl ⟨r, hr, ?_⟩))
    simp only [PartitionOp.clock, tooOld, AppendCall.message, Content.message_createdAt, Nat.sub_zero]
    rw [Nat.mul_div_cancel _ (by decide), Nat.mod_eq_of_lt (by omega)]
    exact Nat.lt_succ_self r
  have hallows := h [] _ _ q' 0 _ hnil hcall (le_refl 0) hpos (by rw [happ]; rfl)
  rw [happ] at hallows
  exact ⟨_, _, hallows⟩

/-- While the clock stands still, a policy that does not count removes nothing. -/
private theorem dropped_of_still {topic : String} {id : Int} (h : config.HonouredBy (.new topic id config.limits))
    (hp : config.policy = "none" ∨ config.policy = "time") (n : Nat) :
    ∀ q, (Partition.new topic id config.limits).appendAll (List.replicate n (appendAt 0)) = some q →
      q.abs.dropped = 0 := by
  induction n with
  | zero =>
    intro q hq
    cases hq
    rfl
  | succ n ih =>
    intro q' hq'
    rw [List.replicate_succ', appendAll_concat, Option.bind_eq_some_iff] at hq'
    obtain ⟨q, hq, hcall⟩ := hq'
    by_contra hpos
    have hle := q'.abs.dropped_le_next
    simp only [TrimmedLog.next] at hle
    obtain ⟨m, hm⟩ : ∃ m, q'.appended[0]? = some m :=
      ⟨_, List.getElem?_eq_getElem (lt_of_lt_of_le (Nat.pos_of_ne_zero hpos) hle)⟩
    -- the policy would have to allow the removal of a message that is not a moment old
    have hallows := h _ q _ q' 0 m hq hcall (by rw [ih q hq]) (Nat.pos_of_ne_zero hpos) hm
    rcases hp with hp | hp
    · exact hallows.none hp
    · obtain ⟨r, -, hlt⟩ := hallows.time hp
      simp [appendAt] at hlt

/-- A capacity limit that can apply removes messages of any age, whatever the policy. -/
private theorem uncounted_of_still (h0 : config.limits.maxCapacity = 0) {topic : String} {id : Int}
    (h : config.HonouredBy (.new topic id config.limits)) (hp : config.policy = "none" ∨ config.policy = "time") :
    config.limits.Uncounted := by
  intro k hk
  by_contra hlt
  obtain ⟨q', hq'⟩ := exists_appendAll topic id config.limits (List.replicate (k + 1) (appendAt 0))
    (by rw [List.length_replicate]; omega)
  have hdropped := dropped_of_still h hp (k + 1) q' hq'
  rw [List.replicate_succ', appendAll_concat, Option.bind_eq_some_iff] at hq'
  obtain ⟨q, hq, hcall⟩ := hq'
  obtain ⟨hgiven, hpass⟩ := pass_of_appendCall h0 hq hcall
  have hbound := hpass.bounded hgiven.policies hk
  have hlen := hgiven.length_appended
  rw [List.length_append, List.length_replicate, List.length_singleton] at hlen
  simp only [Partition.abs] at hdropped
  omega

theorem HonouredBy.limitsAgree (h0 : config.limits.maxCapacity = 0) {topic : String} {id : Int}
    (h : config.HonouredBy (.new topic id config.limits)) : config.LimitsAgree where
  none := by
    intro hp
    refine ⟨?_, uncounted_of_still h0 h (Or.inl hp)⟩
    by_contra ht
    obtain ⟨now, m, hallows⟩ := allows_of_timed h0 h ht
    exact hallows.none hp
  capacity := by
    intro hp
    by_contra hne
    rw [not_or] at hne
    obtain ⟨now, m, hallows⟩ := allows_of_timed h0 h hne.1
    obtain ⟨k, hk, hlt⟩ := hallows.capacity hp
    exact hne.2 (by rw [hk, show k = 0 by omega])
  time := fun hp => uncounted_of_still h0 h (Or.inr hp)

end RmqClientConfig

/-- The partitions of a topic that a new broker creates have the limits that are set. -/
private theorem partition_of_ensureTopic {π : Type} {config : RmqClientConfig} {partitioner : π} {b : Broker π}
    (hb : Broker.withPartitioner config partitioner = .ok b) {topic : String} {n id : Int} {p : Partition}
    (hp : ((Broker.ensureTopic topic n).run b).2.backend.partition? topic id = some p) :
    b.config.bufferCapacity = config.limits.maxCapacity ∧ p = .new topic id config.limits := by
  obtain ⟨c, hc, rfl⟩ := Broker.withPartitioner_eq_ok.1 hb
  refine ⟨congrArg PartitionConfig.maxCapacity (makePartitionConfig_limits hc), ?_⟩
  rw [Broker.ensureTopic, Broker.run_onBackend, InMemoryBackend.run_ensureTopic rfl] at hp
  simp only [InMemoryBackend.partition?] at hp
  rw [InMemoryBackend.topic?_insertTopic, if_pos ⟨rfl, rfl⟩, Option.bind_some, Topic.partition?_new,
    makePartitionConfig_limits hc] at hp
  split at hp
  · exact (Option.some.inj hp).symm
  · cases hp

/-- A partition of a broker with unbounded buffers removes only messages that `retention.policy` allows to be removed,
in any run of appends, if and only if no limit that the policy does not name can apply. -/
theorem policy_honoured_iff {π : Type} {config : RmqClientConfig} {partitioner : π} {b : Broker π}
    (hb : Broker.withPartitioner config partitioner = .ok b) (h0 : b.config.bufferCapacity = 0) {topic : String}
    {n id : Int} {p : Partition} (hp : ((Broker.ensureTopic topic n).run b).2.backend.partition? topic id = some p) :
    config.HonouredBy p ↔ config.LimitsAgree := by
  obtain ⟨hmax, rfl⟩ := partition_of_ensureTopic hb hp
  rw [hmax] at h0
  exact ⟨fun h => h.limitsAgree h0, fun h => h.honoured h0 topic id⟩

/-- The settings of a broker with unbounded buffers. -/
def unbounded : RmqClientConfig :=
  (RmqClientConfig.new.set ConfigKeys.brokerId "b").set ConfigKeys.bufferCapacity "0"

private theorem exists_partition {config : RmqClientConfig}
    (h : (BrokerConfig.fromConfig config).toOption.map (·.bufferCapacity) = some 0) :
    ∃ b : Broker RoundRobinPartitioner, Broker.withPartitioner config .new = .ok b ∧ b.config.bufferCapacity = 0 ∧
      ∃ p, ((Broker.ensureTopic "t" 1).run b).2.backend.partition? "t" 0 = some p := by
  cases hc : BrokerConfig.fromConfig config with
  | error e =>
    rw [hc] at h
    cases h
  | ok c =>
    rw [hc] at h
    refine ⟨⟨.new c, ∅, false, c, .new, ∅⟩, Broker.withPartitioner_eq_ok.2 ⟨c, hc, rfl⟩, Option.some.inj h,
      .new "t" 0 config.limits, ?_⟩
    rw [Broker.ensureTopic, Broker.run_onBackend, InMemoryBackend.run_ensureTopic rfl, InMemoryBackend.partition?,
      InMemoryBackend.topic?_insertTopic, if_pos ⟨rfl, rfl⟩, Option.bind_some, Topic.partition?_new,
      makePartitionConfig_limits hc]
    rfl

/-- The settings of a broker with unbounded buffers and a time limit of `5` milliseconds. -/
def timeLimited : RmqClientConfig :=
  (unbounded.set ConfigKeys.retentionPolicy "time").set ConfigKeys.retentionMs "5"

theorem policy_honoured_time : ∃ b : Broker RoundRobinPartitioner, Broker.withPartitioner timeLimited .new = .ok b ∧
    ∃ p, ((Broker.ensureTopic "t" 1).run b).2.backend.partition? "t" 0 = some p ∧ timeLimited.HonouredBy p := by
  have hcapacity : (BrokerConfig.fromConfig timeLimited).toOption.map (·.bufferCapacity) = some 0 := by decide +kernel
  obtain ⟨b, hb, h0, p, hp⟩ := exists_partition hcapacity
  have hpolicy : timeLimited.policy = "time" := by decide +kernel
  have hlimits : timeLimited.limits = ⟨0, some 5, none⟩ := by decide +kernel
  refine ⟨b, hb, p, hp, (policy_honoured_iff hb h0 hp).2 ⟨?_, ?_, ?_⟩⟩
  · rw [hpolicy]
    exact fun h => absurd h (by decide)
  · rw [hpolicy]
    exact fun h => absurd h (by decide)
  · rw [hlimits]
    intro _ k hk
    cases hk

/-- With `retention.capacity` set and no policy, the second append removes the first message. -/
theorem policy_ignored : ∃ b : Broker RoundRobinPartitioner,
    Broker.withPartitioner (unbounded.set ConfigKeys.retentionCapacity "1") .new = .ok b ∧
    b.config.bufferCapacity = 0 ∧ (unbounded.set ConfigKeys.retentionCapacity "1").get ConfigKeys.retentionPolicy = none ∧
    ∃ p, ((Broker.ensureTopic "t" 1).run b).2.backend.partition? "t" 0 = some p ∧
      (∃ q, p.appendAll [appendByte, appendByte] = some q ∧ q.appended.length = 2 ∧ q.buffer.log.length = 1) ∧
      ¬(unbounded.set ConfigKeys.retentionCapacity "1").HonouredBy p := by
  have hget : (unbounded.set ConfigKeys.retentionCapacity "1").get ConfigKeys.retentionPolicy = none := by
    decide +kernel
  have hlimits : (unbounded.set ConfigKeys.retentionCapacity "1").limits = ⟨0, none, some 1⟩ := by decide +kernel
  have hcapacity : (BrokerConfig.fromConfig (unbounded.set ConfigKeys.retentionCapacity "1")).toOption.map
      (·.bufferCapacity) = some 0 := by decide +kernel
  obtain ⟨b, hb, h0, p, hp⟩ := exists_partition hcapacity
  refine ⟨b, hb, h0, hget, p, hp, ?_, fun h => ?_⟩
  · rw [(partition_of_ensureTopic hb hp).2, hlimits]
    exact ⟨_, rfl, by decide +kernel, by decide +kernel⟩
  · obtain rfl := (partition_of_ensureTopic hb hp).2
    have hcounted := ((h.limitsAgree (by rw [hlimits])).none (by rw [RmqClientConfig.policy, hget]; rfl)).2
    rw [hlimits] at hcounted
    exact absurd (hcounted 1 rfl) (by decide)

end RMemQueue
