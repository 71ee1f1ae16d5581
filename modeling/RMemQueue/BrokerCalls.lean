import RMemQueue.BrokerRun
import RMemQueue.LogContract

/-!
# Any operations on one broker

Threads that call any operation of one broker, their atomic steps interleaved in any way.  `CallTies` relates the
broker to the calls that have ended: a record that was stored is in the log of its partition for ever, or has been
evicted; and the records of a partition have their offsets in the order in which their calls ended.

* `topics_never_replaced`: a topic stays bound to its name, with its number of partitions, and a record that was stored
  is found by every later fetch unless it has been evicted.
* `keyed_in_order`: under the consistent partitioner the records of one key are in one partition, in order.
-/

namespace RMemQueue

open Conc

/-- The operations of a broker. -/
inductive BrokerCall where
  | ensureTopic (topic : String) (numPartitions : Int)
  | produce (call : ProduceCall)
  | fetchOne (topic : String) (partition : Int) (position : Option Int) (groupId : Option String)
  | watermarks (topic : String) (partition : Int)
  | metadata (topic : Option String)
  | getPartitionNotifies (topics : List String)
  | joinGroup (order : HashOrder) (groupId memberId : String) (topics : List String)
  | leaveGroup (order : HashOrder) (groupId memberId : String)
  | commitOffset (groupId topic : String) (partition offset : Int)
  | committedOffset (groupId topic : String) (partition : Int)
  | shutdown

/-- What an operation returns. -/
inductive BrokerReply where
  | unit
  | record (r : RecordMetadata)
  | message (m : Option StoredMessage)
  | watermarks (w : Int × Int)
  | metadata (m : Metadata)
  | notifies (l : List NotifyRef)
  | partitions (l : TopicPartitionList)
  | offset (o : Option Int)
  deriving DecidableEq, Repr

variable {π : Type} [Partitioner π]

/-- A call with its result wrapped. -/
def answer {α : Type} (x : BrokerM π α) (f : α → BrokerReply) : BrokerM π BrokerReply := x >>= fun a => pure (f a)

def BrokerCall.body : BrokerCall → BrokerM π BrokerReply
  | .ensureTopic topic n => answer (Broker.ensureTopic topic n) fun _ => .unit
  | .produce call => answer call.body .record
  | .fetchOne topic partition position groupId =>
    answer (Broker.fetchOneFromPosition topic partition position groupId) .message
  | .watermarks topic partition => answer (Broker.watermarks topic partition) .watermarks
  | .metadata topic => answer (Broker.metadata topic) .metadata
  | .getPartitionNotifies topics => answer (Broker.getPartitionNotifies topics) .notifies
  | .joinGroup order groupId memberId topics => answer (Broker.joinGroup order groupId memberId topics) .partitions
  | .leaveGroup order groupId memberId => answer (Broker.leaveGroup order groupId memberId) fun _ => .unit
  | .commitOffset groupId topic partition offset =>
    answer (Broker.commitOffset groupId topic partition offset) fun _ => .unit
  | .committedOffset groupId topic partition => answer (Broker.committedOffset groupId topic partition) .offset
  | .shutdown => answer Broker.shutdownBroker fun _ => .unit

/-- A broker and its calls. -/
abbrev BrokerRun (ι π : Type) := System ι BrokerCall (Broker π) RmqError BrokerReply

namespace BrokerCall

/-- Every step of every operation leads to a later state of the broker. -/
theorem always_later (call : BrokerCall) : (call.body : BrokerM π BrokerReply).Always Broker.Later := by
  cases call with
  | ensureTopic topic n => exact (Broker.updates_later.always_ensureTopic topic n).bind fun _ => trivial
  | produce call => exact (Broker.updates_later.always_produce _ _ _ _ _ _).bind fun _ => trivial
  | fetchOne topic partition position groupId =>
    exact ((Broker.readOnly_fetchOneFromPosition topic partition position groupId).always Broker.Later.refl).bind
      fun _ => trivial
  | watermarks topic partition =>
    exact ((Broker.readOnly_watermarks topic partition).always Broker.Later.refl).bind fun _ => trivial
  | metadata topic => exact ((Broker.readOnly_metadata topic).always Broker.Later.refl).bind fun _ => trivial
  | getPartitionNotifies topics =>
    exact ((Broker.readOnly_getPartitionNotifies topics).always Broker.Later.refl).bind fun _ => trivial
  | joinGroup order groupId memberId topics =>
    exact (Broker.updates_later.always_joinGroup order groupId memberId topics).bind fun _ => trivial
  | leaveGroup order groupId memberId => exact (Broker.updates_later.always_leaveGroup order groupId memberId).bind fun _ => trivial
  | commitOffset groupId topic partition offset =>
    exact (Broker.always_commitOffset groupId topic partition offset).bind fun _ => trivial
  | committedOffset groupId topic partition =>
    exact ((Broker.readOnly_committedOffset groupId topic partition).always Broker.Later.refl).bind fun _ => trivial
  | shutdown => exact Broker.always_shutdownBroker.bind fun _ => trivial

end BrokerCall

/-! ### What a produce call stores -/

namespace ProduceCall

/-- How the partition of a stored record was chosen: it is the explicit one, or the partitioner's choice among the
partitions of the topic. -/
def Chosen (c : ProduceCall) (p : Int) (b : InMemoryBackend) : Prop :=
  match c.partition with
  | some q => p = q
  | none => ∃ (n : Int) (partitioner : π), b.count? c.topic = some n ∧
      (Partitioner.partition partitioner c.topic c.content.partitionKey n.toNat).1 = some p

theorem Chosen.later {c : ProduceCall} {p : Int} {b b' : InMemoryBackend} (h : c.Chosen (π := π) p b) (hl : b.Later b') :
    c.Chosen (π := π) p b' := by
  unfold Chosen at h ⊢
  split
  · rename_i q hq
    rw [hq] at h
    exact h
  · rename_i hq
    rw [hq] at h
    obtain ⟨n, partitioner, hn, hp⟩ := h
    exact ⟨n, partitioner, hl.count? hn, hp⟩

/-- The record is in the log of its partition. -/
def InLog (c : ProduceCall) (r : RecordMetadata) (b : InMemoryBackend) : Prop :=
  r.topic = c.topic ∧ ∃ n : Nat, r.offset = n ∧ (b.log r.topic r.partition).history[n]? = some (c.stored r)

end ProduceCall

/-- Other threads make the backend later. -/
private abbrev BackendLater : Broker π → Broker π → Prop := fun b b' => b.backend.Later b'.backend

namespace Broker

open ProduceCall

omit [Partitioner π] in
/-- The result of asking for a topic lists as many partitions as the topic has. -/
private theorem after_metadata (brokerId topic : String) {b b' : Broker π} (h : b.backend.Later b'.backend) :
    (onBackend (InMemoryBackend.metadata brokerId (some topic)) : BrokerM π Metadata).After BackendLater BackendLater
      (fun b o b' => b.backend.Later b'.backend ∧ ∀ m, o = .ok m →
        ∃ n tm, b'.backend.count? topic = some n ∧ m.topics = [tm] ∧ tm.partitions.length = n.toNat) b b' := by
  have hsnap : ∀ {b : InMemoryBackend} {o : Outcome RmqError Metadata}, InMemoryBackend.Snapshot b'.backend topic b o →
      ∀ m, o = .ok m → ∃ n tm, b.count? topic = some n ∧ m.topics = [tm] ∧ tm.partitions.length = n.toNat := by
    rintro b o hs m rfl
    obtain ⟨n, tm, hn, hm, -, hids⟩ := hs
    refine ⟨n, tm, hn, hm, ?_⟩
    simpa using congrArg List.length hids
  exact Act.After.zoom (InMemoryBackend.after_metadata brokerId topic h (.refl _)) id
    (fun o h => ⟨h.1, hsnap h.2⟩) (fun _ _ h => h) (fun _ _ h => h) fun _ _ _ h => ⟨h.1, hsnap h.2⟩

/-- The choice of a partition, while the topic keeps its number of partitions. -/
private theorem after_recordPartition (c : ProduceCall) {n : Int} {b b' : Broker π}
    (h : b.backend.Later b'.backend) (hn : b'.backend.count? c.topic = some n) :
    (recordPartition c.partition c.topic c.content.partitionKey n.toNat : BrokerM π Int).After BackendLater BackendLater
      (fun b o b' => b.backend.Later b'.backend ∧ ∀ p, o = .ok p → c.Chosen (π := π) p b'.backend) b b' := by
  unfold Chosen
  cases hc : c.partition with
  | some p => exact ⟨h, fun q hq => (Outcome.ok.inj hq).symm⟩
  | none =>
    refine Act.after_step.2 ⟨h, fun t ht => ⟨.refl _, fun p hp => ⟨n, t.partitioner, ht.count? hn, ?_⟩⟩⟩
    dsimp only at hp
    rcases hq : (Partitioner.partition t.partitioner c.topic c.content.partitionKey n.toNat).1 with _ | q
    · rw [hq] at hp
      cases hp
    · rw [hq] at hp
      rw [Outcome.ok.inj hp]

omit [Partitioner π] in
private theorem always_backendLater {α : Type} {x : BrokerM π α} (hx : x.Always Later) : x.Always BackendLater :=
  Act.Always.mono hx fun _ _ h => h.backend

/-- A stored record is in the partition that was chosen for it. -/
private theorem after_chosen (c : ProduceCall) (b : Broker π) :
    (c.body : BrokerM π RecordMetadata).After BackendLater BackendLater
      (fun b o b' => b.backend.Later b'.backend ∧ ∀ r, o = .ok r → c.Chosen (π := π) r.partition b'.backend) b b := by
  refine Act.After.read_bind (.refl _) (fun b _ _ _ => ?_) (fun _ _ _ _ => ⟨.refl _, by simp⟩)
    fun _ _ _ => ⟨.refl _, by simp⟩
  refine Act.After.read_bind (.refl _) (fun b config _ _ => ?_) (fun _ _ _ _ => ⟨.refl _, by simp⟩)
    fun _ _ _ => ⟨.refl _, by simp⟩
  -- the topic exists from here on
  refine Act.After.always_bind (always_backendLater (updates_later.always_ensureTopic c.topic _)) (.refl _) (fun _ b b' hb => ?_)
    (fun _ _ _ h => ⟨h, by simp⟩) fun _ _ h => ⟨h, by simp⟩
  refine (after_metadata _ _ hb).bind (fun m b b' hm => ?_) (fun _ _ _ h => ⟨h.1, by simp⟩)
    fun _ _ h => ⟨h.1, by simp⟩
  obtain ⟨hl, hm⟩ := hm
  obtain ⟨n, tm, hn, htm, hlen⟩ := hm m rfl
  simp only [htm, List.head?_cons, hlen]
  -- the partition is computed from the number that `metadata` has returned
  refine (after_recordPartition c hl hn).bind (fun p b b' hp => ?_) (fun _ _ _ h => ⟨h.1, by simp⟩)
    fun _ _ h => ⟨h.1, by simp⟩
  have hfst : ∀ {b b' : InMemoryBackend} {o : Outcome RmqError (Int × Int × Int)}, InMemoryBackend.Produced c.topic p
      c.content c.headers (c.timestamp.getD c.clock.wall) c.clock b o b' → ∀ r, o = .ok r → r.1 = p := by
    rintro b b' o (⟨offset, rfl, -⟩ | ⟨ho, -⟩) r hr
    · obtain rfl := Outcome.ok.inj hr
      rfl
    · exact absurd hr (ho r)
  have hlater : ∀ {b b' : InMemoryBackend} {o : Outcome RmqError (Int × Int × Int)}, InMemoryBackend.Produced c.topic p
      c.content c.headers (c.timestamp.getD c.clock.wall) c.clock b o b' → b.Later b' := by
    rintro b b' o (⟨offset, -, ha⟩ | ⟨-, hq⟩)
    · exact ha.later
    · exact hq.later
  -- the backend stores the record in the partition that it is given
  have hlast : (onBackend (InMemoryBackend.produce c.topic p c.content c.headers c.timestamp c.clock) :
      BrokerM π _).After BackendLater BackendLater
      (fun b o b' => b.backend.Later b'.backend ∧ ∀ r, o = .ok r → r.1 = p) b b' := by
    refine Act.After.restart ?_ hp.1 fun o h => ⟨hp.1, h.2⟩
    refine Act.After.zoom (InMemoryBackend.after_produce c.topic p c.content c.headers c.timestamp c.clock (.refl _))
      (fun _ => .refl _) (fun o h => ⟨.refl _, hfst h⟩) (fun _ _ h => h) (fun _ _ h => h.later)
      fun _ _ _ h => ⟨hlater h, hfst h⟩
  refine (hlast.keep (J := fun b => c.Chosen (π := π) p b.backend) (fun _ _ h hl => h.later hl) (fun _ _ h hl => h.later hl)
    (fun _ _ _ h => h.1) (hp.2 p rfl)).bind ?_ (fun _ _ _ h => ⟨h.1.1, by simp⟩) fun _ _ h => ⟨h.1.1, by simp⟩
  rintro r b b' ⟨⟨hb, hr⟩, hchosen⟩
  refine ⟨hb, fun r' hr' => ?_⟩
  obtain rfl := Outcome.ok.inj hr'
  rw [hr r rfl]
  exact hchosen

/-- What the last step of a call that stores a record does. -/
structure Put (c : ProduceCall) (r : RecordMetadata) (b b' : Broker π) : Prop where
  topic : r.topic = c.topic
  chosen : c.Chosen (π := π) r.partition b'.backend
  appended : InMemoryBackend.Appended r.topic r.partition (c.stored r) b.backend b'.backend

theorem after_put (c : ProduceCall) (b : Broker π) :
    (c.body : BrokerM π RecordMetadata).After BackendLater BackendLater
      (fun b o b' => b.backend.Later b'.backend ∧ ∀ r, o = .ok r → Put c r b b') b b := by
  refine ((after_chosen c b).and (after_produce c (.refl b))).mono (fun _ _ h => h.1) ?_
  rintro b o b' ⟨⟨hl, hchosen⟩, hp⟩
  refine ⟨hl, fun r hr => ?_⟩
  rcases hp with ⟨r', hr', ht, -, -, ha⟩ | ⟨ho, -⟩
  · obtain rfl : r = r' := Outcome.ok.inj (hr.symm.trans hr')
    exact ⟨ht, hchosen r hr, ha⟩
  · exact absurd hr (ho r)

end Broker

/-! ### The ended calls -/

variable {ι : Type}

/-- How the broker and the calls that have ended on it are related. -/
structure CallTies (b : Broker π) (history : List (ι × BrokerCall × Outcome RmqError BrokerReply)) : Prop where
  stored : ∀ i c r, (i, .produce c, .ok (.record r)) ∈ history →
    c.InLog r b.backend ∧ c.Chosen (π := π) r.partition b.backend
  ordered : history.Pairwise fun e e' => ∀ c r c' r', e.2 = (.produce c, .ok (.record r)) →
    e'.2 = (.produce c', .ok (.record r')) → r.topic = r'.topic → r.partition = r'.partition → r.offset < r'.offset
  closed : ∀ i o, (i, .shutdown, o) ∈ history → b.backend.shutdown = true

/-- What the last step of a call does. -/
structure BrokerCall.Last (call : BrokerCall) (b : Broker π) (o : Outcome RmqError BrokerReply) (b' : Broker π) :
    Prop where
  later : b.backend.Later b'.backend
  put : ∀ c r, call = .produce c → o = .ok (.record r) → Broker.Put c r b b'
  closed : call = .shutdown → b'.backend.shutdown = true

/-- What the threads do to one another. -/
def callProtocol (ι π : Type) [Partitioner π] : Protocol ι BrokerCall (Broker π) RmqError BrokerReply where
  rely _ b b' := b.backend.Later b'.backend
  inner _ _ b b' := b.backend.Later b'.backend
  last _ _ call b o b' := call.Last b o b'
  rely_refl := (produceProtocol ι π).rely_refl
  rely_trans := (produceProtocol ι π).rely_trans
  inner_rely _ _ _ _ _ _ h := h
  last_rely _ _ _ _ _ _ _ _ h := h.later

/-- Every call meets its part of the protocol. -/
private theorem BrokerCall.after_body (call : BrokerCall) (b : Broker π) :
    (call.body : BrokerM π BrokerReply).After (fun b b' => b.backend.Later b'.backend)
      (fun b b' => b.backend.Later b'.backend) call.Last b b := by
  have hother : (∀ c, call ≠ .produce c) → call ≠ .shutdown → call.body.After
      (fun b b' : Broker π => b.backend.Later b'.backend) (fun b b' => b.backend.Later b'.backend) call.Last b b := by
    intro hc hs
    refine ((call.always_later.mono fun _ _ h => h.backend).after (.refl _)).mono (fun _ _ h => h) ?_
    exact fun b o b' h => ⟨h, fun c r hcall => absurd hcall (hc c), fun hcall => absurd hcall hs⟩
  cases call with
  | produce c =>
    refine (Broker.after_put c b).bind ?_ (fun _ _ _ h => ⟨h.1, by simp, by simp⟩) fun _ _ h => ⟨h.1, by simp, by simp⟩
    rintro r t t' ⟨hl, hput⟩
    refine ⟨hl, fun c' r' hc hr => ?_, by simp⟩
    obtain rfl := BrokerCall.produce.inj hc
    obtain rfl := BrokerReply.record.inj (Outcome.ok.inj hr)
    exact hput r rfl
  | shutdown =>
    refine ⟨.refl _, fun b _ => ⟨.refl _, fun b' _ => ?_⟩⟩
    exact ⟨InMemoryBackend.later_setShutdown _, by simp, fun _ => rfl⟩
  | ensureTopic => exact hother (fun c => by simp) (by simp)
  | fetchOne => exact hother (fun c => by simp) (by simp)
  | watermarks => exact hother (fun c => by simp) (by simp)
  | metadata => exact hother (fun c => by simp) (by simp)
  | getPartitionNotifies => exact hother (fun c => by simp) (by simp)
  | joinGroup => exact hother (fun c => by simp) (by simp)
  | leaveGroup => exact hother (fun c => by simp) (by simp)
  | commitOffset => exact hother (fun c => by simp) (by simp)
  | committedOffset => exact hother (fun c => by simp) (by simp)

omit [Partitioner π] in
private theorem ProduceCall.InLog.later {c : ProduceCall} {r : RecordMetadata} {b b' : InMemoryBackend}
    (h : c.InLog r b) (hl : b.Later b') : c.InLog r b' := by
  obtain ⟨ht, n, hn, hlog⟩ := h
  exact ⟨ht, n, hn, TrimmedLog.history_mono (hl.log _ _) hlog⟩

omit [Partitioner π] in
/-- The record that is appended last. -/
private theorem inLog_of_appended {c : ProduceCall} {r : RecordMetadata} {b b' : InMemoryBackend} (ht : r.topic = c.topic)
    (h : InMemoryBackend.Appended r.topic r.partition (c.stored r) b b') :
    c.InLog r b' ∧ r.offset = ((b.log r.topic r.partition).next : Int) := by
  have hlog : (b'.log r.topic r.partition).history[(b.log r.topic r.partition).next]? = some (c.stored r) := by
    rw [h.history, if_pos ⟨rfl, rfl⟩]
    exact List.getElem?_concat_length
  have hoff : r.offset = ((b.log r.topic r.partition).next : Int) := by
    have := (InMemoryBackend.stamped hlog).1
    rwa [ProduceCall.stored, Content.message_offset] at this
  exact ⟨⟨ht, _, hoff, hlog⟩, hoff⟩

private theorem CallTies.later {b b' : Broker π} {history : List (ι × BrokerCall × Outcome RmqError BrokerReply)}
    (h : CallTies b history) (hl : b.backend.Later b'.backend) : CallTies b' history := by
  refine ⟨fun i c r hmem => ?_, h.ordered, fun i o hmem => hl.shutdown (h.closed i o hmem)⟩
  obtain ⟨hlog, hchosen⟩ := h.stored i c r hmem
  exact ⟨hlog.later hl, hchosen.later hl⟩

private theorem CallTies.ended {b b' : Broker π} {history : List (ι × BrokerCall × Outcome RmqError BrokerReply)}
    (h : CallTies b history) {i : ι} {call : BrokerCall} {o : Outcome RmqError BrokerReply}
    (hlast : call.Last b o b') : CallTies b' (history ++ [(i, call, o)]) := by
  have hput := hlast.put
  refine ⟨fun j c r hmem => ?_, ?_, fun j o' hmem => ?_⟩
  -- the records of the earlier calls are still in the log
  · rcases List.mem_append.1 hmem with hmem | hmem
    · exact (h.later hlast.later).stored j c r hmem
    · obtain ⟨rfl, rfl, rfl⟩ : j = i ∧ .produce c = call ∧ .ok (.record r) = o := by simpa using hmem
      have hp := hput c r rfl rfl
      exact ⟨(inLog_of_appended hp.topic hp.appended).1, hp.chosen⟩
  · rw [List.pairwise_append]
    refine ⟨h.ordered, List.pairwise_singleton _ _, fun e he e' he' c r c' r' hc hc' ht hp => ?_⟩
    obtain rfl := List.mem_singleton.1 he'
    obtain ⟨rfl, rfl⟩ := Prod.mk.inj hc'
    -- the new record is at the end of the log, the earlier one inside it
    have hnew := (inLog_of_appended (hput c' r' rfl rfl).topic (hput c' r' rfl rfl).appended).2
    obtain ⟨j, rest⟩ := e
    subst hc
    obtain ⟨-, n, hn, hlog⟩ := (h.stored j c r he).1
    obtain ⟨hlt, -⟩ := List.getElem?_eq_some_iff.1 hlog
    rw [ht, hp] at hlt
    rw [hnew, hn]
    exact Int.ofNat_lt.2 hlt
  · rcases List.mem_append.1 hmem with hmem | hmem
    · exact hlast.later.shutdown (h.closed j o' hmem)
    · obtain ⟨-, hcall, -⟩ : j = i ∧ .shutdown = call ∧ o' = o := by simpa using hmem
      exact hlast.closed hcall.symm

/-- The run lemma: after every schedule the broker is tied to the calls that have ended. -/
theorem callTies_exec [DecidableEq ι] (b : Broker π) (sched : List (Choice ι BrokerCall)) {w : BrokerRun ι π}
    (hw : w = System.exec BrokerCall.body (.init b) sched) : CallTies w.shared w.history := by
  subst hw
  refine System.exec_invariant (callProtocol ι π) CallTies (fun _ _ => True) (fun _ call b _ _ _ => call.after_body b)
    (fun _ _ _ _ hl h => h.later hl) (fun _ _ _ _ _ _ hp h => h.ended hp) (fun _ _ _ => trivial) ?_
  exact ⟨by simp, List.Pairwise.nil, by simp⟩

/-! ### Fetching a stored record -/

section

omit [Partitioner π]

/-- The record is not retained any more. -/
def RecordMetadata.Evicted (r : RecordMetadata) (b : InMemoryBackend) : Prop :=
  ∃ n : Nat, r.offset = n ∧ n < (b.log r.topic r.partition).dropped

/-- What a fetch at the place of a stored record returns. -/
def ProduceCall.Found (c : ProduceCall) (r : RecordMetadata) (b : Broker π)
    (o : Outcome RmqError (Option StoredMessage)) : Prop :=
  o = .ok (some (c.stored r)) ∨ r.Evicted b.backend ∨
    (o = .err .brokerShutdown ∧ (b.shutdown = true ∨ b.backend.shutdown = true))

private theorem RecordMetadata.Evicted.later {r : RecordMetadata} {b b' : InMemoryBackend} (h : r.Evicted b)
    (hl : b.Later b') : r.Evicted b' := by
  obtain ⟨n, hn, hlt⟩ := h
  exact ⟨n, hn, hlt.trans_le (TrimmedLog.dropped_mono (hl.log _ _))⟩

/-- The record is retained, or it has been evicted. -/
private theorem ProduceCall.InLog.get?_or {c : ProduceCall} {r : RecordMetadata} {b : InMemoryBackend} (h : c.InLog r b) :
    r.Evicted b ∨ ∃ n : Nat, r.offset = n ∧ (b.log r.topic r.partition).get? n = some (c.stored r) := by
  obtain ⟨-, n, hn, hlog⟩ := h
  rcases Nat.lt_or_ge n (b.log r.topic r.partition).dropped with hlt | hge
  · exact Or.inl ⟨n, hn, hlt⟩
  · exact Or.inr ⟨n, hn, by rw [TrimmedLog.get?_of_dropped_le hge, hlog]⟩

private theorem ProduceCall.Found.later {c : ProduceCall} {r : RecordMetadata} {b b' : Broker π}
    {o : Outcome RmqError (Option StoredMessage)} (h : c.Found r b o) (hl : b.Later b') : c.Found r b' o :=
  h.imp_right (Or.imp (fun he => he.later hl.backend) fun hd => ⟨hd.1, hd.2.imp hl.shutdown hl.backend.shutdown⟩)

/-- What is read from the partition of a stored record. -/
private theorem found_of_fetchOne {c : ProduceCall} {r : RecordMetadata} {b : Broker π} (h : c.InLog r b.backend) {t : Topic}
    (ht : b.backend.topic? r.topic = some t) : c.Found r b (InMemoryBackend.ofResult (t.fetchOne r.partition r.offset)) := by
  rcases h.get?_or with he | ⟨n, hn, hg⟩
  · exact Or.inr (Or.inl he)
  · refine Or.inl ?_
    cases hp : b.backend.partition? r.topic r.partition with
    | none =>
      rw [InMemoryBackend.log, hp] at hg
      cases (TrimmedLog.mem_retained_of_get? hg)
    | some p =>
      rw [InMemoryBackend.log_of_partition? hp] at hg
      have htp : t.partition? r.partition = some p := by
        rw [InMemoryBackend.partition?, ht] at hp
        exact hp
      rw [Topic.fetchOne, Topic.getPartition_eq, htp]
      show InMemoryBackend.ofResult (p.readOne r.offset) = _
      rw [p.readOne_eq_some_iff.2 ⟨n, hn, hg⟩]
      rfl

/-- Reading the place of a stored record, among the steps of others. -/
private theorem Broker.after_readStored {c : ProduceCall} {r : RecordMetadata} {b : Broker π} (h : c.InLog r b.backend) :
    (onBackend (InMemoryBackend.fetchOne r.topic r.partition r.offset) : BrokerM π _).After Later (fun b b' => b' = b)
      (fun b o b' => b' = b ∧ c.Found r b' o) b b := by
  obtain ⟨t₀, ht₀⟩ : ∃ t, b.backend.topic? r.topic = some t := by
    cases ht : b.backend.topic? r.topic with
    | some t => exact ⟨t, rfl⟩
    | none =>
      obtain ⟨-, n, -, hlog⟩ := h
      rw [InMemoryBackend.log, InMemoryBackend.partition?, ht] at hlog
      cases hlog
  have hfetch : (onBackend (InMemoryBackend.fetchOne r.topic r.partition r.offset)).After Later
      (fun b b' => b' = b) (fun b o b' => b' = b ∧ ((∃ t, b.backend.topic? r.topic = some t ∧
        o = InMemoryBackend.ofResult (t.fetchOne r.partition r.offset)) ∨
          (o = .err .brokerShutdown ∧ b.backend.shutdown = true))) b b := by
    refine Act.After.zoom (InMemoryBackend.after_fetchOne_of_topic ht₀ r.partition r.offset) (fun _ => rfl)
      (fun o h => ⟨rfl, h.2⟩) (fun _ _ h => h.backend) (fun b s h => ?_) fun b o s h => ⟨?_, h.2⟩
    · rw [h]
      rfl
    · rw [h.1]
      rfl
  have hkeep := hfetch.keep (J := fun b => c.InLog r b.backend) (fun _ _ h hl => h.later hl.backend)
    (fun _ _ h he => he ▸ h) (fun _ _ _ h => h.1) h
  refine hkeep.mono (fun _ _ => id) ?_
  rintro d o d' ⟨⟨rfl, hs⟩, hin⟩
  refine ⟨rfl, ?_⟩
  rcases hs with ⟨t, ht, rfl⟩ | ⟨rfl, hd⟩
  · exact found_of_fetchOne hin ht
  · exact Or.inr (Or.inr ⟨rfl, Or.inr hd⟩)

/-- A fetch at the place of a stored record, among the steps of others. -/
private theorem Broker.after_fetchStored {c : ProduceCall} {r : RecordMetadata} {b : Broker π} (h : c.InLog r b.backend)
    (groupId : Option String) :
    (fetchOneFromPosition r.topic r.partition (some r.offset) groupId).After Later (fun b b' => b' = b)
      (fun _ o b' => c.Found r b' o) b b := by
  refine Act.After.read_bind rfl (fun b' _ hb' _ => ?_) (fun b' e _ he => ?_) fun b' _ hp => ?_
  · refine (Act.After.attempt (after_readStored (h.later hb'.backend))).bind ?_ ?_ ?_
    · rintro result d d' ⟨o, ho, rfl, hfound⟩
      cases o with
      | ok m =>
        obtain rfl := Outcome.ok.inj ho
        exact hfound
      | panic => cases ho
      | err e =>
        obtain rfl := Outcome.ok.inj ho
        cases e with
        | offsetOutOfRange topic p n =>
          -- the record has been evicted, and stays so
          have he : r.Evicted d'.backend := by simpa [ProduceCall.Found] using hfound
          have hold : (oldestOffset r.topic r.partition : BrokerM π Int).After Later (fun b b' => b' = b)
              (fun b _ b' => b' = b) d' d' :=
            Act.Always.after (readOnly_oldestOffset r.topic r.partition) rfl
          refine (hold.keep (J := fun b => r.Evicted b.backend) (fun _ _ h hl => h.later hl.backend) (fun _ _ h he => he ▸ h)
            (fun _ _ _ h => h) he).bind ?_ ?_ ?_
          · exact fun _ t t' h => Or.inr (Or.inl h.2)
          · exact fun _ t t' h => Or.inr (Or.inl h.2)
          · exact fun t t' h => Or.inr (Or.inl h.2)
        | _ => exact hfound
    · rintro e d d' ⟨o, ho, -⟩
      cases o <;> cases ho
    · rintro d d' ⟨o, ho, rfl, hfound⟩
      cases o with
      | ok m => cases ho
      | err e => cases ho
      | panic => exact hfound
  · cases hd : b'.shutdown with
    | true =>
      obtain rfl : RmqError.brokerShutdown = e := by simpa [hd] using he
      exact Or.inr (Or.inr ⟨rfl, Or.inl hd⟩)
    | false => simp [hd] at he
  · cases hd : b'.shutdown <;> simp [hd] at hp

end

variable [DecidableEq ι]

/-- A fetch at the place of a stored record that an idle thread begins in the state `w`: however it ends. -/
def ProduceCall.Fetched (c : ProduceCall) (r : RecordMetadata) (w : BrokerRun ι π) : Prop :=
  ∀ (i : ι) (groupId : Option String), w.running i = none →
    ∀ sched : List (Choice ι BrokerCall), (∀ call, .call i call ∉ sched) →
      let fetch := .fetchOne r.topic r.partition (some r.offset) groupId
      let w' := System.exec BrokerCall.body w (.call i fetch :: sched)
      ∀ o, (i, fetch, o) ∈ w'.history.drop w.history.length → ∃ o', o = o'.map .message ∧ c.Found r w'.shared o'

private theorem ProduceCall.InLog.fetched {c : ProduceCall} {r : RecordMetadata} {w : BrokerRun ι π}
    (h : c.InLog r w.shared.backend) (hw : w.Carries fun _ => Broker.Later) : c.Fetched r w := by
  intro i groupId hidle sched hs fetch w' o ho
  have hbody : (BrokerCall.body fetch).After Broker.Later (fun b b' => b' = b)
      (fun _ o b' => ∃ o', o = o'.map .message ∧ c.Found r b' o') w.shared w.shared := by
    refine (Broker.after_fetchStored h groupId).bind (fun m _ _ h => ⟨.ok m, rfl, h⟩) (fun e _ _ h => ⟨.err e, rfl, h⟩)
      fun _ _ h => ⟨.panic, rfl, h⟩
  obtain ⟨h', hh', hcase⟩ := (System.one_of_call Broker.Later.refl (fun _ _ _ => Broker.Later.trans)
    (fun _ => True) BrokerCall.always_later (fun _ _ _ _ h => h) hw hidle (fun _ _ _ _ => trivial)
    hbody fun k d hk => ⟨fun hki => hs d (hki ▸ hk), trivial⟩).1
  have hmem : (i, fetch, o) ∈ h' := by
    rwa [show w'.history = w.history ++ h' from hh', List.drop_left] at ho
  rcases hcase with ⟨-, -, -, hno⟩ | ⟨-, s, o₁, s', ⟨o', ho', hfound⟩, hs', -, honly⟩
  · exact absurd rfl (hno _ hmem)
  · obtain rfl : o = o₁ := by simpa using honly _ hmem rfl
    exact ⟨o', ho', hfound.later hs'⟩

/-- **Topics are never replaced.**  Between any two states of a run a topic stays bound to its name, at its address,
with its number of partitions.  A record that has been stored is in the log of its partition in every later state, or
has been evicted from it; and a fetch that begins later returns it, unless it has been evicted or the broker has been
shut down. -/
theorem topics_never_replaced (b : Broker π) (sched sched' : List (Choice ι BrokerCall)) {w w' : BrokerRun ι π}
    (hw : w = System.exec BrokerCall.body (.init b) sched) (hw' : w' = System.exec BrokerCall.body w sched') :
    (∀ topic a, w.shared.backend.topics.lookup topic = some a → w'.shared.backend.topics.lookup topic = some a) ∧
    (∀ topic n, w.shared.backend.count? topic = some n → w'.shared.backend.count? topic = some n) ∧
    ∀ (i : ι) (c : ProduceCall) (r : RecordMetadata), (i, .produce c, .ok (.record r)) ∈ w.history →
      c.InLog r w'.shared.backend ∧
      (r.Evicted w'.shared.backend ∨ ∃ n : Nat, r.offset = n ∧
        (w'.shared.backend.log r.topic r.partition).get? n = some (c.stored r)) ∧
      c.Fetched r w' := by
  have hcarries : w.Carries fun _ => Broker.Later := by
    rw [hw]
    exact (System.carries_init b).exec BrokerCall.always_later sched
  have hlater : w.shared.Later w'.shared := by
    rw [hw']
    exact System.exec_related Broker.Later.refl (fun _ _ _ => Broker.Later.trans) (fun _ _ => True)
      BrokerCall.always_later (fun _ _ _ _ _ h => h) hcarries (fun _ _ _ _ => trivial) fun _ _ _ => trivial
  refine ⟨hlater.backend.topics, fun topic n => hlater.backend.count?, fun i c r hmem => ?_⟩
  have hin : c.InLog r w'.shared.backend := (((callTies_exec b sched hw).stored i c r hmem).1).later hlater.backend
  refine ⟨hin, hin.get?_or, hin.fetched ?_⟩
  rw [hw']
  exact hcarries.exec BrokerCall.always_later sched'

/-- Whether the entry is a call that has stored the record. -/
private def storedIn (r : RecordMetadata) : ι × BrokerCall × Outcome RmqError BrokerReply → Bool
  | (_, .produce _, .ok (.record r')) => r' = r
  | _ => false

omit [DecidableEq ι] in
private theorem exists_call_of_any (history : List (ι × BrokerCall × Outcome RmqError BrokerReply)) {r : RecordMetadata}
    (h : history.any (storedIn r) = true) : ∃ i c, (i, .produce c, .ok (.record r)) ∈ history := by
  obtain ⟨⟨i, call, o⟩, he, hr⟩ := List.any_eq_true.1 h
  unfold storedIn at hr
  split at hr
  · rename_i j c r' hj
    obtain ⟨-, rfl, rfl⟩ := hj
    obtain rfl : r' = r := by simpa using hr
    exact ⟨i, c, he⟩
  · cases hr

/-- Two threads that both have not found the topic create it, with different numbers of partitions. -/
theorem topics_never_replaced_race :
    let config := RmqClientConfig.new.set ConfigKeys.brokerId "b"
    let call : ProduceCall := ⟨"t", some 0, .raw none none, none, none, ⟨7, 0, fun _ => 0⟩⟩
    let r : RecordMetadata := ⟨"t", 0, 0, 7⟩
    let race := [.call 0 (.ensureTopic "t" 1), .call 1 (.ensureTopic "t" 2)] ++
      (List.replicate 3 [Choice.step 0, .step 1]).flatten ++ (.call 0 (.produce call) :: List.replicate 15 (.step 0))
    let again := .call 1 (.ensureTopic "t" 3) :: List.replicate 3 (Choice.step 1)
    ∃ b : Broker RoundRobinPartitioner, Broker.withPartitioner config .new = .ok b ∧
      let w : BrokerRun Nat RoundRobinPartitioner := System.exec BrokerCall.body (.init b) race
      w.shared.backend.count? "t" = some 1 ∧
      (System.exec BrokerCall.body w again).shared.backend.count? "t" = some 1 ∧
      ∃ c : ProduceCall, c.InLog r (System.exec BrokerCall.body w again).shared.backend := by
  intro config call r race again
  refine ⟨_, rfl, ?_⟩
  intro w
  have hcount : w.shared.backend.count? "t" = some 1 := by decide +kernel
  obtain ⟨i, c, hmem⟩ := exists_call_of_any w.history (r := r) (by decide +kernel)
  obtain ⟨-, hcounts, hstored⟩ := topics_never_replaced _ race again (w := w) rfl rfl
  exact ⟨hcount, hcounts "t" 1 hcount, c, (hstored i c r hmem).1⟩

/-! ### The order of the records of a key -/

omit [DecidableEq ι] [Partitioner π] in
/-- The partition of a stored record exists. -/
private theorem ProduceCall.InLog.count? {c : ProduceCall} {r : RecordMetadata} {b : InMemoryBackend} (h : c.InLog r b) :
    ∃ n, b.count? c.topic = some n ∧ 0 ≤ r.partition ∧ r.partition < n := by
  obtain ⟨ht, n, -, hlog⟩ := h
  rw [← ht, ← b.isSome_partition?_iff]
  cases hp : b.partition? r.topic r.partition with
  | some p => rfl
  | none =>
    rw [InMemoryBackend.log, hp] at hlog
    cases hlog

/-- The record was produced with the given key and without a partition. -/
def ProduceCall.Keyed (c : ProduceCall) (key : Bytes) : Prop :=
  c.partition = none ∧ c.content.partitionKey = some key

omit [DecidableEq ι] in
/-- The partition of a keyed record is determined by its key and the number of partitions. -/
private theorem ProduceCall.Keyed.ofKey {c : ProduceCall} {key : Bytes} {r : RecordMetadata} {b : InMemoryBackend}
    (hk : c.Keyed key) (hin : c.InLog r b) (hchosen : c.Chosen (π := ConsistentPartitioner) r.partition b) :
    ∃ n, b.count? c.topic = some n ∧ 0 < n ∧ r.partition = ConsistentPartitioner.ofKey key n := by
  obtain ⟨m, hm, hp₀, hpm⟩ := hin.count?
  have hpos : 0 < m := by omega
  unfold Chosen at hchosen
  rw [hk.1] at hchosen
  obtain ⟨n, partitioner, hn, hp⟩ := hchosen
  obtain rfl : m = n := Option.some.inj (hm.symm.trans hn)
  refine ⟨m, hm, hpos, ?_⟩
  have hcast : ((m.toNat : Nat) : Int) = m := Int.toNat_of_nonneg hpos.le
  have hpart : (partitioner.partition (some key) m).1 = some r.partition := by
    rw [← hcast, ← hk.2]
    exact hp
  rw [ConsistentPartitioner.partition, if_neg (by omega)] at hpart
  exact (Option.some.inj hpart).symm

/-- **Per-key order.**  In every run of a broker with the consistent partitioner the records with one key that were
stored in a topic without an explicit partition are in one partition of the topic, in the order in which their calls
ended. -/
theorem keyed_in_order (b : Broker ConsistentPartitioner) (sched : List (Choice ι BrokerCall))
    {w : BrokerRun ι ConsistentPartitioner} (hw : w = System.exec BrokerCall.body (.init b) sched) (topic : String)
    (key : Bytes) :
    (∀ i c r, (i, .produce c, .ok (.record r)) ∈ w.history → c.topic = topic → c.Keyed key →
      ∃ n, w.shared.backend.count? topic = some n ∧ r.topic = topic ∧ 0 ≤ r.partition ∧ r.partition < n ∧
        r.partition = ConsistentPartitioner.ofKey key n) ∧
    w.history.Pairwise fun e e' => ∀ c r c' r', e.2 = (.produce c, .ok (.record r)) →
      e'.2 = (.produce c', .ok (.record r')) → c.topic = topic → c'.topic = topic → c.Keyed key → c'.Keyed key →
        r.partition = r'.partition ∧ r.offset < r'.offset := by
  have hties := callTies_exec b sched hw
  have hpartition : ∀ i c r, (i, .produce c, .ok (.record r)) ∈ w.history → c.topic = topic → c.Keyed key →
      ∃ n, w.shared.backend.count? topic = some n ∧ r.topic = topic ∧ 0 ≤ r.partition ∧ r.partition < n ∧
        r.partition = ConsistentPartitioner.ofKey key n := by
    rintro i c r hmem rfl hk
    obtain ⟨hin, hchosen⟩ := hties.stored i c r hmem
    obtain ⟨n, hn, hpos, hp⟩ := hk.ofKey hin hchosen
    obtain ⟨h₀, h₁⟩ := ConsistentPartitioner.ofKey_range key hpos
    exact ⟨n, hn, hin.1, hp ▸ h₀, hp ▸ h₁, hp⟩
  refine ⟨hpartition, hties.ordered.imp_of_mem fun {e e'} he he' hlt c r c' r' hc hc' ht ht' hk hk' => ?_⟩
  obtain ⟨i, _⟩ := e
  obtain ⟨j, _⟩ := e'
  subst hc hc'
  obtain ⟨n, hn, hr, -, -, hp⟩ := hpartition i c r he ht hk
  obtain ⟨n', hn', hr', -, -, hp'⟩ := hpartition j c' r' he' ht' hk'
  -- both calls have seen the same number of partitions
  obtain rfl : n = n' := Option.some.inj (hn.symm.trans hn')
  have hpp : r.partition = r'.partition := hp.trans hp'.symm
  exact ⟨hpp, hlt c r c' r' rfl rfl (hr.trans hr'.symm) hpp⟩

/-- A record without a key between two records of one key. -/
theorem keyed_in_order_three :
    let config := (RmqClientConfig.new.set ConfigKeys.brokerId "b").set ConfigKeys.numPartitions "3"
    let call (key : Option Bytes) : Choice Nat BrokerCall :=
      .call 0 (.produce ⟨"t", none, .raw key none, none, none, ⟨7, 0, fun _ => 0⟩⟩)
    let alone := List.replicate 25 (Choice.step 0)
    let sched := call (some [1]) :: alone ++ call none :: alone ++ call (some [1]) :: alone
    ∃ b : Broker ConsistentPartitioner, Broker.withPartitioner config .new = .ok b ∧
      let w : BrokerRun Nat ConsistentPartitioner := System.exec BrokerCall.body (.init b) sched
      w.history.map (fun e => e.2.2) =
        [.ok (.record ⟨"t", 1, 0, 7⟩), .ok (.record ⟨"t", 0, 0, 7⟩), .ok (.record ⟨"t", 1, 1, 7⟩)] ∧
      w.history.Pairwise fun e e' => ∀ c r c' r', e.2 = (.produce c, .ok (.record r)) →
        e'.2 = (.produce c', .ok (.record r')) → c.topic = "t" → c'.topic = "t" → c.Keyed [1] → c'.Keyed [1] →
          r.partition = r'.partition ∧ r.offset < r'.offset := by
  intro config call alone sched
  refine ⟨_, rfl, by decide +kernel, ?_⟩
  exact (keyed_in_order _ sched rfl "t" [1]).2

end RMemQueue
