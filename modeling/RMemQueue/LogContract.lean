import RMemQueue.Broker
import RMemQueue.Lib.Threads

/-!
# The log contract of the broker

Any number of threads issue `produce` and `produce_typed` calls on one broker, and their atomic steps interleave in
any way.  The invariant `Ties` relates the broker to the calls that have ended: the log of each partition, evicted
messages included, consists of the messages of the successful calls to it, in the order in which they ended.  All
steps but the last of a call leave every log as it is (`Quiet`); the last one appends the call's message
(`Produced`).
-/

namespace RMemQueue

open Conc

/-- The arguments of a `produce` or `produce_typed` call. -/
structure ProduceCall where
  topic : String
  partition : Option Int
  content : Content
  headers : Option OwnedHeaders
  timestamp : Option Int
  clock : Clock

namespace ProduceCall

def body {π : Type} [Partitioner π] (c : ProduceCall) : BrokerM π RecordMetadata :=
  Broker.produce c.topic c.partition c.content c.headers c.timestamp c.clock

/-- The message of a successful call. -/
def stored (c : ProduceCall) (r : RecordMetadata) : StoredMessage :=
  c.content.message r.topic r.partition r.offset r.timestamp c.headers c.clock.created

end ProduceCall

/-- A call that has ended: its thread, its arguments and its outcome. -/
abbrev Ended (ι : Type) := ι × ProduceCall × Outcome RmqError RecordMetadata

variable {ι π : Type}

/-- The message that an ended call has appended to the given partition. -/
def appendedTo (topic : String) (partition : Int) (e : Ended ι) : Option StoredMessage :=
  match e.2.2 with
  | .ok r => if r.topic = topic ∧ r.partition = partition then some (e.2.1.stored r) else none
  | _ => none

/-- The place that an ended call has reported. -/
def reported (e : Ended ι) : Option (String × Int × Int) :=
  match e.2.2 with
  | .ok r => some (r.topic, r.partition, r.offset)
  | _ => none

/-! ### Steps of the backend -/

namespace InMemoryBackend

/-- A step that leaves every log as it is. -/
structure Quiet (b b' : InMemoryBackend) : Prop where
  later : b.Later b'
  log : b'.log = b.log
  shutdown : b'.shutdown = b.shutdown

theorem Quiet.refl (b : InMemoryBackend) : b.Quiet b := ⟨.refl b, rfl, rfl⟩

theorem quiet_insertTopic (b : InMemoryBackend) (topic : String) (n : Int) : b.Quiet (b.insertTopic topic n) := by
  refine ⟨later_insertTopic b topic n, log_insertTopic b topic n, ?_⟩
  unfold insertTopic
  split <;> rfl

/-- A step that appends one message to one log. -/
structure Appended (topic : String) (partition : Int) (message : StoredMessage) (b b' : InMemoryBackend) : Prop where
  later : b.Later b'
  shutdown : b'.shutdown = b.shutdown
  history : ∀ name id, (b'.log name id).history =
    (b.log name id).history ++ if name = topic ∧ id = partition then [message] else []

private theorem appended_of_run {b : InMemoryBackend} {topic : String} {a : TopicRef}
    (ha : b.topics.lookup topic = some a) (partition : Int) (content : Content) (headers : Option OwnedHeaders)
    (timestamp : Int) (clock : Clock) {o : Outcome RmqError (Int × Int)} {b' : InMemoryBackend}
    (h : (produceAt a partition content headers (some timestamp) clock).run b = (o, b')) :
    (∃ offset, o = .ok (partition, offset) ∧ Appended topic partition
      (content.message topic partition offset timestamp headers clock.created) b b') ∨
    ((∀ r, o ≠ .ok r) ∧ b.Quiet b') := by
  rcases run_produceAt_cases ha partition content headers (some timestamp) clock with
    ⟨p, r, p', b'', hp, hpa, ho, hl, hs, hq⟩ | ⟨hp, ho⟩ | ⟨p, hp, hpa, ho⟩
  · obtain ⟨rfl, rfl⟩ := Prod.mk.inj (ho.symm.trans h)
    obtain ⟨rfl, -, -, n, habs⟩ := Partition.appendContent_eq_some hpa
    obtain ⟨htopic, hpart⟩ := named_of_partition? hp
    refine Or.inl ⟨_, by rw [hpart], hl, hs, fun name id => ?_⟩
    by_cases h : name = topic ∧ id = partition
    · rw [if_pos h]
      obtain ⟨rfl, rfl⟩ := h
      rw [log_of_partition? hp, log_of_partition? ((hq _ _).trans (if_pos ⟨rfl, rfl⟩)), habs, Partition.message,
        htopic, hpart]
      rfl
    · rw [if_neg h, List.append_nil, log, hq, if_neg h]
      rfl
  · obtain ⟨rfl, rfl⟩ := Prod.mk.inj (ho.symm.trans h)
    exact Or.inr ⟨fun r => by simp, .refl b⟩
  · obtain ⟨rfl, rfl⟩ := Prod.mk.inj (ho.symm.trans h)
    exact Or.inr ⟨fun r => by simp, .refl b⟩

/-- What the last step of a `produce` on the backend does. -/
def Produced (topic : String) (partition : Int) (content : Content) (headers : Option OwnedHeaders) (timestamp : Int)
    (clock : Clock) (b : InMemoryBackend) (o : Outcome RmqError (Int × Int × Int)) (b' : InMemoryBackend) : Prop :=
  (∃ offset, o = .ok (partition, offset, timestamp) ∧ Appended topic partition
    (content.message topic partition offset timestamp headers clock.created) b b') ∨
  ((∀ r, o ≠ .ok r) ∧ b.Quiet b')

theorem after_produce (topic : String) (partition : Int) (content : Content) (headers : Option OwnedHeaders)
    (timestamp : Option Int) (clock : Clock) {b b' : InMemoryBackend} (hb : b.Quiet b') :
    (produce topic partition content headers timestamp clock).After Later Quiet
      (Produced topic partition content headers (timestamp.getD clock.wall) clock) b b' := by
  have hquiet : ∀ (o : Outcome RmqError (Int × Int × Int)) (b b' : InMemoryBackend), (∀ r, o ≠ .ok r) →
      b.Quiet b' → Produced topic partition content headers (timestamp.getD clock.wall) clock b o b' :=
    fun o b b' ho h => Or.inr ⟨ho, h⟩
  refine (readOnly_checkShutdown.always Quiet.refl).after hb |>.bind (fun _ b b' hb => ?_)
    (fun e b b' hb => hquiet _ b b' (by simp) hb) (fun b b' hb => hquiet _ b b' (by simp) hb)
  -- the address that is read stays the one of the topic
  have hget : (getTopic topic).After Later Quiet
      (fun b o b' => b.Quiet b' ∧ ∀ a, o = .ok a → b'.topics.lookup topic = some a) b b' := by
    refine Act.after_read.2 ⟨hb, fun c _ => ⟨.refl c, fun a ha => ?_⟩⟩
    cases hl : c.topics.lookup topic with
    | none => simp [hl] at ha
    | some a' =>
      simp only [hl, Outcome.ok.injEq] at ha
      rw [ha]
  refine hget.bind (fun a b b' hb => ?_) (fun e b b' hb => hquiet _ b b' (by simp) hb.1)
    (fun b b' hb => hquiet _ b b' (by simp) hb.1)
  have hprod : (produceAt a partition content headers (some (timestamp.getD clock.wall)) clock).After Later Quiet
      (fun b o b' => (∃ offset, o = .ok (partition, offset) ∧ Appended topic partition
        (content.message topic partition offset (timestamp.getD clock.wall) headers clock.created) b b') ∨
        ((∀ r, o ≠ .ok r) ∧ b.Quiet b')) b b' :=
    Act.after_step.2 ⟨hb.1, fun c hc => appended_of_run (hc.topics _ _ (hb.2 a rfl)) _ _ _ _ _ rfl⟩
  refine hprod.bind (fun r b b' hr => ?_) (fun e b b' hr => ?_) (fun b b' hr => ?_)
  · rcases hr with ⟨offset, hr, ha⟩ | ⟨hr, -⟩
    · obtain rfl := Outcome.ok.inj hr
      exact Or.inl ⟨offset, rfl, ha⟩
    · exact absurd rfl (hr r)
  · rcases hr with ⟨offset, hr, -⟩ | ⟨-, hq⟩
    · cases hr
    · exact hquiet _ b b' (by simp) hq
  · rcases hr with ⟨offset, hr, -⟩ | ⟨-, hq⟩
    · cases hr
    · exact hquiet _ b b' (by simp) hq

end InMemoryBackend

/-! ### Steps of the broker -/

namespace Broker

/-- A step that leaves every log as it is. -/
structure Quiet (b b' : Broker π) : Prop where
  backend : b.backend.Quiet b'.backend
  shutdown : b'.shutdown = b.shutdown

theorem Quiet.refl (b : Broker π) : b.Quiet b := ⟨.refl _, rfl⟩

private theorem quiet_put {b : Broker π} {backend : InMemoryBackend} (h : b.backend.Quiet backend) :
    b.Quiet { b with backend } := ⟨h, rfl⟩

/-- What the last step of a `produce` call does. -/
def Produced (c : ProduceCall) (b : Broker π) (o : Outcome RmqError RecordMetadata) (b' : Broker π) : Prop :=
  (∃ r, o = .ok r ∧ r.topic = c.topic ∧ r.timestamp = c.timestamp.getD c.clock.wall ∧ b'.shutdown = b.shutdown ∧
    InMemoryBackend.Appended r.topic r.partition (c.stored r) b.backend b'.backend) ∨
  ((∀ r, o ≠ .ok r) ∧ b.Quiet b')

private theorem always_quiet_ensureTopic (topic : String) (n : Int) :
    (ensureTopic topic n : BrokerM π Unit).Always Quiet := by
  refine Act.Always.zoom (R := InMemoryBackend.Quiet) ?_ fun b s h => quiet_put h
  refine (InMemoryBackend.readOnly_checkShutdown.always InMemoryBackend.Quiet.refl).bind fun _ => ?_
  refine ((Act.readOnly_read _).always InMemoryBackend.Quiet.refl).bind fun known => ?_
  cases known
  · exact Act.always_modify fun b => InMemoryBackend.quiet_insertTopic b _ _
  · trivial

private theorem always_quiet_metadata (brokerId : String) (topic : Option String) :
    (onBackend (InMemoryBackend.metadata brokerId topic) : BrokerM π Metadata).Always Quiet :=
  Act.Always.zoom ((InMemoryBackend.readOnly_metadata _ _).always InMemoryBackend.Quiet.refl) fun _ _ h => quiet_put h

private theorem always_quiet_recordPartition [Partitioner π] (partition : Option Int) (topic : String)
    (key : Option Bytes) (n : Int) : (recordPartition partition topic key n : BrokerM π Int).Always Quiet := by
  cases partition with
  | some p => trivial
  | none => exact Act.always_step fun b => ⟨.refl _, rfl⟩

/-- The steps of a `produce` call leave every log as it is, up to the last one. -/
theorem after_produce [Partitioner π] (c : ProduceCall) {b b' : Broker π} (hb : b.Quiet b') :
    c.body.After (fun b b' => b.backend.Later b'.backend) Quiet (Produced c) b b' := by
  have hbind : ∀ {α : Type} {x : BrokerM π α} {g : α → BrokerM π RecordMetadata} {b b' : Broker π},
      x.Always Quiet → b.Quiet b' →
      (∀ a b b', b.Quiet b' → (g a).After (fun b b' => b.backend.Later b'.backend) Quiet (Produced c) b b') →
      (x >>= g).After (fun b b' => b.backend.Later b'.backend) Quiet (Produced c) b b' :=
    fun hx hb hg => Act.After.always_bind hx hb hg (fun _ _ _ h => Or.inr ⟨by simp, h⟩)
      fun _ _ h => Or.inr ⟨by simp, h⟩
  refine hbind ((Act.readOnly_read _).always Quiet.refl) hb fun _ b b' hb => ?_
  refine hbind ((Act.readOnly_read _).always Quiet.refl) hb fun config b b' hb => ?_
  refine hbind (always_quiet_ensureTopic _ _) hb fun _ b b' hb => ?_
  refine hbind (always_quiet_metadata _ _) hb fun metadata b b' hb => ?_
  refine hbind (always_quiet_recordPartition _ _ _ _) hb fun p b b' hb => ?_
  -- every step so far has left the logs alone; this one is the append
  have hlast : (onBackend (InMemoryBackend.produce c.topic p c.content c.headers c.timestamp c.clock) :
      BrokerM π _).After (fun b b' => b.backend.Later b'.backend) Quiet
      (fun b o b' => InMemoryBackend.Produced c.topic p c.content c.headers (c.timestamp.getD c.clock.wall) c.clock
        b.backend o b'.backend ∧ b'.shutdown = b.shutdown) b b' :=
    Act.After.zoom (InMemoryBackend.after_produce _ _ _ _ _ _ hb.backend) (fun _ => hb)
      (fun _ h => ⟨h, hb.shutdown⟩) (fun _ _ h => h) (fun _ _ h => quiet_put h) (fun _ _ _ h => ⟨h, rfl⟩)
  refine hlast.bind (fun r b b' hr => ?_) (fun e b b' hr => ?_) (fun b b' hr => ?_)
  · rcases hr with ⟨⟨offset, hr, ha⟩ | ⟨hr, -⟩, hs⟩
    · obtain rfl := Outcome.ok.inj hr
      exact Or.inl ⟨_, rfl, rfl, rfl, hs, ha⟩
    · exact absurd rfl (hr r)
  · rcases hr with ⟨⟨offset, hr, -⟩ | ⟨-, hq⟩, hs⟩
    · cases hr
    · exact Or.inr ⟨by simp, hq, hs⟩
  · rcases hr with ⟨⟨offset, hr, -⟩ | ⟨-, hq⟩, hs⟩
    · cases hr
    · exact Or.inr ⟨by simp, hq, hs⟩

end Broker

/-! ### The contract -/

/-- How a broker and the calls that have ended on it are related. -/
structure Ties (b : Broker π) (history : List (Ended ι)) : Prop where
  running : b.backend.shutdown = false
  log : ∀ topic partition, (b.backend.log topic partition).history = history.filterMap (appendedTo topic partition)
  named : ∀ e ∈ history, ∀ r, e.2.2 = .ok r →
    r.topic = e.2.1.topic ∧ r.timestamp = e.2.1.timestamp.getD e.2.1.clock.wall

/-- What the threads do to one another. -/
def produceProtocol (ι π : Type) : Protocol ι ProduceCall (Broker π) RmqError RecordMetadata where
  rely _ b b' := b.backend.Later b'.backend
  inner _ _ b b' := b.Quiet b'
  last _ _ c b o b' := b.Produced c o b'
  rely_refl _ b := .refl b.backend
  rely_trans _ _ _ _ h₁ h₂ := h₁.trans h₂
  inner_rely _ _ _ _ _ _ h := h.backend.later
  last_rely _ _ _ _ _ _ _ _ h := by
    rcases h with ⟨r, -, -, -, -, h⟩ | ⟨-, h⟩
    · exact h.later
    · exact h.backend.later

private theorem filterMap_concat {α β : Type} (f : α → Option β) (l : List α) (a : α) :
    (l ++ [a]).filterMap f = l.filterMap f ++ (f a).toList := by
  rw [List.filterMap_append]
  cases h : f a <;> simp [h]

private theorem Ties.quiet {b b' : Broker π} {history : List (Ended ι)} (h : Ties b history) (hq : b.Quiet b') :
    Ties b' history := by
  refine ⟨hq.backend.shutdown.trans h.running, fun topic partition => ?_, h.named⟩
  rw [hq.backend.log, h.log]

private theorem Ties.ended {b b' : Broker π} {history : List (Ended ι)} (h : Ties b history) {i : ι}
    {c : ProduceCall} {o : Outcome RmqError RecordMetadata} (hp : b.Produced c o b') :
    Ties b' (history ++ [(i, c, o)]) := by
  rcases hp with ⟨r, rfl, ht, hts, -, ha⟩ | ⟨ho, hq⟩
  · refine ⟨ha.shutdown.trans h.running, fun topic partition => ?_, fun e he r' hr => ?_⟩
    · rw [ha.history, h.log, filterMap_concat]
      simp only [appendedTo, @eq_comm _ topic, @eq_comm _ partition]
      split <;> rfl
    · rcases List.mem_append.1 he with he | he
      · exact h.named e he r' hr
      · obtain rfl := List.mem_singleton.1 he
        obtain rfl := Outcome.ok.inj hr
        exact ⟨ht, hts⟩
  -- a call without a record has appended to no partition
  · have hnone : ∀ topic partition, appendedTo topic partition ((i, c, o) : Ended ι) = none := by
      intro topic partition
      unfold appendedTo
      split
      · rename_i r hr
        exact absurd hr (ho r)
      · rfl
    have hq' := h.quiet hq
    refine ⟨hq'.running, fun topic partition => ?_, fun e he r hr => ?_⟩
    · rw [hq'.log, filterMap_concat, hnone, Option.toList_none, List.append_nil]
    · rcases List.mem_append.1 he with he | he
      · exact h.named e he r hr
      · obtain rfl := List.mem_singleton.1 he
        exact absurd hr (ho r)

variable [DecidableEq ι] [Partitioner π]

/-- The broker and its calls after a schedule. -/
abbrev afterProduces (b : Broker π) (sched : List (Choice ι ProduceCall)) :
    System ι ProduceCall (Broker π) RmqError RecordMetadata :=
  System.exec ProduceCall.body (.init b) sched

/-- The run lemma: after every schedule the broker is tied to the calls that have ended. -/
theorem ties_afterProduces {config : RmqClientConfig} {partitioner : π} {b : Broker π}
    (hb : Broker.withPartitioner config partitioner = .ok b) (sched : List (Choice ι ProduceCall)) :
    Ties (afterProduces b sched).shared (afterProduces b sched).history := by
  refine System.exec_invariant (produceProtocol ι π) Ties (fun _ _ => True)
    (fun _ c b _ _ _ => Broker.after_produce c (.refl b)) (fun _ _ _ _ hq h => h.quiet hq)
    (fun _ _ _ _ _ _ hp h => h.ended hp) (fun _ _ _ => trivial) ?_
  obtain ⟨c, -, rfl⟩ := Broker.withPartitioner_eq_ok.1 hb
  refine ⟨rfl, fun topic partition => ?_, by simp⟩
  simp only [InMemoryBackend.log, InMemoryBackend.partition?, InMemoryBackend.topic?_new]
  rfl

/-- The offsets of the places in one partition. -/
def offsetsAt (topic : String) (partition : Int) (places : List (String × Int × Int)) : List Int :=
  (places.filter fun place => place.1 = topic ∧ place.2.1 = partition).map (·.2.2)

/-- The messages of one partition, as `fetch_one` reads them. -/
structure FetchContract (b : Broker π) (history : List (Ended ι)) (topic : String) (partition : Int) (p : Partition) :
    Prop where
  consecutive : p.buffer.log.map (·.offset) =
    (List.range p.buffer.log.length).map fun i : Nat => p.buffer.nextOffset - p.buffer.log.length + i
  retained : ∀ o m, ((InMemoryBackend.fetchOne topic partition o).run b.backend).1 = .ok (some m) ↔
    m ∈ p.buffer.log ∧ m.offset = o
  content : ∀ o m, ((InMemoryBackend.fetchOne topic partition o).run b.backend).1 = .ok (some m) →
    ∃ i c r, (i, c, .ok r) ∈ history ∧ r.topic = topic ∧ r.partition = partition ∧ r.offset = o ∧
      r.timestamp = c.timestamp.getD c.clock.wall ∧ m = c.stored r
  atEnd : ∀ o, ((InMemoryBackend.fetchOne topic partition o).run b.backend).1 = .ok none ↔
    o = p.buffer.nextOffset ∨ (o = 0 ∧ p.buffer.log = [])
  outOfRange : ∀ o, (∀ m ∈ p.buffer.log, m.offset ≠ o) → o ≠ p.buffer.nextOffset → ¬(o = 0 ∧ p.buffer.log = []) →
    ((InMemoryBackend.fetchOne topic partition o).run b.backend).1 = .err (.offsetOutOfRange topic partition o)

omit [DecidableEq ι] [Partitioner π]

private theorem offsetsAt_reported (topic : String) (partition : Int) (history : List (Ended ι)) :
    offsetsAt topic partition (history.filterMap reported) =
      (history.filterMap (appendedTo topic partition)).map (·.offset) := by
  induction history with
  | nil => rfl
  | cons e history ih =>
    obtain ⟨i, c, o⟩ := e
    cases o with
    | ok r =>
      have hcons : offsetsAt topic partition ((r.topic, r.partition, r.offset) :: history.filterMap reported) =
          if r.topic = topic ∧ r.partition = partition then
            r.offset :: offsetsAt topic partition (history.filterMap reported)
          else offsetsAt topic partition (history.filterMap reported) := by
        unfold offsetsAt
        split <;> rename_i h <;> simp [h]
      have hreported : ((i, c, .ok r) :: history).filterMap reported =
          (r.topic, r.partition, r.offset) :: history.filterMap reported := rfl
      rw [hreported, hcons, ih]
      split <;> rename_i h <;> simp [appendedTo, h, ProduceCall.stored]
    | err e => exact ih
    | panic => exact ih

/-- The successful calls report the offsets of a partition in turn. -/
private theorem Ties.offsets {b : Broker π} {history : List (Ended ι)} (h : Ties b history) (topic : String)
    (partition : Int) : offsetsAt topic partition (history.filterMap reported) =
      (List.range (b.backend.log topic partition).next).map Int.ofNat := by
  rw [offsetsAt_reported, ← h.log]
  refine List.ext_getElem (by simp [TrimmedLog.next]) fun i hi _ => ?_
  rw [List.getElem_map, List.getElem_map, List.getElem_range]
  rw [List.length_map] at hi
  exact (InMemoryBackend.stamped (List.getElem?_eq_getElem hi)).1

private theorem nodup_of_offsetsAt {places : List (String × Int × Int)}
    (h : ∀ topic partition, (offsetsAt topic partition places).Nodup) : places.Nodup := by
  induction places with
  | nil => exact List.nodup_nil
  | cons place places ih =>
    obtain ⟨topic, partition, offset⟩ := place
    refine List.nodup_cons.2 ⟨fun hmem => ?_, ih fun t p => ?_⟩
    · have hn := h topic partition
      simp only [offsetsAt, List.filter_cons, and_self, decide_true, ↓reduceIte, List.map_cons,
        List.nodup_cons] at hn
      exact hn.1 (List.mem_map.2 ⟨_, List.mem_filter.2 ⟨hmem, by simp⟩, rfl⟩)
    · exact (h t p).sublist ((List.sublist_cons_self ..).filter _ |>.map _)

private theorem Ties.fetch {b : Broker π} {history : List (Ended ι)} (h : Ties b history) {topic : String}
    {partition : Int} {p : Partition} (hp : b.backend.partition? topic partition = some p) :
    FetchContract b history topic partition p := by
  have hfetch : ∀ o, ((InMemoryBackend.fetchOne topic partition o).run b.backend).1 =
      InMemoryBackend.ofResult (p.readOne o) := by
    intro o
    rw [InMemoryBackend.run_fetchOne h.running, hp]
    rfl
  have hretained : ∀ o m, ((InMemoryBackend.fetchOne topic partition o).run b.backend).1 = .ok (some m) ↔
      m ∈ p.buffer.log ∧ m.offset = o := by
    intro o m
    rw [hfetch, InMemoryBackend.ofResult_eq_ok, p.mem_log_iff, p.readOne_eq_some_iff]
  refine ⟨p.offsets_eq, hretained, fun o m hm => ?_, fun o => ?_, fun o h₁ h₂ h₃ => ?_⟩
  · obtain ⟨n, rfl, hg⟩ := p.mem_log_iff.1 ((hretained o m).1 hm)
    have hmem : m ∈ history.filterMap (appendedTo topic partition) := by
      rw [← h.log, InMemoryBackend.log_of_partition? hp]
      exact List.mem_of_mem_drop (TrimmedLog.mem_retained_of_get? hg)
    -- the call that has appended the message
    obtain ⟨⟨i, c, o⟩, he, hm⟩ := List.mem_filterMap.1 hmem
    unfold appendedTo at hm
    split at hm
    · rename_i r hr
      split at hm
      · rename_i hplace
        obtain rfl := Option.some.inj hm
        obtain rfl : o = .ok r := hr
        refine ⟨i, c, r, he, hplace.1, hplace.2, ?_, (h.named _ he r rfl).2, rfl⟩
        rw [← (p.stamped_of_get? hg).1, ProduceCall.stored, Content.message_offset]
      · cases hm
    · cases hm
  · rw [hfetch, InMemoryBackend.ofResult_eq_ok, p.readOne_eq_none_iff, p.abs_next, p.abs_retained]
  · obtain ⟨hname, hid⟩ := InMemoryBackend.named_of_partition? hp
    -- neither retained nor at the end: `read_one` has only the error left
    rcases p.readOne_cases o with ⟨n, m, rfl, hg, -⟩ | ⟨ho, -⟩ | ⟨-, -, hr⟩
    · obtain ⟨hm, hmo⟩ := p.mem_log_iff.2 ⟨n, rfl, hg⟩
      exact absurd hmo (h₁ m hm)
    · rw [p.abs_next, p.abs_retained] at ho
      rcases ho with ho | ho
      · exact absurd ho h₂
      · exact absurd ho h₃
    · rw [hfetch, hr, Partition.outOfRange, hname, hid]
      rfl

variable [DecidableEq ι] [Partitioner π]

/-- **Log contract.**  After any interleaving of `produce` and `produce_typed` calls, the successful ones have reported
no place twice and, for every partition, the offsets `0, 1, 2, …` in the order of their appends; its log holds
consecutive offsets up to `next_offset - 1`; and a fetch returns exactly the retained message of an offset, which is
the one of the call that reported this offset. -/
theorem log_contract {config : RmqClientConfig} {partitioner : π} {b : Broker π}
    (hb : Broker.withPartitioner config partitioner = .ok b) (sched : List (Choice ι ProduceCall)) :
    ((afterProduces b sched).history.filterMap reported).Nodup ∧
    ∀ (topic : String) (partition : Int),
      offsetsAt topic partition ((afterProduces b sched).history.filterMap reported) =
        (List.range ((afterProduces b sched).shared.backend.log topic partition).next).map Int.ofNat ∧
      ∀ p, (afterProduces b sched).shared.backend.partition? topic partition = some p →
        FetchContract (afterProduces b sched).shared (afterProduces b sched).history topic partition p := by
  have hties := ties_afterProduces hb sched
  refine ⟨nodup_of_offsetsAt fun topic partition => ?_, fun topic partition =>
    ⟨hties.offsets topic partition, fun p hp => hties.fetch hp⟩⟩
  rw [hties.offsets]
  exact List.nodup_range.map fun m n h => Int.ofNat.inj h

/-- Two threads whose calls to one partition interleave step by step. -/
theorem log_contract_two_threads :
    let config := RmqClientConfig.new.set ConfigKeys.brokerId "b"
    let call : ProduceCall := ⟨"t", some 0, .raw none none, none, none, ⟨7, 0, fun _ => 0⟩⟩
    let sched := [.call 0 call, .call 1 call] ++ (List.replicate 15 [Choice.step 0, .step 1]).flatten
    ∃ b : Broker RoundRobinPartitioner, Broker.withPartitioner config .new = .ok b ∧
      (afterProduces b sched).history.filterMap reported = [("t", 0, 0), ("t", 0, 1)] ∧
      ((afterProduces b sched).history.filterMap reported).Nodup := by
  refine ⟨_, rfl, by decide +kernel, ?_⟩
  have hb : Broker.withPartitioner (RmqClientConfig.new.set ConfigKeys.brokerId "b") RoundRobinPartitioner.new =
      .ok _ := rfl
  exact (log_contract hb _).1

end RMemQueue
