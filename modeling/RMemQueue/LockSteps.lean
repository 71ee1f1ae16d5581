import RMemQueue.Integrity
import RMemQueue.Lib.LockSteps
import RMemQueue.LockedCalls

/-!
# Critical sections as atomic steps

The operations of `World` take the critical sections of the source for single steps.  With its locks an operation reads and
writes in steps of their own, and what it has read in a section is still so when it writes, because others change what a lock
guards only with that lock held to write.

* `LockedWorld.guards`: what each lock guards.
* `LockedWorld.refines_body`: under that discipline the operations with their locks do what the operations of `World` do.
* `steps_of_locks`: whatever threads do that take the locks, the threads of the other modules can do.
* `unlocked_sends_lose`: without the locks they can also lose a message.
-/

namespace RMemQueue

open Conc LockAct

/-! ### What the locks guard -/

namespace InMemoryBackend

/-- The partition that a lock guards is the same, but for the handle by which waiting tasks are notified. -/
def SamePartition (b : InMemoryBackend) (a : TopicRef) (id : Int) (b' : InMemoryBackend) : Prop :=
  ∀ p, b.partitionAt a id = some p → ∃ p', b'.partitionAt a id = some p' ∧ p'.withoutNotify = p.withoutNotify

theorem SamePartition.of_eq {a : TopicRef} {id : Int} {b b' : InMemoryBackend}
    (h : b'.partitionAt a id = b.partitionAt a id) : b.SamePartition a id b' := fun p hp => ⟨p, h.trans hp, rfl⟩

theorem SamePartition.trans {a : TopicRef} {id : Int} {b₁ b₂ b₃ : InMemoryBackend} (h₁ : b₁.SamePartition a id b₂)
    (h₂ : b₂.SamePartition a id b₃) : b₁.SamePartition a id b₃ := by
  intro p hp
  obtain ⟨p', hp', he⟩ := h₁ p hp
  obtain ⟨p'', hp'', he'⟩ := h₂ p' hp'
  exact ⟨p'', hp'', he'.trans he⟩

/-- `inner` guards the topics and the flag, and the lock of a partition guards its buffer; what the lock of a topic guards
never changes. -/
def guards : Guards Lock InMemoryBackend where
  same
    | .backend, b, b' => b'.topics = b.topics ∧ b'.shutdown = b.shutdown
    | .partition a id, b, b' => b.SamePartition a id b'
    | _, _, _ => True
  same_refl l b := by
    cases l with
    | backend => exact ⟨rfl, rfl⟩
    | partition a id => exact .of_eq rfl
    | _ => trivial
  same_trans l b₁ b₂ b₃ h₁ h₂ := by
    cases l with
    | backend => exact ⟨h₂.1.trans h₁.1, h₂.2.trans h₁.2⟩
    | partition a id => exact SamePartition.trans h₁ h₂
    | _ => trivial

end InMemoryBackend

namespace Broker

variable {π : Type}

/-- `inner` guards the flag and which groups there are. -/
def guards : Guards Lock (Broker π) where
  same
    | .broker, b, b' => b'.shutdown = b.shutdown ∧
        ∀ gid, (b'.consumerGroups.lookup gid).isSome = (b.consumerGroups.lookup gid).isSome
    | .group gid, b, b' => ∀ g, b.consumerGroups.lookup gid = some g → b'.consumerGroups.lookup gid = some g
    | .offsets, b, b' => b'.offsetStore = b.offsetStore
    | l, b, b' => InMemoryBackend.guards.same l b.backend b'.backend
  same_refl l b := by
    cases l with
    | broker => exact ⟨rfl, fun _ => rfl⟩
    | group gid => exact fun _ h => h
    | offsets => exact rfl
    | _ => exact InMemoryBackend.guards.same_refl _ _
  same_trans l b₁ b₂ b₃ h₁ h₂ := by
    cases l with
    | broker => exact ⟨h₂.1.trans h₁.1, fun gid => (h₂.2 gid).trans (h₁.2 gid)⟩
    | group gid => exact fun g h => h₂ g (h₁ g h)
    | offsets => exact Eq.trans h₂ h₁
    | _ => exact InMemoryBackend.guards.same_trans _ _ _ _ h₁ h₂

/-- A step of the broker that leaves the backend alone. -/
theorem same_of_parts {b b' : Broker π} {l : Lock} (hbackend : b'.backend = b.backend)
    (hbroker : l = .broker → b'.shutdown = b.shutdown ∧
      ∀ gid, (b'.consumerGroups.lookup gid).isSome = (b.consumerGroups.lookup gid).isSome)
    (hgroup : ∀ gid, l = .group gid → ∀ g, b.consumerGroups.lookup gid = some g → b'.consumerGroups.lookup gid = some g)
    (hoffsets : l = .offsets → b'.offsetStore = b.offsetStore) : guards.same l b b' := by
  cases l with
  | broker => exact hbroker rfl
  | group gid => exact hgroup gid rfl
  | offsets => exact hoffsets rfl
  | consumer i => trivial
  | topic a => trivial
  | backend => exact ⟨congrArg InMemoryBackend.topics hbackend, congrArg InMemoryBackend.shutdown hbackend⟩
  | partition a id => exact .of_eq (congrArg (InMemoryBackend.partitionAt · a id) hbackend)

theorem keeps_backend : (backendLens (π := π)).Keeps guards InMemoryBackend.guards := by
  refine ⟨fun l b b' h => ?_, fun l b s h => ?_⟩
  · cases l with
    | consumer i => trivial
    | broker => trivial
    | group gid => trivial
    | offsets => trivial
    | _ => exact h
  · cases l with
    | broker => exact ⟨rfl, fun _ => rfl⟩
    | group gid => exact fun _ h => h
    | offsets => exact rfl
    | _ => exact h

end Broker

namespace Session

variable {π : Type}

/-- The mutex of consumer `i` guards its state. -/
def guards (i : Nat) : Guards Lock (Session π) where
  same
    | .consumer j, s, s' => j = i → s'.state = s.state
    | l, s, s' => Broker.guards.same l s.broker s'.broker
  same_refl l s := by
    cases l with
    | consumer j => exact fun _ => rfl
    | _ => exact Broker.guards.same_refl _ _
  same_trans l s₁ s₂ s₃ h₁ h₂ := by
    cases l with
    | consumer j => exact fun hj => (h₂ hj).trans (h₁ hj)
    | _ => exact Broker.guards.same_trans _ _ _ _ h₁ h₂

theorem keeps_broker (i : Nat) : (brokerLens (π := π)).Keeps (guards i) Broker.guards := by
  refine ⟨fun l s s' h => ?_, fun l s b h => ?_⟩
  · cases l with
    | consumer j => exact Broker.guards.same_refl (.consumer j) s.broker
    | _ => exact h
  · cases l with
    | consumer j => exact fun _ => rfl
    | _ => exact h

end Session

namespace World

variable {π : Type}

def guards : Guards Lock (World π) where
  same
    | .consumer j, w, w' => w'.consumers j = w.consumers j
    | l, w, w' => Broker.guards.same l w.broker w'.broker
  same_refl l w := by
    cases l with
    | consumer j => exact rfl
    | _ => exact Broker.guards.same_refl _ _
  same_trans l w₁ w₂ w₃ h₁ h₂ := by
    cases l with
    | consumer j => exact Eq.trans h₂ h₁
    | _ => exact Broker.guards.same_trans _ _ _ _ h₁ h₂

theorem keeps_broker : (brokerLens (π := π)).Keeps guards Broker.guards := by
  refine ⟨fun l w w' h => ?_, fun l w b h => ?_⟩
  · cases l with
    | consumer j => exact Broker.guards.same_refl (.consumer j) w.broker
    | _ => exact h
  · cases l with
    | consumer j => exact rfl
    | _ => exact h

/-- An operation of one consumer leaves the states of the others alone. -/
theorem keeps_session (i : Nat) : (sessionLens (π := π) i).Keeps guards (Session.guards i) := by
  refine ⟨fun l w w' h => ?_, fun l w s h => ?_⟩
  · cases l with
    | consumer j =>
      rintro rfl
      exact h
    | _ => exact h
  · cases l with
    | consumer j =>
      show Function.update w.consumers i s.state j = w.consumers j
      by_cases hj : j = i
      · subst hj
        rw [Function.update_self]
        exact h rfl
      · exact Function.update_of_ne hj ..
    | _ => exact h

end World

/-! ### The backend -/

namespace LockedBackend

open InMemoryBackend (guards noPartition orElse ofResult)

variable {α : Type}

theorem refines_readInner (g : InMemoryBackend → Outcome RmqError α) : (readInner g).Refines guards (.read g) :=
  refines_read _ _ g

/-- The section of a partition's lock is the step; without such a partition it is the look for it. -/
theorem refines_onPartition {a : TopicRef} {id : Int} {missing : InMemoryBackend → Outcome RmqError α} {x : BackendL α}
    {f : InMemoryBackend → Outcome RmqError α × InMemoryBackend} (hx : x.Refines guards (.step f))
    (hf : ∀ b, b.partitionAt a id = none → f b = (missing b, b)) :
    (onPartition a id missing x).Refines guards (.step f) := by
  intro held b c _ d hd
  refine ⟨.refl _ d, ?_⟩
  cases hp : d.partitionAt a id with
  | none =>
    have hfd := hf d hp
    refine Or.inr ⟨_, _, rfl, congrArg Prod.snd hfd, ?_⟩
    show (if (d.partitionAt a id).isSome then LockAct.release x else .release (.ret (missing d))).Implements guards _ d
      (.ret (f d).1)
    rw [hp, hfd]
    exact fun _ _ => rfl
  | some p =>
    refine Or.inl ⟨rfl, ?_⟩
    show (if (d.partitionAt a id).isSome then LockAct.release x else .release (.ret (missing d))).Implements guards _ d
      (.step f)
    rw [hp]
    exact fun e _ => hx _ e

/-- A read of the partition's lock. -/
theorem refines_onPartition_read {a : TopicRef} {id : Int} {missing : InMemoryBackend → Outcome RmqError α}
    {x : BackendL α} {h : Partition → Outcome RmqError α}
    (hx : x.Refines guards (.read fun b => (b.partitionAt a id).elim (missing b) h)) :
    (onPartition a id missing x).Refines guards (.read fun b => (b.partitionAt a id).elim (missing b) h) := by
  refine refines_onPartition (f := fun b => ((b.partitionAt a id).elim (missing b) h, b)) hx fun b hb => ?_
  rw [hb]
  rfl

/-- Who reads a partition a second time with its lock held finds the same buffer. -/
private theorem buffer_of_same {a : TopicRef} {id : Int} {b b' : InMemoryBackend} (h : b.SamePartition a id b') {p : Partition}
    (hp : b.partitionAt a id = some p) : ∃ p', b'.partitionAt a id = some p' ∧ p'.buffer = p.buffer := by
  obtain ⟨p', hp', he⟩ := h p hp
  have hbuffer := congrArg Partition.buffer he
  exact ⟨p', hp', hbuffer⟩

theorem refines_readOne (a : TopicRef) (id offset : Int) : (readOne a id offset).Refines guards
    (.read fun b => (b.partitionAt a id).elim (noPartition a id b) fun p => ofResult (p.readOne offset)) := by
  refine refines_inspect (fun b => ?_) fun b c idx hfirst hsame => ?_
  · cases hp : b.partitionAt a id with
    | none => rfl
    | some p =>
      show ofResult (p.readOne offset) = _
      rw [p.readOne_eq_findOne]
      rfl
  · cases hp : b.partitionAt a id with
    | none =>
      rw [hp] at hfirst
      cases hfirst
    | some p =>
      obtain ⟨p', hp', hbuffer⟩ := buffer_of_same hsame hp
      rw [hp']
      show p'.messageAt idx = p.messageAt idx
      rw [Partition.messageAt, hbuffer]
      rfl

theorem refines_readWatermarks (a : TopicRef) (id : Int) (missing : InMemoryBackend → Outcome RmqError (Int × Int)) :
    (readWatermarks a id missing).Refines guards
      (.read fun b => (b.partitionAt a id).elim (missing b) fun p => .ok p.watermarks) := by
  refine refines_inspect (fun b => ?_) fun b c next hfirst hsame => ?_
  · cases hp : b.partitionAt a id with
    | none => rfl
    | some p =>
      simp only [Option.elim_some, Sum.elim_inr]
      rfl
  · cases hp : b.partitionAt a id with
    | none =>
      rw [hp] at hfirst
      cases hfirst
    | some p =>
      obtain ⟨p', hp', hbuffer⟩ := buffer_of_same hsame hp
      simp only [hp', hbuffer]

theorem appended_eq_some {a : TopicRef} {id : Int} {content : Content} {headers : Option OwnedHeaders}
    {timestamp : Option Int} {clock : Clock} {b : InMemoryBackend} {o : Outcome RmqError (Int × Int)} {q : Partition}
    (h : appended a id content headers timestamp clock b = (o, some q)) : ∃ p r, b.partitionAt a id = some p ∧ o = .ok r ∧
      p.withoutNotify.appendContent content headers timestamp clock = some (r, q) := by
  unfold appended at h
  split at h
  · cases h
  · rename_i p hp
    split at h
    · cases h
    · rename_i r p' ha
      cases h
      exact ⟨p, r, hp, rfl, ha⟩

/-- The partition that is read under the lock is still the same when its buffer is overwritten. -/
theorem refines_append (a : TopicRef) (id : Int) (content : Content) (headers : Option OwnedHeaders)
    (timestamp : Option Int) (clock : Clock) : (append a id content headers timestamp clock).Refines guards
      (.step (InMemoryBackend.produceAt a id content headers timestamp clock).run) := by
  refine refines_update (fun b => ?_) (fun b c o q hq hsame => ?_) fun b o q _ l hl => ?_
  · unfold appended
    cases hp : b.partitionAt a id with
    | none => exact InMemoryBackend.run_produceAt_of_none hp content headers timestamp clock
    | some p =>
      cases ha : p.appendContent content headers timestamp clock with
      | none =>
        rw [InMemoryBackend.run_produceAt_of_overflow hp ha]
        simp only [p.appendContent_withoutNotify, ha]
        rfl
      | some r =>
        obtain ⟨r, p'⟩ := r
        rw [InMemoryBackend.run_produceAt_of_append hp ha]
        simp only [p.appendContent_withoutNotify, ha]
        rfl
  · obtain ⟨p, r, hp, rfl, ha⟩ := appended_eq_some hq
    obtain ⟨p', hp', he⟩ := hsame p hp
    simp only [appended, hp', he, ha]
  · cases l with
    | backend => exact ⟨b.topics_storePartition a id q, b.shutdown_storePartition a id q⟩
    | partition a' id' =>
      refine .of_eq (b.partitionAt_storePartition_ne (fun ha hid => hl ?_) q)
      rw [ha, hid]
    | _ => trivial

theorem refines_produceAt (a : TopicRef) (partition : Int) (content : Content) (headers : Option OwnedHeaders)
    (timestamp : Option Int) (clock : Clock) : (produceAt a partition content headers timestamp clock).Refines guards
      (InMemoryBackend.produceAt a partition content headers timestamp clock) :=
  refines_onPartition (refines_append a partition content headers timestamp clock) fun _ hb =>
    InMemoryBackend.run_produceAt_of_none hb content headers timestamp clock

theorem refines_checkShutdown : checkShutdown.Refines guards InMemoryBackend.checkShutdown := refines_readInner _

theorem refines_getTopic (topic : String) : (getTopic topic).Refines guards (InMemoryBackend.getTopic topic) :=
  refines_readInner _

/-- Who has looked the name up with `inner` locked to write binds a topic to it that nobody has bound before. -/
theorem refines_insertTopic (topic : String) (n : Int) :
    (insertTopic topic n).Refines guards (.modify fun b => b.insertTopic topic n) := by
  show (insertTopic topic n).Refines guards (.step fun b : InMemoryBackend => (.ok (), b.insertTopic topic n))
  refine refines_update (fun b => ?_) (fun b c o u hu hsame => ?_) fun b o u hu l hl => ?_
  · rw [InMemoryBackend.insertTopic_eq_bindTopic]
    split
    · rfl
    · rfl
  · rw [hsame.1]
    exact hu
  · cases l with
    | backend => exact absurd rfl hl
    | partition a id => exact fun p hp => ⟨p, InMemoryBackend.partitionAt_bindTopic hp topic n, rfl⟩
    | _ => trivial

theorem refines_ensureTopic (topic : String) (n : Int) :
    (ensureTopic topic n).Refines guards (InMemoryBackend.ensureTopic topic n) := by
  refine refines_checkShutdown.bind fun _ => ?_
  refine (refines_readInner _).bind fun known => ?_
  cases known with
  | true => exact refines_pure ()
  | false => exact refines_insertTopic topic n

theorem refines_produce (topic : String) (partition : Int) (content : Content) (headers : Option OwnedHeaders)
    (timestamp : Option Int) (clock : Clock) : (produce topic partition content headers timestamp clock).Refines guards
      (InMemoryBackend.produce topic partition content headers timestamp clock) := by
  refine refines_checkShutdown.bind fun _ => ?_
  refine (refines_getTopic topic).bind fun a => ?_
  refine (refines_produceAt a partition content headers _ clock).bind fun r => ?_
  exact refines_pure _

private theorem noPartition_eq_error {a : TopicRef} {id : Int} {b : InMemoryBackend} {t : Topic} (ht : b.heap[a]? = some t) :
    (noPartition a id b : Outcome RmqError α) = .err (.partitionOutOfRange t.name id) := by
  rw [noPartition, ht]

private theorem noPartition_eq_panic {a : TopicRef} {id : Int} {b : InMemoryBackend} (h : b.heap[a]? = none) :
    (noPartition a id b : Outcome RmqError α) = .panic := by
  rw [noPartition, h]

theorem refines_fetchOne (topic : String) (partition offset : Int) :
    (fetchOne topic partition offset).Refines guards (InMemoryBackend.fetchOne topic partition offset) := by
  refine refines_checkShutdown.bind fun _ => ?_
  refine (refines_getTopic topic).bind fun a => ?_
  rw [InMemoryBackend.readTopic_eq (fun b hb => noPartition_eq_panic hb) (fun b t ht hp => ?_) fun t p hp => ?_]
  · exact refines_onPartition_read (refines_readOne a partition offset)
  · rw [noPartition_eq_error ht, Topic.fetchOne, Topic.getPartition_eq, hp]
    rfl
  · rw [Topic.fetchOne, Topic.getPartition_eq, hp]
    rfl

theorem refines_watermarks (topic : String) (partition : Int) :
    (watermarks topic partition).Refines guards (InMemoryBackend.watermarks topic partition) := by
  refine refines_checkShutdown.bind fun _ => ?_
  refine (refines_getTopic topic).bind fun a => ?_
  rw [InMemoryBackend.readTopic_eq (fun b hb => noPartition_eq_panic hb) (fun b t ht hp => ?_) fun t p hp => ?_]
  · exact refines_onPartition_read (refines_readWatermarks a partition _)
  · rw [noPartition_eq_error ht, Topic.watermarks, Topic.getPartition_eq, hp]
    rfl
  · rw [Topic.watermarks, Topic.getPartition_eq, hp]
    rfl

/-- A read of a partition that has a value to fall back on. -/
private theorem readTopic_eq_orElse (a : TopicRef) (id : Int) (x : α) (h : Partition → α) {g : Topic → α}
    (hnone : ∀ t, t.partition? id = none → g t = x) (hsome : ∀ t p, t.partition? id = some p → g t = h p) :
    InMemoryBackend.readTopic a (fun t => .ok (g t)) =
      .read fun b => (b.partitionAt a id).elim (orElse a x b) fun p => .ok (h p) := by
  refine InMemoryBackend.readTopic_eq (fun b hb => ?_) (fun b t ht hp => ?_) fun t p hp => ?_
  · rw [orElse, hb]
  · rw [orElse, ht, hnone t hp]
  · rw [hsome t p hp]

theorem refines_partitionMetadata (a : TopicRef) (i : Int) :
    (partitionMetadata a i).Refines guards (InMemoryBackend.partitionMetadata a i) := by
  have hwatermarks : InMemoryBackend.readTopic a (fun t => .ok ((t.watermarks i).toOption.getD (0, -1))) = _ :=
    readTopic_eq_orElse a i (0, -1) Partition.watermarks
      (fun t hp => by rw [Topic.watermarks, Topic.getPartition_eq, hp]; rfl)
      fun t p hp => by rw [Topic.watermarks, Topic.getPartition_eq, hp]; rfl
  have hcount : InMemoryBackend.readTopic a
      (fun t => .ok (((t.getPartition i).toOption.map Partition.messageCount).getD 0)) = _ :=
    readTopic_eq_orElse a i 0 Partition.messageCount
      (fun t hp => by rw [Topic.getPartition_eq, hp]; rfl) fun t p hp => by rw [Topic.getPartition_eq, hp]; rfl
  unfold InMemoryBackend.partitionMetadata
  rw [hwatermarks, hcount]
  refine (refines_onPartition_read (refines_readWatermarks a i _)).bind fun w => ?_
  refine (refines_onPartition_read (refines_read _ _ _)).bind fun count => ?_
  exact refines_pure _

theorem refines_topicMetadata (a : TopicRef) :
    (topicMetadata a).Refines guards (InMemoryBackend.topicMetadata a) := by
  refine (refines_lift_read _).bind fun nameAndCount => ?_
  obtain ⟨name, count⟩ := nameAndCount
  show LockAct.Refines guards (if count < 0 then _ else _) (if count < 0 then _ else _)
  split
  · exact refines_ret _
  · refine (Refines.forEach (refines_partitionMetadata a) _).bind fun partitions => ?_
    exact refines_pure _

theorem refines_metadata (brokerId : String) (topic : Option String) :
    (metadata brokerId topic).Refines guards (InMemoryBackend.metadata brokerId topic) := by
  refine refines_checkShutdown.bind fun _ => ?_
  refine Refines.hold ?_ Lock.backend Mode.read
  refine (refines_lift_read _).bind fun found => ?_
  refine (Refines.forEach refines_topicMetadata found).bind fun topics => ?_
  exact refines_pure _

theorem refines_getPartitionNotifies (topics : List String) :
    (getPartitionNotifies topics).Refines guards (InMemoryBackend.getPartitionNotifies topics) := by
  refine Refines.hold ?_ Lock.backend Mode.read
  exact (refines_lift_read _).bind_visit _

/-- Who notifies the handles leaves the buffers alone. -/
theorem refines_shutdownBackend : shutdownBackend.Refines guards InMemoryBackend.shutdownBackend := by
  refine refines_hold_of fun held b => ?_
  refine Implements.bind_unit (implements_lift ?_) fun _ => ?_
  · refine Act.always_modify fun b => .of_others (List.mem_cons_self ..) fun l hl => ?_
    cases l with
    | backend => exact absurd rfl hl
    | partition a id =>
      intro p hp
      refine ⟨{ p with notify := p.notify.notify }, ?_, rfl⟩
      obtain ⟨t, ht, htp⟩ := Option.bind_eq_some_iff.1 hp
      show ((b.heap.map Topic.notifyAll)[a]?).bind _ = _
      rw [List.getElem?_map, ht]
      show t.notifyAll.partition? id = _
      rw [t.partition?_notifyAll, htp]
      rfl
    | _ => trivial
  · exact refines_look_bind _ fun refs => refines_visit _

end LockedBackend

/-! ### The broker -/

namespace LockedBroker

open Broker (guards)

variable {π : Type} {α : Type}

theorem refines_checkShutdown : (checkShutdown : BrokerL π Unit).Refines guards Broker.checkShutdown := refines_read _ _ _

theorem refines_onBackend {x : LockedBackend.BackendL α} {y : BackendM α} (h : x.Refines InMemoryBackend.guards y) :
    (onBackend x : BrokerL π α).Refines guards (Broker.onBackend y) :=
  h.zoom Broker.keeps_backend

theorem refines_getConfig : (lift Broker.getConfig : BrokerL π BrokerConfig).Refines guards Broker.getConfig :=
  refines_lift_read _

/-- No lock guards the partitioner. -/
theorem refines_recordPartition [Partitioner π] (partition : Option Int) (topic : String) (key : Option Bytes) (n : Int) :
    (lift (Broker.recordPartition partition topic key n) : BrokerL π Int).Refines guards
      (Broker.recordPartition partition topic key n) := by
  apply refines_lift
  cases partition with
  | some p => trivial
  | none =>
    refine Act.always_step fun b l => ?_
    exact Broker.same_of_parts rfl (fun _ => ⟨rfl, fun _ => rfl⟩) (fun _ _ _ h => h) fun _ => rfl

theorem refines_produce [Partitioner π] (topic : String) (partition : Option Int) (content : Content)
    (headers : Option OwnedHeaders) (timestamp : Option Int) (clock : Clock) :
    (produce topic partition content headers timestamp clock : BrokerL π RecordMetadata).Refines guards
      (Broker.produce topic partition content headers timestamp clock) := by
  refine refines_checkShutdown.bind fun _ => ?_
  refine refines_getConfig.bind fun config => ?_
  refine (refines_onBackend (LockedBackend.refines_ensureTopic topic _)).bind fun _ => ?_
  refine (refines_onBackend (LockedBackend.refines_metadata _ _)).bind fun metadata => ?_
  refine (refines_recordPartition partition topic _ _).bind fun p => ?_
  refine (refines_onBackend (LockedBackend.refines_produce topic p content headers timestamp clock)).bind fun r => ?_
  exact refines_pure _

theorem refines_watermarks (topic : String) (partition : Int) :
    (watermarks topic partition : BrokerL π (Int × Int)).Refines guards (Broker.watermarks topic partition) :=
  refines_onBackend (LockedBackend.refines_watermarks topic partition)

theorem refines_oldestOffset (topic : String) (partition : Int) :
    (oldestOffset topic partition : BrokerL π Int).Refines guards (Broker.oldestOffset topic partition) := by
  refine (refines_watermarks topic partition).bind fun w => ?_
  exact refines_pure _

theorem refines_groupOffset (groupId topic : String) (partition : Int) :
    (groupOffset groupId topic partition : BrokerL π (Option Int)).Refines guards
      (Broker.groupOffset groupId topic partition) := by
  refine (refines_lift_read _).bind fun known => ?_
  cases known with
  | true => exact refines_read _ _ _
  | false => exact refines_pure none

theorem refines_startOffset (topic : String) (partition : Int) (position : Option Int) (groupId : Option String) :
    (startOffset topic partition position groupId : BrokerL π Int).Refines guards
      (Broker.startOffset topic partition position groupId) := by
  rcases position with _ | o
  · rcases groupId with _ | gid
    · exact refines_oldestOffset topic partition
    · refine Refines.hold ?_ Lock.broker Mode.read
      refine (refines_groupOffset gid topic partition).bind fun committed => ?_
      rcases committed with _ | committed
      · exact refines_oldestOffset topic partition
      · dsimp only
        generalize i64Checked (committed + 1) = checked
        cases checked with
        | some offset => exact refines_pure _
        | none => exact refines_ret _
  · exact refines_pure o

theorem refines_fetchOneFromPosition (topic : String) (partition : Int) (position : Option Int)
    (groupId : Option String) :
    (fetchOneFromPosition topic partition position groupId : BrokerL π (Option StoredMessage)).Refines guards
      (Broker.fetchOneFromPosition topic partition position groupId) := by
  refine refines_checkShutdown.bind fun _ => ?_
  refine (refines_startOffset topic partition position groupId).bind fun offset => ?_
  refine (refines_onBackend (LockedBackend.refines_fetchOne topic partition offset)).attempt.bind fun result => ?_
  match result with
  | .ok msg => exact refines_pure msg
  | .error (.offsetOutOfRange _ _ _) => exact (refines_oldestOffset topic partition).bind fun _ => refines_ret _
  | .error (.topicNotFound _) => exact refines_ret _
  | .error (.partitionOutOfRange _ _) => exact refines_ret _
  | .error (.groupNotFound _) => exact refines_ret _
  | .error .brokerShutdown => exact refines_ret _
  | .error (.invalidConfig _) => exact refines_ret _
  | .error (.custom _) => exact refines_ret _

theorem refines_metadata (topic : Option String) :
    (metadata topic : BrokerL π Metadata).Refines guards (Broker.metadata topic) := by
  refine refines_checkShutdown.bind fun _ => ?_
  refine refines_getConfig.bind fun config => ?_
  exact refines_onBackend (LockedBackend.refines_metadata _ topic)

theorem refines_shutdownBroker : (shutdownBroker : BrokerL π Unit).Refines guards Broker.shutdownBroker := by
  refine (refines_write fun b l hl => ?_).bind fun _ => ?_
  · exact Broker.same_of_parts rfl (fun h => absurd h hl) (fun _ _ _ h => h) fun _ => rfl
  · exact refines_onBackend LockedBackend.refines_shutdownBackend

/-- Who has looked the group up with `inner` locked to write enters one that nobody has entered before. -/
theorem refines_insertGroup (groupId : String) : (insertGroup groupId : BrokerL π Unit).Refines guards (.modify fun b =>
    if (b.consumerGroups.lookup groupId).isSome then b
    else { b with consumerGroups := b.consumerGroups.insert groupId (.new groupId) }) := by
  show LockAct.Refines guards (insertGroup groupId) (.step fun b : Broker π => (.ok (),
    if (b.consumerGroups.lookup groupId).isSome then b
    else { b with consumerGroups := b.consumerGroups.insert groupId (.new groupId) }))
  refine refines_update (fun b => ?_) (fun b c o u hu hsame => ?_) fun b o u hu l hl => ?_
  · split
    · rfl
    · rfl
  · rw [hsame.2 groupId]
    exact hu
  · refine Broker.same_of_parts rfl (fun h => absurd h hl) (fun gid _ g hg => ?_) fun _ => rfl
    by_cases h : gid = groupId
    · subst h
      rw [hg] at hu
      cases hu
    · exact (AList.lookup_insert_ne h).trans hg

/-- The group that is read under its lock is still the same when it is overwritten. -/
theorem refines_onGroup (groupId : String) (f : ConsumerGroup → RmqResult α × ConsumerGroup) :
    (onGroup groupId f : BrokerL π α).Refines guards (Broker.onGroup groupId f) := by
  refine refines_update (fun b => ?_) (fun b c o g' hg' hsame => ?_) fun b o g' hg' l hl => ?_
  · cases b.consumerGroups.lookup groupId with
    | none => rfl
    | some g => rfl
  · cases hg : b.consumerGroups.lookup groupId with
    | none =>
      rw [hg] at hg'
      cases hg'
    | some g =>
      rw [hg] at hg'
      rw [hsame g hg]
      exact hg'
  · have hknown : (b.consumerGroups.lookup groupId).isSome := by
      cases hg : b.consumerGroups.lookup groupId with
      | none =>
        rw [hg] at hg'
        cases hg'
      | some g => rfl
    refine Broker.same_of_parts rfl (fun _ => ⟨rfl, fun gid => ?_⟩) (fun gid hgid g hg => ?_) fun _ => rfl
    · show ((b.consumerGroups.insert groupId g').lookup gid).isSome = _
      by_cases h : gid = groupId
      · subst h
        rw [AList.lookup_insert, hknown]
        rfl
      · rw [AList.lookup_insert_ne h]
    · have h : gid ≠ groupId := by
        rintro rfl
        exact hl hgid
      exact (AList.lookup_insert_ne h).trans hg

theorem refines_joinGroup (order : HashOrder) (groupId memberId : String) (topics : List String) :
    (joinGroup order groupId memberId topics : BrokerL π TopicPartitionList).Refines guards
      (Broker.joinGroup order groupId memberId topics) := by
  refine refines_checkShutdown.bind fun _ => ?_
  refine refines_getConfig.bind fun config => ?_
  refine (Refines.forEach (fun topic => ?_) topics).bind fun _ => ?_
  · exact refines_onBackend (LockedBackend.refines_ensureTopic topic _)
  · refine (refines_insertGroup groupId).bind fun _ => ?_
    refine (refines_onBackend (LockedBackend.refines_getPartitionNotifies topics)).bind fun _ => ?_
    refine (refines_onBackend (LockedBackend.refines_metadata _ none)).bind fun metadata => ?_
    exact refines_onGroup groupId _

theorem refines_leaveGroup (order : HashOrder) (groupId memberId : String) :
    (leaveGroup order groupId memberId : BrokerL π Unit).Refines guards
      (Broker.leaveGroup order groupId memberId) := by
  refine refines_checkShutdown.bind fun _ => ?_
  refine Refines.hold ?_ Lock.broker Mode.read
  refine (refines_lift_read _).bind fun _ => ?_
  refine refines_getConfig.bind fun config => ?_
  refine (refines_onBackend (LockedBackend.refines_metadata _ none)).bind fun metadata => ?_
  exact refines_onGroup groupId _

theorem refines_commitOffset (groupId topic : String) (partition offset : Int) :
    (commitOffset groupId topic partition offset : BrokerL π Unit).Refines guards
      (Broker.commitOffset groupId topic partition offset) := by
  refine refines_checkShutdown.bind fun _ => ?_
  refine Refines.hold ?_ Lock.broker Mode.read
  refine (refines_lift_read _).bind fun _ => ?_
  refine refines_update (f := fun b => (.ok (), _)) (fun b => rfl) (fun b c o store hstore hsame => ?_)
    fun b o store _ l hl => ?_
  · rw [hsame]
    exact hstore
  · exact Broker.same_of_parts rfl (fun _ => ⟨rfl, fun _ => rfl⟩) (fun _ _ _ h => h) fun h => absurd h hl

theorem refines_committedOffset (groupId topic : String) (partition : Int) :
    (committedOffset groupId topic partition : BrokerL π (Option Int)).Refines guards
      (Broker.committedOffset groupId topic partition) := by
  refine refines_checkShutdown.bind fun _ => ?_
  refine Refines.hold ?_ Lock.broker Mode.read
  refine (refines_lift_read _).bind fun _ => ?_
  exact refines_read _ _ _

end LockedBroker

/-! ### The consumers -/

namespace LockedConsumer

open Session (guards)

variable {π : Type} {α : Type} (i : Nat) (c : BaseConsumer)

theorem refines_onBroker {x : LockedBroker.BrokerL π α} {y : BrokerM π α} (h : x.Refines Broker.guards y) :
    (onBroker x).Refines (guards i) (Session.onBroker y) :=
  h.zoom (Session.keeps_broker i)

theorem refines_readState (g : ConsumerState → α) :
    (readState i g : ConsumerL π α).Refines (guards i) (Session.readState g) :=
  refines_read _ _ _

/-- A step that only changes the consumer's state. -/
private theorem same_of_state {s : Session π} {state : ConsumerState} {l : Lock} (hl : l ≠ .consumer i) :
    (guards i).same l s { s with state } := by
  have h := (guards i).same_refl l s
  cases l with
  | consumer j =>
    rintro rfl
    exact absurd rfl hl
  | _ => exact h

/-- The state that is read is still the same when it is overwritten. -/
theorem refines_updateState (f : ConsumerState → ConsumerState) :
    (updateState i f : ConsumerL π Unit).Refines (guards i) (Session.updateState f) := by
  refine refines_update (f := fun s => (.ok (), _)) (fun s => rfl) (fun s t o state hstate hsame => ?_)
    fun s o state _ l hl => same_of_state i hl
  rw [hsame rfl]
  exact hstate

theorem refines_pollBounds : (pollBounds i : ConsumerL π (Nat × Nat)).Refines (guards i)
    (Session.readState (·.pollBounds)) := by
  refine refines_inspect (fun s => rfl) fun s t len _ hsame => ?_
  rw [hsame rfl]

theorem refines_pollEntry (idx : Nat) : (pollEntry i idx : ConsumerL π _).Refines (guards i)
    (Session.readState (·.pollEntry idx)) := by
  refine refines_inspect (fun s => ?_) fun s t elem _ hsame => ?_
  · show Outcome.ok (s.state.pollEntry idx) = _
    unfold ConsumerState.pollEntry
    cases s.state.assignedPartitions.elements[idx]? with
    | none => rfl
    | some elem => rfl
  · rw [hsame rfl]

theorem refines_positions : (positions i : ConsumerL π TopicPartitionList).Refines (guards i)
    BaseConsumer.positions := by
  refine refines_inspect (fun s => rfl) fun s t elements _ hsame => ?_
  rw [hsame rfl]

theorem refines_onFetched (key : String × Int) (idx : Nat) {rest : ConsumerL π (Option StoredMessage)}
    {rest' : ConsumerM π (Option StoredMessage)} (h : rest.Refines (guards i) rest')
    (result : RmqResult (Option StoredMessage)) :
    (onFetched i key idx rest result).Refines (guards i) (BaseConsumer.onFetched key idx rest' result) := by
  match result with
  | .ok (some msg) => exact (refines_updateState i _).bind fun _ => refines_pure _
  | .ok none => exact h
  | .error (.offsetOutOfRange _ _ _) => exact (refines_updateState i _).bind fun _ => h
  | .error (.topicNotFound _) => exact h
  | .error (.partitionOutOfRange _ _) => exact h
  | .error (.groupNotFound _) => exact refines_ret _
  | .error .brokerShutdown => exact refines_ret _
  | .error (.invalidConfig _) => exact refines_ret _
  | .error (.custom _) => exact refines_ret _

theorem refines_pollFrom (startIdx elementsLen : Nat) (l : List Nat) :
    (pollFrom i c startIdx elementsLen l : ConsumerL π (Option StoredMessage)).Refines (guards i)
      (c.pollFrom startIdx elementsLen l) := by
  induction l with
  | nil => exact refines_pure none
  | cons n l ih =>
    refine (refines_pollEntry i _).bind fun entry => ?_
    match entry with
    | none => exact ih
    | some (_, _, true) => exact ih
    | some (key, position, false) =>
      have hfetch := LockedBroker.refines_fetchOneFromPosition (π := π) key.1 key.2 position c.groupId
      refine (refines_onBroker i hfetch).attempt.bind fun result => ?_
      exact refines_onFetched i _ _ ih result

theorem refines_pollOnce : (pollOnce i c : ConsumerL π (Option StoredMessage)).Refines (guards i) c.pollOnce := by
  refine (refines_pollBounds i).bind fun bounds => ?_
  obtain ⟨startIdx, elementsLen⟩ := bounds
  show LockAct.Refines (guards i) (if elementsLen = 0 then _ else _) (if elementsLen = 0 then _ else _)
  split
  · exact refines_pure none
  · exact refines_pollFrom i c _ _ _

theorem refines_newAssignment (order : HashOrder) (topics : List String) :
    (newAssignment c order topics : ConsumerL π TopicPartitionList).Refines (guards i)
      (c.newAssignment order topics) := by
  unfold newAssignment BaseConsumer.newAssignment
  cases c.groupId with
  | none =>
    refine (Refines.forEach (fun topic => ?_) topics).bind fun results => ?_
    · exact (refines_onBroker i (LockedBroker.refines_metadata (some topic))).attempt
    · exact refines_pure _
  | some gid => exact refines_onBroker i (LockedBroker.refines_joinGroup order gid _ topics)

theorem refines_subscribe (order : HashOrder) (topics : List String) :
    (subscribe i c order topics : ConsumerL π Unit).Refines (guards i) (c.subscribe order topics) := by
  refine (refines_newAssignment i c order topics).bind fun assignment => ?_
  exact refines_updateState i _

theorem refines_leave (order : HashOrder) :
    (leave c order : ConsumerL π Unit).Refines (guards i) (c.leave order) := by
  unfold leave BaseConsumer.leave
  cases c.groupId with
  | none => exact refines_pure ()
  | some gid => exact refines_onBroker i (LockedBroker.refines_leaveGroup order gid _)

theorem refines_unsubscribe (order : HashOrder) :
    (unsubscribe i c order : ConsumerL π Unit).Refines (guards i) (c.unsubscribe order) := by
  refine (refines_readState i _).bind fun _ => ?_
  refine (refines_leave i c order).bind fun _ => ?_
  exact refines_updateState i _

theorem refines_seekTarget (topic : String) (partition : Int) (offset : Offset) :
    (seekTarget c topic partition offset : ConsumerL π Int).Refines (guards i)
      (c.seekTarget topic partition offset) := by
  have hwatermarks := refines_onBroker (π := π) i (LockedBroker.refines_watermarks topic partition)
  cases offset with
  | beginning => exact hwatermarks.bind fun _ => refines_pure _
  | end_ => exact hwatermarks.bind fun _ => refines_pure _
  | offset o => exact refines_pure o
  | stored =>
    unfold seekTarget BaseConsumer.seekTarget
    cases c.groupId with
    | none => exact refines_pure 0
    | some gid =>
      refine (refines_onBroker i (LockedBroker.refines_committedOffset gid topic partition)).bind fun committed => ?_
      exact refines_pure _
  | offsetTail tail =>
    refine hwatermarks.bind fun w => ?_
    obtain ⟨oldest, newest⟩ := w
    dsimp only
    generalize i64Checked (newest + 1 - tail) = checked
    cases checked with
    | some o => exact refines_pure _
    | none => exact refines_ret _

theorem refines_seek (topic : String) (partition : Int) (offset : Offset) :
    (seek i c topic partition offset : ConsumerL π Unit).Refines (guards i) (c.seek topic partition offset) := by
  refine (refines_seekTarget i c topic partition offset).bind fun target => ?_
  exact refines_updateState i _

theorem refines_commitElem (gid : String) (elem : TopicPartitionElem) :
    (commitElem gid elem : ConsumerL π Unit).Refines (guards i) (BaseConsumer.commitElem gid elem) := by
  obtain ⟨topic, partition, offset⟩ := elem
  cases offset with
  | offset o => exact refines_onBroker i (LockedBroker.refines_commitOffset gid topic partition o)
  | _ => exact refines_pure ()

theorem refines_commit (tpl : TopicPartitionList) :
    (commit c tpl : ConsumerL π Unit).Refines (guards i) (c.commit tpl) := by
  unfold commit BaseConsumer.commit
  cases c.groupId with
  | none => exact refines_pure ()
  | some gid =>
    refine (Refines.forEach (refines_commitElem i gid) tpl.elements).bind fun _ => ?_
    exact refines_pure ()

theorem refines_committed :
    (committed i c : ConsumerL π TopicPartitionList).Refines (guards i) c.committed := by
  refine (refines_readState i _).bind fun assigned => ?_
  cases c.groupId with
  | none => exact refines_pure _
  | some gid =>
    refine (Refines.forEach (fun elem => ?_) assigned.elements).bind fun elements => ?_
    · refine (refines_onBroker i (LockedBroker.refines_committedOffset gid _ _)).bind fun offset => ?_
      exact refines_pure _
    · exact refines_pure _

end LockedConsumer

namespace LockedWorld

variable {π : Type}

theorem refines_reply {σ ε α : Type} {G : Guards Lock σ} {x : LockAct Lock σ ε α} {y : Act σ ε α} (h : x.Refines G y)
    (f : α → Reply) : (reply x f).Refines G (RMemQueue.reply y f) :=
  h.bind fun _ => refines_pure _

theorem refines_request (i : Nat) (c : BaseConsumer) (r : Request) :
    (request i c r : LockedConsumer.ConsumerL π Reply).Refines (Session.guards i) (r.body c) := by
  cases r with
  | pollOnce => exact refines_reply (LockedConsumer.refines_pollOnce i c) _
  | subscribe order topics => exact refines_reply (LockedConsumer.refines_subscribe i c order topics) _
  | unsubscribe order => exact refines_reply (LockedConsumer.refines_unsubscribe i c order) _
  | assignment => exact refines_reply (LockedConsumer.refines_readState i _) _
  | assign partitions => exact refines_reply (LockedConsumer.refines_updateState i _) _
  | seek topic partition offset => exact refines_reply (LockedConsumer.refines_seek i c topic partition offset) _
  | commit tpl => exact refines_reply (LockedConsumer.refines_commit i c tpl) _
  | commitMessage msg => exact refines_reply (LockedConsumer.refines_commit i c _) _
  | storeOffset topic partition offset => exact refines_reply (LockedConsumer.refines_updateState i _) _
  | committed => exact refines_reply (LockedConsumer.refines_committed i c) _
  | positions => exact refines_reply (LockedConsumer.refines_positions i) _
  | pause partitions => exact refines_reply (LockedConsumer.refines_updateState i _) _
  | resume partitions => exact refines_reply (LockedConsumer.refines_updateState i _) _
  | metadata topic => exact refines_reply (LockedConsumer.refines_onBroker i (LockedBroker.refines_metadata topic)) _
  | watermarks topic partition =>
    exact refines_reply (LockedConsumer.refines_onBroker i (LockedBroker.refines_watermarks topic partition)) _

/-- With its locks an operation does what it does in the steps of `World`. -/
theorem refines_body [Partitioner π] (ids : Nat → BaseConsumer) (op : Op) :
    (body ids op : LockAct Lock (World π) RmqError Reply).Refines World.guards (op.body ids) := by
  cases op with
  | send call =>
    have hproduce := LockedBroker.refines_produce (π := π) call.topic call.partition call.content call.headers
      call.timestamp call.clock
    exact (refines_reply hproduce _).zoom World.keeps_broker
  | consumer i r => exact (refines_request i (ids i) r).zoom (World.keeps_session i)
  | shutdown => exact (refines_reply LockedBroker.refines_shutdownBroker _).zoom World.keeps_broker

end LockedWorld

/-! ### Threads that take the locks -/

section

variable {π : Type} [Partitioner π] {ι : Type} [DecidableEq ι]

/-- Whatever threads do that take the locks, reading and writing in their critical sections one step at a time, threads that
take each critical section in one step do under some schedule with the same calls: they reach the same world, and each of
them has ended the same calls in the same way, if the release of its last locks is not awaited. -/
theorem steps_of_locks (ids : Nat → BaseConsumer) (P : LockSystem.Policy ι Op Lock (World π) RmqError Reply)
    (start : World π) {choices : List (Choice ι Op)} {w : LockSystem ι Op Lock (World π) RmqError Reply}
    (h : LockSystem.Run (LockedWorld.body ids) P (.init start) choices w) :
    ∃ sched : List (Choice ι Op), sched.filter Choice.isCall = choices.filter Choice.isCall ∧
      LockSystem.Reflects w (System.exec (Op.body ids) (.init start) sched) := by
  obtain ⟨sched, hcalls, hmatches⟩ := LockSystem.matched_run (LockedWorld.refines_body ids)
    (LockSystem.exclusive_init start) (LockSystem.matches_init World.guards start) h
  exact ⟨sched, hcalls, hmatches.reflects⟩

end

/-- Two sends to a new topic, until the first one has read the partition and the second one waits for its lock. -/
def sendsUntilWrite : List (Choice (Fin 2) Op) :=
  [.call 0 sendOne, .call 1 sendOne] ++ List.replicate 9 (.step 0) ++ List.replicate 10 (.step 1) ++
    List.replicate 5 (.step 0) ++ List.replicate 3 (.step 1) ++ List.replicate 28 (.step 0) ++
    List.replicate 29 (.step 1) ++ List.replicate 3 (.step 0)

def sendsFromWrite : List (Choice (Fin 2) Op) := List.replicate 2 (.step 0) ++ List.replicate 4 (.step 1)

private theorem run_sendsUntilWrite {b : Broker RoundRobinPartitioner}
    (hb : Broker.new (RmqClientConfig.new.set ConfigKeys.brokerId "b") = .ok b) :
    ∃ w, LockSystem.Run (LockedWorld.body fun _ => ⟨none, "c"⟩) .writersFirst (.init (World.init b)) sendsUntilWrite w ∧
      w.Holds 0 (.partition 0 0) .write ∧ w.Waits 1 (.partition 0 0) .write := by
  have hexec : ((LockSystem.exec (LockedWorld.body fun _ => ⟨none, "c"⟩) .writersFirst (.init (World.init b))
      sendsUntilWrite).map fun w =>
        decide (w.Holds 0 (.partition 0 0) .write ∧ w.Waits 1 (.partition 0 0) .write)) = some true := by
    obtain rfl := Except.ok.inj hb
    decide +kernel
  obtain ⟨w, hw, hlocks⟩ := Option.map_eq_some_iff.1 hexec
  exact ⟨w, LockSystem.run_of_exec hw, of_decide_eq_true hlocks⟩

private theorem run_sends {b : Broker RoundRobinPartitioner}
    (hb : Broker.new (RmqClientConfig.new.set ConfigKeys.brokerId "b") = .ok b) :
    ∃ w, LockSystem.Run (LockedWorld.body fun _ => ⟨none, "c"⟩) .writersFirst (.init (World.init b))
        (sendsUntilWrite ++ sendsFromWrite) w ∧
      (∀ i, (w.running i).isNone) ∧ (own 0 w.history).filterMap placeOf = [("t", 0, 0)] ∧
      (own 1 w.history).filterMap placeOf = [("t", 0, 1)] ∧
      (w.shared.broker.backend.log "t" 0).history.map (·.offset) = [0, 1] := by
  have hexec : ((LockSystem.exec (LockedWorld.body fun _ => ⟨none, "c"⟩) .writersFirst (.init (World.init b))
      (sendsUntilWrite ++ sendsFromWrite)).map fun w => decide ((∀ i, (w.running i).isNone) ∧
        (own 0 w.history).filterMap placeOf = [("t", 0, 0)] ∧ (own 1 w.history).filterMap placeOf = [("t", 0, 1)] ∧
        (w.shared.broker.backend.log "t" 0).history.map (·.offset) = [0, 1])) = some true := by
    obtain rfl := Except.ok.inj hb
    decide +kernel
  obtain ⟨w, hw, hend⟩ := Option.map_eq_some_iff.1 hexec
  exact ⟨w, LockSystem.run_of_exec hw, of_decide_eq_true hend⟩

/-- Both sends make for the same partition, and the threads without locks send the messages one after the other. -/
theorem steps_of_locks_sends :
    let ids : Nat → BaseConsumer := fun _ => ⟨none, "c"⟩
    ∃ (b : Broker RoundRobinPartitioner)
      (w₁ w : LockSystem (Fin 2) Op Lock (World RoundRobinPartitioner) RmqError Reply) (sched : List (Choice (Fin 2) Op)),
      Broker.new (RmqClientConfig.new.set ConfigKeys.brokerId "b") = .ok b ∧
      LockSystem.Run (LockedWorld.body ids) .writersFirst (.init (World.init b)) sendsUntilWrite w₁ ∧
      w₁.Holds 0 (.partition 0 0) .write ∧ w₁.Waits 1 (.partition 0 0) .write ∧
      LockSystem.Run (LockedWorld.body ids) .writersFirst (.init (World.init b)) (sendsUntilWrite ++ sendsFromWrite) w ∧
      sched.filter Choice.isCall = [.call 0 sendOne, .call 1 sendOne] ∧
      let v := System.exec (Op.body ids) (.init (World.init b)) sched
      (∀ i, v.running i = none) ∧ (own 0 v.history).filterMap placeOf = [("t", 0, 0)] ∧
        (own 1 v.history).filterMap placeOf = [("t", 0, 1)] ∧
        (v.shared.broker.backend.log "t" 0).history.map (·.offset) = [0, 1] := by
  intro ids
  obtain ⟨b, hb⟩ : ∃ b, Broker.new (RmqClientConfig.new.set ConfigKeys.brokerId "b") = .ok b := ⟨_, rfl⟩
  obtain ⟨w₁, hrun₁, hholds, hwaits⟩ := run_sendsUntilWrite hb
  obtain ⟨w, hrun, hidle, hfirst, hsecond, hlog⟩ := run_sends hb
  obtain ⟨sched, hcalls, hreflects⟩ := steps_of_locks ids .writersFirst (World.init b) hrun
  have hended := fun i => hreflects.idle i (Option.isNone_iff_eq_none.1 (hidle i))
  refine ⟨b, w₁, w, sched, hb, hrun₁, hholds, hwaits, hrun, hcalls, fun i => (hended i).1, ?_, ?_, ?_⟩
  · rw [(hended 0).2, hfirst]
  · rw [(hended 1).2, hsecond]
  · rw [hreflects.shared, hlog]

/-- Two sends without locks: the second one is executed after the first one has read the partition. -/
def unlockedSends : List (Choice (Fin 2) Op) :=
  .call 0 sendOne :: List.replicate 18 (.step 0) ++ .call 1 sendOne :: List.replicate 17 (.step 1) ++ [.step 0]

private theorem run_unlockedSends {b : Broker RoundRobinPartitioner}
    (hb : Broker.new (RmqClientConfig.new.set ConfigKeys.brokerId "b") = .ok b) :
    ∃ w, LockSystem.Run (fun op => (LockedWorld.body (fun _ => ⟨none, "c"⟩) op).unlocked) .writersFirst
        (.init (World.init b)) unlockedSends w ∧
      (∀ i, (w.running i).isNone) ∧ (∀ i, (own i w.history).filterMap placeOf = [("t", 0, 0)]) ∧
      (w.shared.broker.backend.log "t" 0).history.map (·.offset) = [0] := by
  have hexec : ((LockSystem.exec (fun op => (LockedWorld.body (fun _ => ⟨none, "c"⟩) op).unlocked) .writersFirst
      (.init (World.init b)) unlockedSends).map fun w => decide ((∀ i, (w.running i).isNone) ∧
        (∀ i, (own i w.history).filterMap placeOf = [("t", 0, 0)]) ∧
        (w.shared.broker.backend.log "t" 0).history.map (·.offset) = [0])) = some true := by
    obtain rfl := Except.ok.inj hb
    decide +kernel
  obtain ⟨w, hw, hend⟩ := Option.map_eq_some_iff.1 hexec
  exact ⟨w, LockSystem.run_of_exec hw, of_decide_eq_true hend⟩

/-- The steps of `World` report a place only once. -/
private theorem not_reported_twice {ids : Nat → BaseConsumer} {b : Broker RoundRobinPartitioner} {config : RmqClientConfig}
    (hb : Broker.new config = .ok b) (sched : List (Choice (Fin 2) Op)) {place : String × Int × Int}
    (h : ∀ i, (own i (System.exec (Op.body ids) (.init (World.init b)) sched).history).filterMap placeOf = [place]) :
    False := by
  have hevent : ∀ i, ∃ e, (i, e) ∈ (System.exec (Op.body ids) (.init (World.init b)) sched).history ∧
      placeOf e = some place := by
    intro i
    obtain ⟨e, he, hplace⟩ := List.mem_filterMap.1 (h i ▸ List.mem_singleton_self place)
    exact ⟨e, System.mem_own.1 he, hplace⟩
  obtain ⟨e₀, he₀, hplace₀⟩ := hevent 0
  obtain ⟨e₁, he₁, hplace₁⟩ := hevent 1
  have hdistinct := List.pairwise_filterMap.1 (logged_exec ids hb sched).distinct
  have hsymm : Std.Symm fun e e' : Fin 2 × Op × Outcome RmqError Reply =>
      ∀ p, placeOf e.2 = some p → ∀ p', placeOf e'.2 = some p' → p ≠ p' :=
    ⟨fun _ _ hne p hp p' hp' => (hne p' hp' p hp).symm⟩
  exact hdistinct.forall he₀ he₁ (by simp) place hplace₀ place hplace₁ rfl

/-- Without the locks one message overwrites the other, which no threads do that take each critical section in one step. -/
theorem unlocked_sends_lose :
    let ids : Nat → BaseConsumer := fun _ => ⟨none, "c"⟩
    ∃ (b : Broker RoundRobinPartitioner) (w : LockSystem (Fin 2) Op Lock (World RoundRobinPartitioner) RmqError Reply),
      Broker.new (RmqClientConfig.new.set ConfigKeys.brokerId "b") = .ok b ∧
      LockSystem.Run (fun op => (LockedWorld.body ids op).unlocked) .writersFirst (.init (World.init b))
        unlockedSends w ∧
      (w.shared.broker.backend.log "t" 0).history.map (·.offset) = [0] ∧
      ∀ sched, ¬ LockSystem.Reflects w (System.exec (Op.body ids) (.init (World.init b)) sched) := by
  intro ids
  obtain ⟨b, hb⟩ : ∃ b, Broker.new (RmqClientConfig.new.set ConfigKeys.brokerId "b") = .ok b := ⟨_, rfl⟩
  obtain ⟨w, hrun, hidle, hplaces, hlog⟩ := run_unlockedSends hb
  refine ⟨b, w, hb, hrun, hlog, fun sched hreflects => ?_⟩
  have hended := fun i => hreflects.idle i (Option.isNone_iff_eq_none.1 (hidle i))
  exact not_reported_twice hb sched fun i => (congrArg _ (hended i).2).trans (hplaces i)

end RMemQueue
