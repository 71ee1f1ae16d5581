import RMemQueue.Lib.Locks
import RMemQueue.LockedCalls

/-!
# The order of the locks

* `LockedWorld.within_body`: every operation takes its locks in the order of their ranks.
* `calls_return`: there is no deadlock, and every call ends.
-/

namespace RMemQueue

open Conc LockAct

/-! ### The order of the locks -/

namespace LockedBackend

variable {α : Type}

theorem within_readInner (g : InMemoryBackend → Outcome RmqError α) : (readInner g).Within Lock.rank 2 :=
  within_guarded _ (by exact le_rfl) _

/-- The topic's lock is released before the partition's lock is taken. -/
theorem within_onPartition (a : TopicRef) (id : Int) (missing : InMemoryBackend → Outcome RmqError α) {x : BackendL α}
    (hx : x.Within Lock.rank 3) : (onPartition a id missing x).Within Lock.rank 3 := by
  intro held hheld
  refine ⟨hheld, fun b => ?_⟩
  show LockAct.Ordered Lock.rank held (if _ then _ else _) _
  split
  · exact ⟨_, held, rfl, hx held hheld⟩
  · exact ⟨_, held, rfl, rfl⟩

theorem within_produceAt (a : TopicRef) (partition : Int) (content : Content) (headers : Option OwnedHeaders)
    (timestamp : Option Int) (clock : Clock) :
    (produceAt a partition content headers timestamp clock).Within Lock.rank 3 := by
  apply within_onPartition
  exact within_update (by exact le_rfl) _ _

theorem within_readOne (a : TopicRef) (id offset : Int) : (readOne a id offset).Within Lock.rank 3 :=
  within_inspect _ (by exact le_rfl) _ _

theorem within_readWatermarks (a : TopicRef) (id : Int) (missing : InMemoryBackend → Outcome RmqError (Int × Int)) :
    (readWatermarks a id missing).Within Lock.rank 3 :=
  within_inspect _ (by exact le_rfl) _ _

theorem within_insertTopic (topic : String) (n : Int) : (insertTopic topic n).Within Lock.rank 2 :=
  within_update (by exact le_rfl) _ _

theorem within_ensureTopic (topic : String) (n : Int) : (ensureTopic topic n).Within Lock.rank 2 := by
  refine (within_readInner _).bind fun _ => ?_
  refine (within_readInner _).bind fun known => ?_
  split
  · exact within_ret _
  · exact within_insertTopic topic n

theorem within_produce (topic : String) (partition : Int) (content : Content) (headers : Option OwnedHeaders)
    (timestamp : Option Int) (clock : Clock) :
    (produce topic partition content headers timestamp clock).Within Lock.rank 2 := by
  refine (within_readInner _).bind fun _ => ?_
  refine (within_readInner _).bind fun a => ?_
  have happend := within_produceAt a partition content headers (some (timestamp.getD clock.wall)) clock
  refine (happend.mono (by decide)).bind fun r => ?_
  exact within_ret _

theorem within_fetchOne (topic : String) (partition offset : Int) :
    (fetchOne topic partition offset).Within Lock.rank 2 := by
  refine (within_readInner _).bind fun _ => ?_
  refine (within_readInner _).bind fun a => ?_
  exact (within_onPartition a partition _ (within_readOne a partition offset)).mono (by decide)

theorem within_watermarks (topic : String) (partition : Int) :
    (watermarks topic partition).Within Lock.rank 2 := by
  refine (within_readInner _).bind fun _ => ?_
  refine (within_readInner _).bind fun a => ?_
  exact (within_onPartition a partition _ (within_readWatermarks a partition _)).mono (by decide)

theorem within_partitionMetadata (a : TopicRef) (i : Int) : (partitionMetadata a i).Within Lock.rank 3 := by
  refine (within_onPartition a i _ (within_readWatermarks a i _)).bind fun w => ?_
  refine (within_onPartition a i _ ?_).bind fun count => ?_
  · exact within_guarded _ (by exact le_rfl) _
  · exact within_ret _

theorem within_topicMetadata (a : TopicRef) : (topicMetadata a).Within Lock.rank 3 := by
  refine (within_lift _).bind fun nameAndCount => ?_
  show Within Lock.rank 3 (if _ then _ else _)
  split
  · exact within_ret _
  · refine (Within.forEach (within_partitionMetadata a) _).bind fun partitions => ?_
    exact within_ret _

theorem within_metadata (brokerId : String) (topic : Option String) :
    (metadata brokerId topic).Within Lock.rank 2 := by
  refine (within_readInner _).bind fun _ => ?_
  apply within_hold _ (by exact le_rfl)
  refine (within_lift _).bind fun found => ?_
  refine (Within.forEach within_topicMetadata found).bind fun topics => ?_
  exact within_ret _

/-- The locks of topics come after `inner`. -/
private theorem within_visit_topics (ls : List TopicRef) :
    (visit (ls.map Lock.topic) : BackendL Unit).Within Lock.rank 3 := by
  refine within_visit fun l hl => ?_
  obtain ⟨a, -, rfl⟩ := List.mem_map.1 hl
  exact le_rfl

theorem within_getPartitionNotifies (topics : List String) :
    (getPartitionNotifies topics).Within Lock.rank 2 := by
  apply within_hold _ (by exact le_rfl)
  refine (within_lift _).bind fun refs => Within.bind ?_ fun _ => within_ret _
  have h := within_visit_topics (refs.map Prod.fst)
  rwa [List.map_map] at h

theorem within_shutdownBackend : shutdownBackend.Within Lock.rank 2 := by
  apply within_hold _ (by exact le_rfl)
  refine (within_lift _).bind fun _ => ?_
  refine (within_look _).bind fun refs => ?_
  exact within_visit_topics refs

end LockedBackend

namespace LockedBroker

variable {π : Type}

theorem within_checkShutdown : (checkShutdown : BrokerL π Unit).Within Lock.rank 1 := within_guarded _ (by exact le_rfl) _

theorem within_onBackend {α : Type} {x : LockedBackend.BackendL α} (h : x.Within Lock.rank 2) :
    (onBackend x : BrokerL π α).Within Lock.rank 2 :=
  h.zoom _

/-- The backend is only locked after the broker. -/
theorem within_backendCall {α : Type} {x : LockedBackend.BackendL α} (h : x.Within Lock.rank 2) :
    (onBackend x : BrokerL π α).Within Lock.rank 1 :=
  (within_onBackend h).mono (by decide)

theorem within_produce [Partitioner π] (topic : String) (partition : Option Int) (content : Content)
    (headers : Option OwnedHeaders) (timestamp : Option Int) (clock : Clock) :
    (produce topic partition content headers timestamp clock : BrokerL π RecordMetadata).Within Lock.rank 1 := by
  refine within_checkShutdown.bind fun _ => ?_
  refine (within_lift _).bind fun config => ?_
  refine (within_backendCall (LockedBackend.within_ensureTopic topic _)).bind fun _ => ?_
  refine (within_backendCall (LockedBackend.within_metadata _ _)).bind fun metadata => ?_
  refine (within_lift _).bind fun p => ?_
  refine (within_backendCall (LockedBackend.within_produce topic p content headers timestamp clock)).bind fun r => ?_
  exact within_ret _

theorem within_oldestOffset (topic : String) (partition : Int) :
    (oldestOffset topic partition : BrokerL π Int).Within Lock.rank 2 := by
  refine (within_onBackend (LockedBackend.within_watermarks topic partition)).bind fun w => ?_
  exact within_ret _

theorem within_groupOffset (groupId topic : String) (partition : Int) :
    (groupOffset groupId topic partition : BrokerL π (Option Int)).Within Lock.rank 2 := by
  refine (within_lift _).bind fun known => ?_
  split
  · exact within_guarded _ (by exact le_rfl) _
  · exact within_ret _

/-- The offset store and the backend are asked while `inner` is locked. -/
theorem within_startOffset (topic : String) (partition : Int) (position : Option Int) (groupId : Option String) :
    (startOffset topic partition position groupId : BrokerL π Int).Within Lock.rank 1 := by
  rcases position with _ | o
  · rcases groupId with _ | gid
    · exact (within_oldestOffset topic partition).mono (by decide)
    · apply within_hold _ (by exact le_rfl)
      refine (within_groupOffset gid topic partition).bind fun committed => ?_
      split
      · split
        · exact within_ret _
        · exact within_ret _
      · exact within_oldestOffset topic partition
  · exact within_ret _

theorem within_fetchOneFromPosition (topic : String) (partition : Int) (position : Option Int)
    (groupId : Option String) :
    (fetchOneFromPosition topic partition position groupId : BrokerL π (Option StoredMessage)).Within Lock.rank 1 := by
  refine within_checkShutdown.bind fun _ => ?_
  refine (within_startOffset topic partition position groupId).bind fun offset => ?_
  refine (within_backendCall (LockedBackend.within_fetchOne topic partition offset)).attempt.bind fun result => ?_
  split
  · exact within_ret _
  · refine ((within_oldestOffset topic partition).mono (by decide)).bind fun oldest => ?_
    exact within_ret _
  · exact within_ret _

theorem within_metadata (topic : Option String) : (metadata topic : BrokerL π Metadata).Within Lock.rank 1 := by
  refine within_checkShutdown.bind fun _ => ?_
  refine (within_lift _).bind fun config => ?_
  exact within_backendCall (LockedBackend.within_metadata _ topic)

theorem within_watermarks (topic : String) (partition : Int) :
    (watermarks topic partition : BrokerL π (Int × Int)).Within Lock.rank 1 :=
  within_backendCall (LockedBackend.within_watermarks topic partition)

/-- `inner` is released before the backend is locked. -/
theorem within_shutdownBroker : (shutdownBroker : BrokerL π Unit).Within Lock.rank 1 := by
  refine (within_guarded _ (by exact le_rfl) _).bind fun _ => ?_
  exact within_backendCall LockedBackend.within_shutdownBackend

theorem within_insertGroup (groupId : String) : (insertGroup groupId : BrokerL π Unit).Within Lock.rank 1 :=
  within_update (by exact le_rfl) _ _

theorem within_onGroup {α : Type} (groupId : String) (f : ConsumerGroup → RmqResult α × ConsumerGroup) :
    (onGroup groupId f : BrokerL π α).Within Lock.rank 2 :=
  within_update (by exact le_rfl) _ _

theorem within_joinGroup (order : HashOrder) (groupId memberId : String) (topics : List String) :
    (joinGroup order groupId memberId topics : BrokerL π TopicPartitionList).Within Lock.rank 1 := by
  refine within_checkShutdown.bind fun _ => ?_
  refine (within_lift _).bind fun config => ?_
  refine (Within.forEach (fun topic => ?_) topics).bind fun _ => ?_
  · exact within_backendCall (LockedBackend.within_ensureTopic topic _)
  · refine (within_insertGroup groupId).bind fun _ => ?_
    refine (within_backendCall (LockedBackend.within_getPartitionNotifies topics)).bind fun _ => ?_
    refine (within_backendCall (LockedBackend.within_metadata _ none)).bind fun metadata => ?_
    exact (within_onGroup groupId _).mono (by decide)

/-- The backend and the group's state are locked one after the other while `inner` is locked. -/
theorem within_leaveGroup (order : HashOrder) (groupId memberId : String) :
    (leaveGroup order groupId memberId : BrokerL π Unit).Within Lock.rank 1 := by
  refine within_checkShutdown.bind fun _ => ?_
  apply within_hold _ (by exact le_rfl)
  refine (within_lift _).bind fun _ => ?_
  refine (within_lift _).bind fun config => ?_
  refine (within_onBackend (LockedBackend.within_metadata _ none)).bind fun metadata => ?_
  exact within_onGroup groupId _

theorem within_commitOffset (groupId topic : String) (partition offset : Int) :
    (commitOffset groupId topic partition offset : BrokerL π Unit).Within Lock.rank 1 := by
  refine within_checkShutdown.bind fun _ => ?_
  apply within_hold _ (by exact le_rfl)
  refine (within_lift _).bind fun _ => ?_
  exact within_update (by exact le_rfl) _ _

theorem within_committedOffset (groupId topic : String) (partition : Int) :
    (committedOffset groupId topic partition : BrokerL π (Option Int)).Within Lock.rank 1 := by
  refine within_checkShutdown.bind fun _ => ?_
  apply within_hold _ (by exact le_rfl)
  refine (within_lift _).bind fun _ => ?_
  exact within_guarded _ (by exact le_rfl) _

end LockedBroker

namespace LockedConsumer

variable {π : Type} (i : Nat) (c : BaseConsumer)

theorem within_onBroker {α : Type} {x : LockedBroker.BrokerL π α} (h : x.Within Lock.rank 1) :
    (onBroker x).Within Lock.rank 0 :=
  (h.zoom _).mono (by decide)

theorem within_readState {α : Type} (g : ConsumerState → α) :
    (readState i g : ConsumerL π α).Within Lock.rank 0 :=
  within_guarded _ (by exact le_rfl) _

theorem within_updateState (f : ConsumerState → ConsumerState) :
    (updateState i f : ConsumerL π Unit).Within Lock.rank 0 :=
  within_update (by exact le_rfl) _ _

theorem within_onFetched (key : String × Int) (idx : Nat) {rest : ConsumerL π (Option StoredMessage)}
    (h : rest.Within Lock.rank 0) (result : RmqResult (Option StoredMessage)) :
    (onFetched i key idx rest result).Within Lock.rank 0 := by
  unfold onFetched
  split
  · exact (within_updateState i _).bind fun _ => within_ret _
  · exact h
  · exact (within_updateState i _).bind fun _ => h
  · exact h
  · exact h
  · exact within_ret _

theorem within_pollFrom (startIdx elementsLen : Nat) (l : List Nat) :
    (pollFrom i c startIdx elementsLen l : ConsumerL π (Option StoredMessage)).Within Lock.rank 0 := by
  induction l with
  | nil => exact within_ret _
  | cons n l ih =>
    have hentry : (pollEntry i ((startIdx + n) % elementsLen) : ConsumerL π _).Within Lock.rank 0 :=
      within_inspect _ (by exact le_rfl) _ _
    refine hentry.bind fun entry => ?_
    unfold onEntry
    split
    · exact ih
    · exact ih
    · refine (within_onBroker (LockedBroker.within_fetchOneFromPosition _ _ _ _)).attempt.bind fun result => ?_
      exact within_onFetched i _ _ ih result

theorem within_pollOnce : (pollOnce i c : ConsumerL π (Option StoredMessage)).Within Lock.rank 0 := by
  have hbounds : (pollBounds i : ConsumerL π _).Within Lock.rank 0 := within_inspect _ (by exact le_rfl) _ _
  refine hbounds.bind fun bounds => ?_
  show Within Lock.rank 0 (if bounds.2 = 0 then _ else _)
  split
  · exact within_ret _
  · exact within_pollFrom i c _ _ _

theorem within_newAssignment (order : HashOrder) (topics : List String) :
    (newAssignment c order topics : ConsumerL π TopicPartitionList).Within Lock.rank 0 := by
  unfold newAssignment
  split
  · exact within_onBroker (LockedBroker.within_joinGroup _ _ _ _)
  · refine (Within.forEach (fun topic => ?_) topics).bind fun results => ?_
    · exact (within_onBroker (LockedBroker.within_metadata (some topic))).attempt
    · exact within_ret _

theorem within_subscribe (order : HashOrder) (topics : List String) :
    (subscribe i c order topics : ConsumerL π Unit).Within Lock.rank 0 := by
  refine (within_newAssignment c order topics).bind fun assignment => ?_
  exact within_updateState i _

theorem within_leave (order : HashOrder) : (leave c order : ConsumerL π Unit).Within Lock.rank 0 := by
  unfold leave
  split
  · exact within_onBroker (LockedBroker.within_leaveGroup _ _ _)
  · exact within_ret _

theorem within_unsubscribe (order : HashOrder) : (unsubscribe i c order : ConsumerL π Unit).Within Lock.rank 0 := by
  refine (within_readState i _).bind fun _ => ?_
  refine (within_leave c order).bind fun _ => ?_
  exact within_updateState i _

theorem within_seekTarget (topic : String) (partition : Int) (offset : Offset) :
    (seekTarget c topic partition offset : ConsumerL π Int).Within Lock.rank 0 := by
  have hwatermarks := within_onBroker (π := π) (LockedBroker.within_watermarks topic partition)
  cases offset with
  | beginning => exact hwatermarks.bind fun _ => within_ret _
  | end_ => exact hwatermarks.bind fun _ => within_ret _
  | offset o => exact within_ret _
  | stored =>
    unfold seekTarget
    dsimp only
    split
    · exact (within_onBroker (LockedBroker.within_committedOffset _ _ _)).bind fun _ => within_ret _
    · exact within_ret _
  | offsetTail tail =>
    refine hwatermarks.bind fun w => ?_
    dsimp only
    split
    · exact within_ret _
    · exact within_ret _

theorem within_seek (topic : String) (partition : Int) (offset : Offset) :
    (seek i c topic partition offset : ConsumerL π Unit).Within Lock.rank 0 := by
  refine (within_seekTarget c topic partition offset).bind fun target => ?_
  exact within_updateState i _

theorem within_commitElem (gid : String) (elem : TopicPartitionElem) :
    (commitElem gid elem : ConsumerL π Unit).Within Lock.rank 0 := by
  unfold commitElem
  split
  · exact within_onBroker (LockedBroker.within_commitOffset _ _ _ _)
  · exact within_ret _

theorem within_commit (tpl : TopicPartitionList) : (commit c tpl : ConsumerL π Unit).Within Lock.rank 0 := by
  unfold commit
  split
  · refine (Within.forEach (within_commitElem _) tpl.elements).bind fun _ => ?_
    exact within_ret _
  · exact within_ret _

theorem within_committed : (committed i c : ConsumerL π TopicPartitionList).Within Lock.rank 0 := by
  refine (within_readState i _).bind fun assigned => ?_
  split
  · refine (Within.forEach (fun elem => ?_) assigned.elements).bind fun elements => ?_
    · refine (within_onBroker (LockedBroker.within_committedOffset _ _ _)).bind fun offset => ?_
      exact within_ret _
    · exact within_ret _
  · exact within_ret _

end LockedConsumer

namespace LockedWorld

variable {π : Type}

theorem within_reply {σ α : Type} {x : LockAct Lock σ RmqError α} (h : x.Within Lock.rank 0) (f : α → Reply) :
    (reply x f).Within Lock.rank 0 :=
  h.bind fun _ => within_ret _

theorem within_request (i : Nat) (c : BaseConsumer) (r : Request) :
    (request i c r : LockedConsumer.ConsumerL π Reply).Within Lock.rank 0 := by
  cases r with
  | pollOnce => exact within_reply (LockedConsumer.within_pollOnce i c) _
  | subscribe order topics => exact within_reply (LockedConsumer.within_subscribe i c order topics) _
  | unsubscribe order => exact within_reply (LockedConsumer.within_unsubscribe i c order) _
  | assignment => exact within_reply (LockedConsumer.within_readState i _) _
  | assign partitions => exact within_reply (LockedConsumer.within_updateState i _) _
  | seek topic partition offset => exact within_reply (LockedConsumer.within_seek i c topic partition offset) _
  | commit tpl => exact within_reply (LockedConsumer.within_commit c tpl) _
  | commitMessage msg => exact within_reply (LockedConsumer.within_commit c _) _
  | storeOffset topic partition offset => exact within_reply (LockedConsumer.within_updateState i _) _
  | committed => exact within_reply (LockedConsumer.within_committed i c) _
  | positions => exact within_reply (within_inspect _ (by exact le_rfl) _ _) _
  | pause partitions => exact within_reply (LockedConsumer.within_updateState i _) _
  | resume partitions => exact within_reply (LockedConsumer.within_updateState i _) _
  | metadata topic => exact within_reply (LockedConsumer.within_onBroker (LockedBroker.within_metadata topic)) _
  | watermarks topic partition =>
    exact within_reply (LockedConsumer.within_onBroker (LockedBroker.within_watermarks topic partition)) _

/-- Every operation takes its locks in the order of their ranks and releases them. -/
theorem within_body [Partitioner π] (ids : Nat → BaseConsumer) (op : Op) :
    (body ids op : LockAct Lock (World π) RmqError Reply).Within Lock.rank 0 := by
  cases op with
  | send call =>
    have hproduce := LockedBroker.within_produce (π := π) call.topic call.partition call.content call.headers
      call.timestamp call.clock
    exact (within_reply (hproduce.mono (by decide)) _).zoom _
  | consumer i r => exact (within_request i (ids i) r).zoom _
  | shutdown => exact (within_reply (LockedBroker.within_shutdownBroker.mono (by decide)) _).zoom _

end LockedWorld

/-! ### Threads that take the locks -/

section

variable {π : Type} [Partitioner π] {ι : Type} [DecidableEq ι]

/-- No deadlock and no endless call: in every state that threads reach, whether or not waiting writers keep readers out,
a call in flight means that some call in flight can go on, and the calls in flight cannot go on forever. -/
theorem calls_return (ids : Nat → BaseConsumer) (P : LockSystem.Policy ι Op Lock (World π) RmqError Reply) (start : World π)
    {choices : List (Choice ι Op)} {w : LockSystem ι Op Lock (World π) RmqError Reply}
    (h : LockSystem.Run (LockedWorld.body ids) P (.init start) choices w) :
    ((∃ i, w.running i ≠ none) → ∃ w', LockSystem.Own (LockedWorld.body ids) P w w') ∧
      ¬ ∃ run : Nat → LockSystem ι Op Lock (World π) RmqError Reply,
        run 0 = w ∧ ∀ n, LockSystem.Own (LockedWorld.body ids) P (run n) (run (n + 1)) := by
  have hdisciplined := (LockSystem.disciplined_init start).run (LockedWorld.within_body ids) h
  have hfinite := (LockSystem.finite_init start).run h
  refine ⟨fun hbusy => ?_, fun hforever => ?_⟩
  · obtain ⟨i, hi⟩ := hbusy
    exact hdisciplined.exists_step Lock.rank_le hi
  · exact not_acc_iff_exists_descending_chain.2 hforever hfinite.acc_own

end

/-- A thread has locked the broker to shut it down, and another one has to wait with its message. -/
private theorem run_shutdownRace (b : Broker RoundRobinPartitioner) :
    ∃ w, LockSystem.Run (LockedWorld.body fun _ => ⟨none, "c"⟩) .writersFirst (.init (World.init b))
        [.call 0 .shutdown, .step 0, .call 1 sendOne] w ∧
      w.Waits 1 .broker .read ∧ w.Holds 0 .broker .write := by
  have hfree : ∀ (x : LockAct Lock (World RoundRobinPartitioner) RmqError Reply) i m,
      ¬ ((LockSystem.init (World.init b)).resume 0 Op.shutdown [] (World.init b) x).Holds i Lock.broker m := by
    rintro x i m ⟨c, held, y, hi, hmem⟩
    rcases LockSystem.running_resume hi with ⟨-, -, rfl, -, -⟩ | ⟨-, hi⟩
    · cases hmem
    · cases hi
  exact ⟨_, .snoc (.snoc (.snoc (.nil _) (.call (i := 0) .shutdown rfl)) (.acquire rfl (hfree _)))
    (.call (i := 1) sendOne rfl), ⟨_, _, _, rfl⟩, ⟨_, _, _, rfl, List.mem_cons_self ..⟩⟩

theorem calls_return_shutdown :
    let ids : Nat → BaseConsumer := fun _ => ⟨none, "c"⟩
    let config := RmqClientConfig.new.set ConfigKeys.brokerId "b"
    ∃ (b : Broker RoundRobinPartitioner) (w : LockSystem Nat Op Lock (World RoundRobinPartitioner) RmqError Reply),
      Broker.new config = .ok b ∧ w.Waits 1 .broker .read ∧ w.Holds 0 .broker .write ∧
      ∃ w', LockSystem.Own (LockedWorld.body ids) .writersFirst w w' := by
  intro ids config
  obtain ⟨b, hb⟩ : ∃ b, Broker.new config = .ok b := ⟨_, rfl⟩
  obtain ⟨w, hrun, hwaits, hholds⟩ := run_shutdownRace b
  refine ⟨b, w, hb, hwaits, hholds, (calls_return ids .writersFirst (World.init b) hrun).1 ⟨1, ?_⟩⟩
  obtain ⟨c, held, k, hi⟩ := hwaits
  rw [hi]
  exact Option.some_ne_none _

end RMemQueue
