import RMemQueue.BrokerRun
import RMemQueue.Assignment

/-!
# What joining and leaving a group do

`join_group` and `leave_group` read the partition counts from the metadata of all topics; `countsOf` and `countsOfAll`
turn them into the tables that the group's `join` and `leave` get.  A negative partition count makes the metadata, and
with it both operations, panic before the group changes.
-/

namespace RMemQueue

open Conc

namespace InMemoryBackend

variable {b : InMemoryBackend}

/-- No topic has a negative number of partitions. -/
def NonNeg (b : InMemoryBackend) : Prop := ∀ topic n, b.count? topic = some n → 0 ≤ n

/-- Every topic of a list created if it does not exist. -/
def insertTopics (b : InMemoryBackend) (topics : List String) (n : Int) : InMemoryBackend :=
  topics.foldl (fun b topic => b.insertTopic topic n) b

theorem count?_insertTopic (b : InMemoryBackend) (topic : String) (n : Int) (name : String) :
    (b.insertTopic topic n).count? name = if b.count? name = none ∧ name = topic then some n else b.count? name := by
  unfold count?
  rw [topic?_insertTopic]
  simp only [Option.map_eq_none_iff]
  split <;> rfl

theorem count?_insertTopics (b : InMemoryBackend) (topics : List String) (n : Int) (name : String) :
    (b.insertTopics topics n).count? name =
      if b.count? name = none ∧ name ∈ topics then some n else b.count? name := by
  induction topics generalizing b with
  | nil => simp [insertTopics]
  | cons topic topics ih =>
    show ((b.insertTopic topic n).insertTopics topics n).count? name = _
    rw [ih, count?_insertTopic]
    by_cases ht : name = topic
    · subst ht
      by_cases hn : b.count? name = none <;> simp [hn]
    · simp [ht]

theorem shutdown_insertTopics (b : InMemoryBackend) (topics : List String) (n : Int) :
    (b.insertTopics topics n).shutdown = b.shutdown := by
  induction topics generalizing b with
  | nil => rfl
  | cons topic topics ih =>
    show ((b.insertTopic topic n).insertTopics topics n).shutdown = _
    rw [ih, insertTopic]
    split <;> rfl

private theorem forall₂_of_mapM {α β : Type} {f : α → Option β} {l : List α} {r : List β} (h : l.mapM f = some r) :
    List.Forall₂ (fun a b => f a = some b) l r := by
  induction l generalizing r with
  | nil =>
    obtain rfl : [] = r := by simpa using h
    exact .nil
  | cons a l ih =>
    rw [List.mapM_cons] at h
    cases ha : f a with
    | none => simp [ha] at h
    | some b =>
      cases hl : l.mapM f with
      | none => simp [ha, hl] at h
      | some bs =>
        obtain rfl : b :: bs = r := by simpa [ha, hl] using h
        exact .cons ha (ih hl)

private theorem mapM_eq_none {α β : Type} {f : α → Option β} {l : List α} (h : l.mapM f = none) :
    ∃ a ∈ l, f a = none := by
  induction l with
  | nil => simp at h
  | cons a l ih =>
    rw [List.mapM_cons] at h
    cases ha : f a with
    | none => exact ⟨a, List.mem_cons_self .., ha⟩
    | some b =>
      cases hl : l.mapM f with
      | none =>
        obtain ⟨a', ha', hf⟩ := ih hl
        exact ⟨a', List.mem_cons_of_mem _ ha', hf⟩
      | some bs => simp [ha, hl] at h

/-- The metadata of all topics: every topic is listed, under its own name and with its partitions. -/
theorem metadata_all {ms : List TopicMetadata} (h : b.allTopics.mapM Topic.metadata? = some ms) :
    b.NonNeg ∧ (∀ tm ∈ ms, b.count? tm.name = some (tm.partitions.length : Int)) ∧
      ∀ topic n, b.count? topic = some n → ∃ tm ∈ ms, tm.name = topic := by
  have hall := forall₂_of_mapM h
  have hmem : ∀ {t : Topic} {tm : TopicMetadata}, t ∈ b.allTopics → t.metadata? = some tm →
      0 ≤ t.partitionCount ∧ b.count? tm.name = some (tm.partitions.length : Int) := by
    intro t tm ht htm
    obtain ⟨h0, hname, hids⟩ := Topic.metadata?_eq_some htm
    have hlen := congrArg List.length hids
    rw [List.length_map, List.length_map, List.length_range] at hlen
    refine ⟨h0, ?_⟩
    rw [count?, hname, mem_allTopics.1 ht, hlen, Option.map_some, Int.toNat_of_nonneg h0]
  have hfind : ∀ topic n, b.count? topic = some n → ∃ t tm, t ∈ b.allTopics ∧ tm ∈ ms ∧ t.metadata? = some tm ∧
      t.name = topic ∧ t.partitionCount = n := by
    intro topic n hn
    obtain ⟨t, ht, rfl⟩ := Option.map_eq_some_iff.1 hn
    have hname := name_of_topic? ht
    have hta : t ∈ b.allTopics := mem_allTopics.2 (by rw [hname, ht])
    obtain ⟨i, hi, rfl⟩ := List.getElem_of_mem hta
    have hi' : i < ms.length := hall.length_eq ▸ hi
    exact ⟨_, _, hta, List.getElem_mem hi', List.forall₂_iff_get.1 hall |>.2 i hi hi', hname, rfl⟩
  refine ⟨fun topic n hn => ?_, fun tm htm => ?_, fun topic n hn => ?_⟩
  · obtain ⟨t, tm, hta, -, htm, -, rfl⟩ := hfind topic n hn
    exact (hmem hta htm).1
  · obtain ⟨i, hi, rfl⟩ := List.getElem_of_mem htm
    have hi' : i < b.allTopics.length := hall.length_eq ▸ hi
    exact (hmem (List.getElem_mem hi') (List.forall₂_iff_get.1 hall |>.2 i hi' hi)).2
  · obtain ⟨t, tm, -, htm, hm, rfl, -⟩ := hfind topic n hn
    exact ⟨tm, htm, (Topic.metadata?_eq_some hm).2.1⟩

theorem metadata_all_eq_none (h : b.allTopics.mapM Topic.metadata? = none) : ¬b.NonNeg := by
  intro hn
  obtain ⟨t, ht, hm⟩ := mapM_eq_none h
  have := hn t.name t.partitionCount (by rw [count?, mem_allTopics.1 ht, Option.map_some])
  rw [Topic.metadata?, if_neg (by omega)] at hm
  cases hm

end InMemoryBackend

namespace Broker

variable {π : Type} {b : Broker π}

/-- The table that `join_group` passes on: the counts of the joining member's topics. -/
theorem lookup_countsOf {backend : InMemoryBackend} {ms : List TopicMetadata}
    (h : backend.allTopics.mapM Topic.metadata? = some ms) (brokerId : String) (topics : List String) (topic : String) :
    (countsOf topics ⟨brokerId, ms⟩).lookup topic = if topic ∈ topics then backend.count? topic else none := by
  obtain ⟨-, hms, hall⟩ := InMemoryBackend.metadata_all h
  have hfind : ∀ name, ((ms.find? (·.name = name)).map fun tm => (tm.partitions.length : Int)) =
      backend.count? name := by
    intro name
    cases hf : ms.find? (·.name = name) with
    | none =>
      cases hc : backend.count? name with
      | none => rfl
      | some n =>
        obtain ⟨tm, htm, hname⟩ := hall name n hc
        have := List.find?_eq_none.1 hf tm htm
        simp [hname] at this
    | some tm =>
      obtain rfl : tm.name = name := by simpa using List.find?_some hf
      exact (hms tm (List.mem_of_find?_eq_some hf)).symm
  unfold countsOf
  -- the last topic of the list has the last word on its own entry
  induction topics using List.reverseRecOn with
  | nil => simp
  | append_singleton topics t ih =>
    have ht := hfind t
    rw [List.foldl_append, List.foldl_cons, List.foldl_nil]
    by_cases htt : topic = t
    · subst htt
      cases hf : ms.find? (·.name = topic) with
      | none =>
        rw [hf] at ht
        simp [ih, ← ht]
      | some tm =>
        rw [hf] at ht
        simp [← ht]
    · cases hf : ms.find? (·.name = t) with
      | none => simp [htt, ih]
      | some tm => simp [htt, ih, AList.lookup_insert_ne htt]

/-- The table that `leave_group` passes on: the counts of all topics. -/
theorem lookup_countsOfAll {backend : InMemoryBackend} {ms : List TopicMetadata}
    (h : backend.allTopics.mapM Topic.metadata? = some ms) (brokerId : String) (topic : String) :
    (countsOfAll ⟨brokerId, ms⟩).lookup topic = backend.count? topic := by
  obtain ⟨-, hms, hall⟩ := InMemoryBackend.metadata_all h
  have hfold : ∀ (l : List TopicMetadata) (counts : PartitionCounts), (∀ tm ∈ l, tm ∈ ms) →
      (l.foldl (fun counts tm => counts.insert tm.name tm.partitions.length) counts).lookup topic =
        if ∃ tm ∈ l, tm.name = topic then backend.count? topic else counts.lookup topic := by
    intro l
    induction l with
    | nil => simp
    | cons tm l ih =>
      intro counts hl
      rw [List.foldl_cons, ih _ fun tm' h' => hl tm' (List.mem_cons_of_mem _ h')]
      have htm := hms tm (hl tm (List.mem_cons_self ..))
      by_cases hn : tm.name = topic
      · subst hn
        simp [htm]
      · simp [hn, AList.lookup_insert_ne (Ne.symm hn)]
  rw [countsOfAll, hfold ms ∅ fun _ h => h]
  split
  · rfl
  · rename_i hno
    cases hc : backend.count? topic with
    | none => rfl
    | some n => exact absurd (hall topic n hc) hno

private theorem run_ensureTopics (h : b.Running) (topics : List String) (n : Int) :
    ∃ us, (Act.forEach (fun topic => ensureTopic topic n) topics).run b =
      (.ok us, { b with backend := b.backend.insertTopics topics n }) := by
  induction topics generalizing b with
  | nil => exact ⟨[], rfl⟩
  | cons topic topics ih =>
    have hstep : (ensureTopic topic n).run b = (.ok (), { b with backend := b.backend.insertTopic topic n }) := by
      rw [ensureTopic, run_onBackend, InMemoryBackend.run_ensureTopic h.backend]
    have hr : Running { b with backend := b.backend.insertTopic topic n } := by
      refine ⟨h.broker, ?_⟩
      rw [← h.backend]
      exact InMemoryBackend.shutdown_insertTopics b.backend [topic] n
    obtain ⟨us, hus⟩ := ih hr
    refine ⟨() :: us, ?_⟩
    rw [Act.forEach, Act.run_bind, hstep, Outcome.andThen_ok, Act.run_bind, hus]
    rfl

private theorem run_metadata_none (h : b.Running) (brokerId : String) :
    (onBackend (InMemoryBackend.metadata brokerId none) : BrokerM π Metadata).run b =
      ((b.backend.allTopics.mapM Topic.metadata?).elim .panic fun ms => .ok ⟨brokerId, ms⟩, b) := by
  rw [run_onBackend, InMemoryBackend.run_metadata_none h.backend]

/-- The broker of a join after the topics and the group have been created. -/
def prepared (b : Broker π) (groupId : String) (topics : List String) : Broker π :=
  { b with
    backend := b.backend.insertTopics topics b.config.defaultNumPartitions
    consumerGroups :=
      if (b.consumerGroups.lookup groupId).isSome then b.consumerGroups
      else b.consumerGroups.insert groupId (.new groupId) }

/-- A join creates the topics and the group; then it panics, or the group deals its partitions out again. -/
theorem run_joinGroup (h : b.Running) (order : HashOrder) (groupId memberId : String) (topics : List String) :
    (¬(b.prepared groupId topics).backend.NonNeg ∧
      (joinGroup order groupId memberId topics).run b = (.panic, b.prepared groupId topics)) ∨
    ((b.prepared groupId topics).backend.NonNeg ∧ ∃ counts : PartitionCounts,
      (∀ topic, counts.lookup topic = if topic ∈ topics then (b.prepared groupId topics).backend.count? topic else none) ∧
      (joinGroup order groupId memberId topics).run b =
        (.ok (RoundRobinAssignor.dealt order
            ((((b.consumerGroups.lookup groupId).getD (.new groupId)).memberTopics).insert memberId topics) counts
            memberId),
          { b with
            backend := (b.prepared groupId topics).backend
            consumerGroups := b.consumerGroups.insert groupId
              (((b.consumerGroups.lookup groupId).getD (.new groupId)).join order memberId topics counts).2 })) := by
  obtain ⟨us, hus⟩ := run_ensureTopics h topics b.config.defaultNumPartitions
  have hr : (b.prepared groupId topics).Running :=
    ⟨h.broker, (InMemoryBackend.shutdown_insertTopics ..).trans h.backend⟩
  -- the part of the call before the metadata is read
  have hlead : (joinGroup order groupId memberId topics).run b =
      (do
        let metadata ← onBackend (InMemoryBackend.metadata b.config.brokerId none)
        onGroup groupId fun g => g.join order memberId topics (countsOf topics metadata) :
          BrokerM π TopicPartitionList).run (b.prepared groupId topics) := by
    rw [joinGroup, Act.run_bind, run_checkShutdown h, Outcome.andThen_ok, Act.run_bind, getConfig, Act.run_read,
      Outcome.andThen_ok, Act.run_bind, hus, Outcome.andThen_ok, Act.run_bind, Act.run_modify, Outcome.andThen_ok,
      Act.run_bind]
    unfold prepared
    dsimp only
    split <;> rfl
  rw [hlead, Act.run_bind, run_metadata_none hr]
  cases hm : (b.prepared groupId topics).backend.allTopics.mapM Topic.metadata? with
  | none => exact Or.inl ⟨InMemoryBackend.metadata_all_eq_none hm, rfl⟩
  | some ms =>
    refine Or.inr ⟨(InMemoryBackend.metadata_all hm).1, countsOf topics ⟨b.config.brokerId, ms⟩,
      lookup_countsOf hm _ topics, ?_⟩
    simp only [Option.elim_some, Outcome.andThen_ok, onGroup, Act.run_step]
    cases hg : b.consumerGroups.lookup groupId with
    | some g =>
      simp only [prepared, hg, Option.isSome_some, ↓reduceIte, Option.getD_some, (g.join_spec ..).2.1]
      rfl
    | none =>
      simp only [prepared, hg, Option.isSome_none, Bool.false_eq_true, ↓reduceIte, AList.lookup_insert,
        Option.getD_none, AList.insert_insert, ((ConsumerGroup.new groupId).join_spec ..).2.1]
      rfl

theorem run_leaveGroup_of_none (h : b.Running) (order : HashOrder) {groupId : String} (memberId : String)
    (hg : b.consumerGroups.lookup groupId = none) :
    (leaveGroup order groupId memberId).run b = (.err (.groupNotFound groupId), b) := by
  rw [leaveGroup, Act.run_bind, run_checkShutdown h, Outcome.andThen_ok, Act.run_bind]
  simp [requireGroup, hg]

/-- A leave panics, or the group deals its partitions out again. -/
theorem run_leaveGroup (h : b.Running) (order : HashOrder) {groupId : String} (memberId : String) {g : ConsumerGroup}
    (hg : b.consumerGroups.lookup groupId = some g) :
    (¬b.backend.NonNeg ∧ (leaveGroup order groupId memberId).run b = (.panic, b)) ∨
    (b.backend.NonNeg ∧ ∃ counts : PartitionCounts, (∀ topic, counts.lookup topic = b.backend.count? topic) ∧
      (leaveGroup order groupId memberId).run b =
        (.ok (), { b with consumerGroups := b.consumerGroups.insert groupId (g.leave order memberId counts) })) := by
  have hlead : (leaveGroup order groupId memberId).run b =
      (do
        let metadata ← onBackend (InMemoryBackend.metadata b.config.brokerId none)
        onGroup groupId fun g => (.ok (), g.leave order memberId (countsOfAll metadata)) : BrokerM π Unit).run b := by
    rw [leaveGroup, Act.run_bind, run_checkShutdown h, Outcome.andThen_ok, Act.run_bind]
    simp only [requireGroup, Act.run_read, hg, Option.isSome_some, ↓reduceIte, Outcome.andThen_ok]
    rfl
  rw [hlead, Act.run_bind, run_metadata_none h]
  cases hm : b.backend.allTopics.mapM Topic.metadata? with
  | none => exact Or.inl ⟨InMemoryBackend.metadata_all_eq_none hm, rfl⟩
  | some ms =>
    refine Or.inr ⟨(InMemoryBackend.metadata_all hm).1, countsOfAll ⟨b.config.brokerId, ms⟩,
      lookup_countsOfAll hm _, ?_⟩
    simp only [Option.elim_some, Outcome.andThen_ok, onGroup, Act.run_step, hg]
    rfl

end Broker

end RMemQueue
