import RMemQueue.GroupRun

/-!
# The assignments of a group

`join_group` rebalances with the partition counts of the joining member's topics only, `leave_group` with those of
all topics.  A join therefore takes away the partitions of every topic that only other members subscribe to
(`covered_join_iff`).  As long as each join names all topics that another member subscribes to and that have a
partition, the assignments are those that the table of subscriptions determines (`Dealt`), whatever the history.
-/

namespace RMemQueue

open Conc

variable {π : Type}

inductive GroupCall where
  | join (order : HashOrder) (memberId : String) (topics : List String)
  | leave (order : HashOrder) (memberId : String)

/-- The broker after a call on a group, whatever the call returns. -/
def GroupCall.run (groupId : String) (b : Broker π) : GroupCall → Broker π
  | .join order memberId topics => ((Broker.joinGroup order groupId memberId topics).run b).2
  | .leave order memberId => ((Broker.leaveGroup order groupId memberId).run b).2

/-- The broker after the calls. -/
def runCalls (groupId : String) (b : Broker π) (calls : List GroupCall) : Broker π :=
  calls.foldl (GroupCall.run groupId) b

namespace Broker

/-- The current members of a group with their topics. -/
def table (b : Broker π) (groupId : String) : MemberTopics :=
  ((b.consumerGroups.lookup groupId).map (·.memberTopics)).getD ∅

/-- The entry of a member in the assignments of its group. -/
def assigned? (b : Broker π) (groupId m : String) : Option TopicPartitionList :=
  (b.consumerGroups.lookup groupId).bind (·.assignments.lookup m)

/-- The members to which a partition is assigned. -/
def holders (b : Broker π) (groupId : String) (key : String × Int) : List String :=
  (((b.consumerGroups.lookup groupId).map (·.assignments.entries)).getD []).filterMap fun e =>
    if key ∈ e.2.keys then some e.1 else none

theorem mem_holders {b : Broker π} {groupId owner : String} {key : String × Int} :
    owner ∈ b.holders groupId key ↔ ∃ l, b.assigned? groupId owner = some l ∧ key ∈ l.keys := by
  unfold holders assigned?
  cases b.consumerGroups.lookup groupId with
  | none => simp
  | some g =>
    simp only [Option.map_some, Option.getD_some, List.mem_filterMap, Option.bind_some]
    constructor
    · rintro ⟨⟨m, l⟩, he, h⟩
      split at h
      · obtain rfl := Option.some.inj h
        exact ⟨l, AList.mem_lookup_iff.2 he, by assumption⟩
      · cases h
    · rintro ⟨l, hl, hk⟩
      exact ⟨⟨owner, l⟩, AList.mem_lookup_iff.1 hl, by simp [hk]⟩

/-- Every existing partition of a topic that a current member subscribes to is assigned to a current member. -/
def Covered (groupId : String) (b : Broker π) : Prop :=
  ∀ m topics, (b.table groupId).lookup m = some topics → ∀ topic ∈ topics, ∀ p,
    (b.backend.partition? topic p).isSome →
      ∃ owner l, owner ∈ b.table groupId ∧ b.assigned? groupId owner = some l ∧ (topic, p) ∈ l.keys

/-- The call is no join, or its list has every topic with a partition that another current member subscribes to. -/
def Names (groupId : String) (b : Broker π) : GroupCall → Prop
  | .join _ m topics => ∀ m' topics', m' ≠ m → (b.table groupId).lookup m' = some topics' → ∀ topic ∈ topics',
      (b.backend.partition? topic 0).isSome → topic ∈ topics
  | .leave _ _ => True

/-- Every call of the run meets the condition in the state in which it is made. -/
def AllName (groupId : String) : Broker π → List GroupCall → Prop
  | _, [] => True
  | b, call :: calls => b.Names groupId call ∧ AllName groupId (call.run groupId b) calls

/-! ### The canonical assignments -/

/-- The partitions that a member gets when the whole table is dealt out with the counts of all topics. -/
def share (b : Broker π) (groupId m topic : String) : List Nat :=
  deal (RoundRobinAssignor.subscribed (b.table groupId) topic) ((b.backend.count? topic).getD 0).toNat m

/-- The broker runs, the topics of the members exist, and each member has its share. -/
structure Dealt (groupId : String) (b : Broker π) : Prop where
  running : b.Running
  known : ∀ m topics, (b.table groupId).lookup m = some topics → ∀ topic ∈ topics, b.backend.count? topic ≠ none
  share : ∀ m ∈ b.table groupId, ∃ l, b.assigned? groupId m = some l ∧
    ∀ topic q, (topic, q) ∈ l.keys ↔ ∃ p : Nat, q = p ∧ p ∈ b.share groupId m topic

variable {groupId : String} {b : Broker π}

theorem mem_share {m topic : String} {p : Nat} (h : p ∈ b.share groupId m topic) :
    ∃ topics, (b.table groupId).lookup m = some topics ∧ topic ∈ topics :=
  RoundRobinAssignor.mem_subscribed.1 (mem_of_mem_deal h)

/-- The share of a member depends on the table and on the counts of the topics that the member has subscribed to. -/
theorem mem_share_congr {b' : Broker π} {m topic : String} {p : Nat} (ht : b'.table groupId = b.table groupId)
    (hcount : m ∈ RoundRobinAssignor.subscribed (b.table groupId) topic →
      b'.backend.count? topic = b.backend.count? topic) :
    p ∈ b'.share groupId m topic ↔ p ∈ b.share groupId m topic := by
  unfold share
  rw [ht]
  constructor
  · intro hp
    rwa [hcount (mem_of_mem_deal hp)] at hp
  · intro hp
    rwa [hcount (mem_of_mem_deal hp)]

/-- The canonical assignments cover every subscribed topic. -/
theorem Dealt.covered (h : b.Dealt groupId) : b.Covered groupId := by
  intro m topics hm topic ht p hp
  obtain ⟨n, hn, h0, hlt⟩ := (InMemoryBackend.isSome_partition?_iff ..).1 hp
  have hsub : m ∈ RoundRobinAssignor.subscribed (b.table groupId) topic :=
    RoundRobinAssignor.mem_subscribed.2 ⟨topics, hm, ht⟩
  obtain ⟨owner, -, hdeal⟩ := exists_mem_deal (List.ne_nil_of_mem hsub) (p := p.toNat)
    (n := ((b.backend.count? topic).getD 0).toNat) (by rw [hn, Option.getD_some]; omega)
  obtain ⟨ownerTopics, hotopics, -⟩ := mem_share hdeal
  have howner : owner ∈ b.table groupId := AList.lookup_isSome.1 (by rw [hotopics]; rfl)
  obtain ⟨l, hl, hkeys⟩ := h.share owner howner
  exact ⟨owner, l, howner, hl, (hkeys topic p).2 ⟨p.toNat, by omega, hdeal⟩⟩

/-! ### What a call does to the group -/

private theorem table_insert (backend : InMemoryBackend) (g : ConsumerGroup) :
    Broker.table { b with backend, consumerGroups := b.consumerGroups.insert groupId g } groupId = g.memberTopics := by
  simp [table]

private theorem assigned?_insert (backend : InMemoryBackend) (g : ConsumerGroup) (m : String) :
    Broker.assigned? { b with backend, consumerGroups := b.consumerGroups.insert groupId g } groupId m =
      g.assignments.lookup m := by
  simp [assigned?]

private theorem table_prepared (topics : List String) : (b.prepared groupId topics).table groupId = b.table groupId := by
  unfold table prepared
  cases h : b.consumerGroups.lookup groupId <;> simp [h, ConsumerGroup.new]

private theorem assigned?_prepared (topics : List String) (m : String) :
    (b.prepared groupId topics).assigned? groupId m = b.assigned? groupId m := by
  unfold assigned? prepared
  cases h : b.consumerGroups.lookup groupId <;> simp [h, ConsumerGroup.new]

private theorem memberTopics_getD : ((b.consumerGroups.lookup groupId).getD (.new groupId)).memberTopics =
    b.table groupId := by
  unfold table
  cases b.consumerGroups.lookup groupId <;> rfl

/-- The group has dealt out the given table. -/
structure Redealt (groupId : String) (order : HashOrder) (memberTopics : MemberTopics) (counts : PartitionCounts)
    (b : Broker π) : Prop where
  running : b.Running
  table : b.table groupId = memberTopics
  assigned : ∀ m ∈ memberTopics, b.assigned? groupId m = some (RoundRobinAssignor.dealt order memberTopics counts m)

/-- A join that panics leaves the group as it is; any other one deals its table out again. -/
theorem join_cases (h : b.Running) (order : HashOrder) (m : String) (topics : List String) {b' : Broker π}
    {o : Outcome RmqError TopicPartitionList} (hb' : (joinGroup order groupId m topics).run b = (o, b')) :
    b'.backend = (b.prepared groupId topics).backend ∧ b'.config = b.config ∧
    ((o = .panic ∧ ¬b'.backend.NonNeg ∧ b'.Running ∧ b'.table groupId = b.table groupId ∧
        ∀ m', b'.assigned? groupId m' = b.assigned? groupId m') ∨
      (b'.backend.NonNeg ∧ ∃ counts : PartitionCounts,
        (∀ topic, counts.lookup topic = if topic ∈ topics then b'.backend.count? topic else none) ∧
        o = .ok (RoundRobinAssignor.dealt order ((b.table groupId).insert m topics) counts m) ∧
        Redealt groupId order ((b.table groupId).insert m topics) counts b')) := by
  have hs : (b.prepared groupId topics).backend.shutdown = false :=
    (InMemoryBackend.shutdown_insertTopics ..).trans h.backend
  rcases run_joinGroup h order groupId m topics with ⟨hneg, hrun⟩ | ⟨hneg, counts, hcounts, hrun⟩
  · obtain ⟨rfl, rfl⟩ := Prod.mk.inj (hrun.symm.trans hb')
    exact ⟨rfl, rfl, Or.inl ⟨rfl, hneg, ⟨h.broker, hs⟩, table_prepared topics, assigned?_prepared topics⟩⟩
  · obtain ⟨rfl, rfl⟩ := Prod.mk.inj (hrun.symm.trans hb')
    obtain ⟨ht, -, ha⟩ := ((b.consumerGroups.lookup groupId).getD (.new groupId)).join_spec order counts m topics
    rw [memberTopics_getD] at ht ha ⊢
    refine ⟨rfl, rfl, Or.inr ⟨hneg, counts, hcounts, rfl, ⟨h.broker, hs⟩, (table_insert _ _).trans ht, fun m' hm' => ?_⟩⟩
    exact (assigned?_insert _ _ _).trans ((ha m').trans (if_pos hm'))

/-- A leave fails, or deals the table out again. -/
theorem leave_cases (h : b.Running) (order : HashOrder) (m : String) {b' : Broker π} {o : Outcome RmqError Unit}
    (hb' : (leaveGroup order groupId m).run b = (o, b')) :
    (o ≠ .ok () ∧ b' = b ∧ (b.consumerGroups.lookup groupId = none ∨ ¬b.backend.NonNeg)) ∨
    (o = .ok () ∧ b'.backend = b.backend ∧ b'.config = b.config ∧ ∃ counts : PartitionCounts,
      (∀ topic, counts.lookup topic = b.backend.count? topic) ∧
      Redealt groupId order ((b.table groupId).erase m) counts b') := by
  cases hg : b.consumerGroups.lookup groupId with
  | none =>
    obtain ⟨rfl, rfl⟩ := Prod.mk.inj ((run_leaveGroup_of_none h order m hg).symm.trans hb')
    exact Or.inl ⟨by simp, rfl, Or.inl rfl⟩
  | some g =>
    rcases run_leaveGroup h order m hg with ⟨hneg, hrun⟩ | ⟨-, counts, hcounts, hrun⟩
    · obtain ⟨rfl, rfl⟩ := Prod.mk.inj (hrun.symm.trans hb')
      exact Or.inl ⟨by simp, rfl, Or.inr hneg⟩
    · obtain ⟨rfl, rfl⟩ := Prod.mk.inj (hrun.symm.trans hb')
      obtain ⟨ht, ha⟩ := g.leave_spec order counts m
      have hmt : g.memberTopics = b.table groupId := by rw [table, hg]; rfl
      rw [hmt] at ht ha
      exact Or.inr ⟨rfl, rfl, rfl, counts, hcounts, ⟨h.broker, h.backend⟩, (table_insert _ _).trans ht,
        fun m' hm' => (assigned?_insert _ _ _).trans (ha m' hm')⟩

/-! ### The run -/

/-- Counts that are right for the topics of the members give the canonical assignments. -/
private theorem Redealt.dealt {order : HashOrder} {memberTopics : MemberTopics} {counts : PartitionCounts}
    (h : Redealt groupId order memberTopics counts b)
    (hknown : ∀ m topics, memberTopics.lookup m = some topics → ∀ topic ∈ topics, b.backend.count? topic ≠ none)
    (hc : ∀ m topics, memberTopics.lookup m = some topics → ∀ topic ∈ topics,
      ((counts.lookup topic).getD 0).toNat = ((b.backend.count? topic).getD 0).toNat) : b.Dealt groupId := by
  obtain ⟨hr, rfl, ha⟩ := h
  refine ⟨hr, hknown, fun m hm => ⟨_, ha m hm, fun topic q => ?_⟩⟩
  rw [RoundRobinAssignor.mem_keys_dealt]
  refine exists_congr fun p => and_congr_right fun _ => ?_
  rw [share]
  by_cases hsub : ∃ m' topics, (b.table groupId).lookup m' = some topics ∧ topic ∈ topics
  · obtain ⟨m', topics, hm', ht⟩ := hsub
    rw [hc m' topics hm' topic ht]
  · have hno : ∀ (n : Nat), p ∉ deal (RoundRobinAssignor.subscribed (b.table groupId) topic) n m := by
      intro n hp
      obtain ⟨topics, hm', ht⟩ := RoundRobinAssignor.mem_subscribed.1 (mem_of_mem_deal hp)
      exact hsub ⟨m, topics, hm', ht⟩
    exact iff_of_false (hno _) (hno _)

theorem count?_prepared (topics : List String) (topic : String) :
    (b.prepared groupId topics).backend.count? topic =
      if b.backend.count? topic = none ∧ topic ∈ topics then some b.config.defaultNumPartitions
      else b.backend.count? topic :=
  InMemoryBackend.count?_insertTopics ..

theorem lookup_erase_some {memberTopics : MemberTopics} {m m' : String} {topics : List String}
    (h : (memberTopics.erase m).lookup m' = some topics) : memberTopics.lookup m' = some topics := by
  by_cases hm : m' = m
  · subst hm
    rw [AList.lookup_erase] at h
    cases h
  · rwa [AList.lookup_erase_ne hm] at h

private theorem Dealt.join (h : b.Dealt groupId) {order : HashOrder} {m : String} {topics : List String}
    (hn : b.Names groupId (.join order m topics)) : ((joinGroup order groupId m topics).run b).2.Dealt groupId := by
  generalize hrun : (joinGroup order groupId m topics).run b = r
  obtain ⟨o, b'⟩ := r
  obtain ⟨hb, -, hcase⟩ := join_cases h.running order m topics hrun
  -- the topics of the members are there already
  have hcount : ∀ m' topics', (b.table groupId).lookup m' = some topics' → ∀ topic ∈ topics',
      b'.backend.count? topic = b.backend.count? topic := by
    intro m' topics' hm' topic htop
    rw [hb, count?_prepared, if_neg fun hc => h.known m' topics' hm' topic htop hc.1]
  rcases hcase with ⟨-, -, hr', ht, ha⟩ | ⟨-, counts, hcounts, -, hre⟩
  · -- a panic
    refine ⟨hr', fun m' topics' hm' topic htop => ?_, fun m' hm' => ?_⟩
    · rw [ht] at hm'
      rw [hcount m' topics' hm' topic htop]
      exact h.known m' topics' hm' topic htop
    · rw [ht] at hm'
      obtain ⟨l, hl, hkeys⟩ := h.share m' hm'
      refine ⟨l, (ha m').trans hl, fun topic q => (hkeys topic q).trans ?_⟩
      refine exists_congr fun p => and_congr_right fun _ => (mem_share_congr ht fun hsub => ?_).symm
      obtain ⟨topics', hm'', htop⟩ := RoundRobinAssignor.mem_subscribed.1 hsub
      exact hcount m' topics' hm'' topic htop
  · refine hre.dealt (fun m' topics' hm' topic htop => ?_) fun m' topics' hm' topic htop => ?_
    · rcases WriteLog.lookup_insert_cases hm' with ⟨rfl, rfl⟩ | ⟨-, hm'⟩
      · rw [hb, count?_prepared]
        by_cases hc : b.backend.count? topic = none
        · simp [hc, htop]
        · simp [hc]
      · rw [hcount m' topics' hm' topic htop]
        exact h.known m' topics' hm' topic htop
    · rw [hcounts]
      by_cases hmem : topic ∈ topics
      · rw [if_pos hmem]
      · -- another member's topic without partitions
        rw [if_neg hmem]
        rcases WriteLog.lookup_insert_cases hm' with ⟨rfl, rfl⟩ | ⟨hne, hm'⟩
        · exact absurd htop hmem
        · have hno := mt (hn m' topics' hne hm' topic htop) hmem
          rw [hcount m' topics' hm' topic htop]
          cases hc : b.backend.count? topic with
          | none => rfl
          | some n =>
            have hn0 : ¬0 < n := fun h0 => hno ((InMemoryBackend.isSome_partition?_iff ..).2 ⟨n, hc, le_refl 0, h0⟩)
            simp
            omega

private theorem Dealt.leave (h : b.Dealt groupId) (order : HashOrder) (m : String) :
    ((leaveGroup order groupId m).run b).2.Dealt groupId := by
  generalize hrun : (leaveGroup order groupId m).run b = r
  obtain ⟨o, b'⟩ := r
  rcases leave_cases h.running order m hrun with ⟨-, rfl, -⟩ | ⟨-, hb, -, counts, hcounts, hre⟩
  · exact h
  · refine hre.dealt (fun m' topics' hm' topic htop => ?_) fun m' topics' hm' topic htop => ?_
    · rw [hb]
      exact h.known m' topics' (lookup_erase_some hm') topic htop
    · rw [hb, hcounts]

/-- A call that meets the condition keeps the assignments canonical. -/
theorem Dealt.step (h : b.Dealt groupId) {call : GroupCall} (hn : b.Names groupId call) :
    (call.run groupId b).Dealt groupId := by
  cases call with
  | join order m topics => exact h.join hn
  | leave order m => exact h.leave order m

theorem dealt_runCalls (h : b.Dealt groupId) {calls : List GroupCall} (hn : AllName groupId b calls) :
    (runCalls groupId b calls).Dealt groupId := by
  induction calls generalizing b with
  | nil => exact h
  | cons call calls ih => exact ih (h.step hn.1) hn.2

theorem dealt_of_none (h : b.Running) (hg : b.consumerGroups.lookup groupId = none) : b.Dealt groupId := by
  have ht : b.table groupId = ∅ := by rw [table, hg]; rfl
  exact ⟨h, by simp [ht], by simp [ht]⟩

theorem nonNeg_prepared (hn : b.backend.NonNeg) (hd : 0 ≤ b.config.defaultNumPartitions)
    (topics : List String) : (b.prepared groupId topics).backend.NonNeg := by
  intro t n ht
  rw [count?_prepared] at ht
  split at ht
  · obtain rfl := Option.some.inj ht
    exact hd
  · exact hn t n ht

/-- A call keeps the broker running, its configuration and non-negative partition counts. -/
theorem keeps_nonNeg (groupId : String) (h : b.Running) (hn : b.backend.NonNeg) (hd : 0 ≤ b.config.defaultNumPartitions)
    (call : GroupCall) : (call.run groupId b).Running ∧ (call.run groupId b).backend.NonNeg ∧
      0 ≤ (call.run groupId b).config.defaultNumPartitions := by
  cases call with
  | join order m topics =>
    show Running ((joinGroup order groupId m topics).run b).2 ∧ ((joinGroup order groupId m topics).run b).2.backend.NonNeg
      ∧ 0 ≤ ((joinGroup order groupId m topics).run b).2.config.defaultNumPartitions
    generalize hrun : (joinGroup order groupId m topics).run b = r
    obtain ⟨o, b'⟩ := r
    obtain ⟨hb, hconf, hcase⟩ := join_cases h order m topics hrun
    refine ⟨?_, hb ▸ nonNeg_prepared hn hd topics, by rw [hconf]; exact hd⟩
    rcases hcase with ⟨-, -, hr, -⟩ | ⟨-, counts, -, -, hre⟩
    · exact hr
    · exact hre.running
  | leave order m =>
    show Running ((leaveGroup order groupId m).run b).2 ∧ ((leaveGroup order groupId m).run b).2.backend.NonNeg
      ∧ 0 ≤ ((leaveGroup order groupId m).run b).2.config.defaultNumPartitions
    generalize hrun : (leaveGroup order groupId m).run b = r
    obtain ⟨o, b'⟩ := r
    rcases leave_cases h order m hrun with ⟨-, rfl, -⟩ | ⟨-, hb, hconf, counts, -, hre⟩
    · exact ⟨h, hn, hd⟩
    · exact ⟨hre.running, hb ▸ hn, by rw [hconf]; exact hd⟩

/-- Exactness: a join after which the topics are covered has met the condition. -/
theorem names_of_covered (h : b.Running) (hn : b.backend.NonNeg) (hd : 0 ≤ b.config.defaultNumPartitions)
    {call : GroupCall} (hc : (call.run groupId b).Covered groupId) : b.Names groupId call := by
  cases call with
  | leave order m => trivial
  | join order m topics =>
    intro m' topics' hne hm' topic htop hp
    by_contra hmem
    change Covered groupId ((joinGroup order groupId m topics).run b).2 at hc
    generalize hrun : (joinGroup order groupId m topics).run b = r at hc
    obtain ⟨o, b'⟩ := r
    obtain ⟨hb, -, ⟨-, hneg, -⟩ | ⟨-, counts, hcounts, -, hre⟩⟩ := join_cases h order m topics hrun
    · exact hneg (hb ▸ nonNeg_prepared hn hd topics)
    -- the other member keeps its subscription, so its topic has to be dealt out
    · have hm'' : (b'.table groupId).lookup m' = some topics' := by
        rw [hre.table, AList.lookup_insert_ne hne, hm']
      have hp' : (b'.backend.partition? topic 0).isSome := by
        rw [InMemoryBackend.isSome_partition?_iff] at hp ⊢
        rw [hb, count?_prepared, if_neg fun hc => hmem hc.2]
        exact hp
      obtain ⟨owner, l, howner, hl, hkey⟩ := hc m' topics' hm'' topic htop 0 hp'
      rw [hre.table] at howner
      obtain rfl := Option.some.inj ((hre.assigned owner howner).symm.trans hl)
      obtain ⟨p, -, hdeal⟩ := RoundRobinAssignor.mem_keys_dealt.1 hkey
      -- the join has not asked for the metadata of the topic: the deal counts no partition of it
      have := (mem_deal.1 hdeal).1
      rw [hcounts, if_neg hmem] at this
      simp at this

private theorem allName_of_covered (h : b.Running) (hn : b.backend.NonNeg) (hd : 0 ≤ b.config.defaultNumPartitions)
    {calls : List GroupCall} (hc : ∀ pre, pre <+: calls → (runCalls groupId b pre).Covered groupId) :
    AllName groupId b calls := by
  induction calls generalizing b with
  | nil => trivial
  | cons call calls ih =>
    obtain ⟨hr', hn', hd'⟩ := keeps_nonNeg groupId h hn hd call
    refine ⟨names_of_covered h hn hd (hc [call] ⟨calls, rfl⟩), ih hr' hn' hd' fun pre hpre => ?_⟩
    exact hc (call :: pre) ((List.prefix_cons_inj call).2 hpre)

/-- The partitions that a current member has. -/
def assignedSet (b : Broker π) (groupId m : String) : Set (String × Int) :=
  {key | ∃ l, b.assigned? groupId m = some l ∧ key ∈ l.keys}

/-- The canonical assignments depend on the table and the counts of its topics only. -/
theorem Dealt.assignedSet_eq {b' : Broker π} (h : b.Dealt groupId) (h' : b'.Dealt groupId)
    (ht : ∀ m, (b.table groupId).lookup m = (b'.table groupId).lookup m)
    (hc : ∀ m topics, (b.table groupId).lookup m = some topics → ∀ topic ∈ topics,
      b.backend.count? topic = b'.backend.count? topic) {m : String} (hm : m ∈ b.table groupId) :
    b.assignedSet groupId m = b'.assignedSet groupId m := by
  have hm' : m ∈ b'.table groupId := by
    rw [← AList.lookup_isSome, ← ht m, AList.lookup_isSome]
    exact hm
  obtain ⟨l, hl, hkeys⟩ := h.share m hm
  obtain ⟨l', hl', hkeys'⟩ := h'.share m hm'
  -- the subscribers of a topic are the same list, in the order of their ids
  have hsub : ∀ topic, RoundRobinAssignor.subscribed (b.table groupId) topic =
      RoundRobinAssignor.subscribed (b'.table groupId) topic := by
    intro topic
    refine RoundRobinAssignor.subscribed_eq (RoundRobinAssignor.pairwise_subscribed _ _) fun m => ?_
    rw [RoundRobinAssignor.mem_subscribed, RoundRobinAssignor.mem_subscribed, ht]
  have hshare : ∀ topic p, p ∈ b.share groupId m topic ↔ p ∈ b'.share groupId m topic := by
    intro topic p
    unfold Broker.share
    rw [← hsub]
    constructor
    · intro hp
      obtain ⟨topics, hlm, htop⟩ := RoundRobinAssignor.mem_subscribed.1 (mem_of_mem_deal hp)
      rwa [← hc m topics hlm topic htop]
    · intro hp
      obtain ⟨topics, hlm, htop⟩ := RoundRobinAssignor.mem_subscribed.1 (mem_of_mem_deal hp)
      rwa [hc m topics hlm topic htop]
  ext ⟨topic, q⟩
  simp only [assignedSet, Set.mem_ofPred_eq, hl, hl', Option.some.injEq, exists_eq_left', hkeys, hkeys', hshare]

end Broker

/-- **Group assignments.**  In every run of joins and leaves of one group in which each join names the topics with
partitions that other members subscribe to, every subscribed topic is covered after each call, and the table of
subscriptions with the counts of its topics determines what each member has.  Without negative partition counts the
condition is exact: a run all of whose states are covered meets it. -/
theorem group_assignment_covers {groupId : String} {b : Broker π} (hb : b.Running)
    (hg : b.consumerGroups.lookup groupId = none) (calls : List GroupCall) :
    (Broker.AllName groupId b calls →
      (∀ pre, pre <+: calls → (runCalls groupId b pre).Covered groupId) ∧
      ∀ (b' : Broker π) (calls' : List GroupCall), b'.Running → b'.consumerGroups.lookup groupId = none →
        Broker.AllName groupId b' calls' →
        (∀ m, ((runCalls groupId b calls).table groupId).lookup m =
          ((runCalls groupId b' calls').table groupId).lookup m) →
        (∀ m topics, ((runCalls groupId b calls).table groupId).lookup m = some topics → ∀ topic ∈ topics,
          (runCalls groupId b calls).backend.count? topic = (runCalls groupId b' calls').backend.count? topic) →
        ∀ m ∈ (runCalls groupId b calls).table groupId,
          (runCalls groupId b calls).assignedSet groupId m = (runCalls groupId b' calls').assignedSet groupId m) ∧
    (b.backend.NonNeg → 0 ≤ b.config.defaultNumPartitions →
      (∀ pre, pre <+: calls → (runCalls groupId b pre).Covered groupId) → Broker.AllName groupId b calls) := by
  have hd := Broker.dealt_of_none hb hg
  refine ⟨fun hall => ⟨fun pre hpre => ?_, fun b' calls' hb' hg' hall' ht hc m hm => ?_⟩, fun hn hdef hcov =>
    Broker.allName_of_covered hb hn hdef hcov⟩
  · have hpre' : Broker.AllName groupId b pre := by
      clear hd hb hg
      induction pre generalizing b calls with
      | nil => trivial
      | cons call pre ih =>
        obtain ⟨rest, rfl⟩ := hpre
        exact ⟨hall.1, ih _ hall.2 ⟨rest, rfl⟩⟩
    exact (Broker.dealt_runCalls hd hpre').covered
  · exact (Broker.dealt_runCalls hd hall).assignedSet_eq
      (Broker.dealt_runCalls (Broker.dealt_of_none hb' hg') hall') ht hc hm

private theorem names_of_entries {groupId : String} {b : Broker π} {order : HashOrder} {m : String}
    {topics : List String} (h : ∀ e ∈ (b.table groupId).entries, ∀ topic ∈ e.2, topic ∈ topics) :
    b.Names groupId (.join order m topics) :=
  fun m' topics' _ hm' topic ht _ => h ⟨m', topics'⟩ (AList.mem_lookup_iff.1 hm') topic ht

/-- A second member that also names the topic of the first one. -/
theorem group_assignment_covers_two : ∃ b, Broker.new (RmqClientConfig.new.set ConfigKeys.brokerId "b") = .ok b ∧
    ∀ pre, pre <+: [.join default "first" ["a"], .join default "second" ["a", "b"], .leave default "first"] →
      (runCalls "g" b pre).Covered "g" := by
  refine ⟨_, rfl, ((group_assignment_covers ⟨rfl, rfl⟩ rfl _).1 ?_).1⟩
  refine ⟨names_of_entries ?_, names_of_entries ?_, trivial, trivial⟩ <;> decide +kernel

/-- A second member joins with another topic, and nobody has the partition of the first member's topic. -/
theorem group_assignment_uncovered : ∃ b, Broker.new (RmqClientConfig.new.set ConfigKeys.brokerId "b") = .ok b ∧
    ¬(runCalls "g" b [.join default "first" ["a"], .join default "second" ["b"]]).Covered "g" := by
  refine ⟨_, rfl, fun h => ?_⟩
  obtain ⟨owner, l, -, hl, hkey⟩ := h "first" ["a"] (by decide +kernel) "a" (by decide) 0 (by decide +kernel)
  have howner := Broker.mem_holders.2 ⟨l, hl, hkey⟩
  revert howner
  rw [show Broker.holders _ "g" ("a", 0) = [] by decide +kernel]
  exact List.not_mem_nil

end RMemQueue
