import RMemQueue.GroupCoverage
import RMemQueue.World

/-!
# Who owns a partition, as the members see it

A group deals out its whole table again when a member subscribes or unsubscribes, but only the calling consumer takes
its new list over: the other members go on polling the lists that they have.  The lists stay a partition as long as
the deal of the others is the one they have already (`Harmless`): for each topic that another member subscribes to, the
caller's subscription does not change, or the topic has no more partitions than members with smaller ids subscribe to
it.  The first call that breaks the condition leaves a partition with two owners or with none (`harmless_of_owned`).
-/

namespace RMemQueue

open Conc

variable {π : Type}

/-- A call that changes the membership of a consumer. -/
inductive MemberCall where
  | subscribe (i : Nat) (order : HashOrder) (topics : List String)
  | unsubscribe (i : Nat) (order : HashOrder)

namespace MemberCall

def op : MemberCall → Op
  | subscribe i order topics => .consumer i (.subscribe order topics)
  | unsubscribe i order => .consumer i (.unsubscribe order)

/-- The consumer that calls. -/
def caller : MemberCall → Nat
  | subscribe i _ _ => i
  | unsubscribe i _ => i

/-- The topics that the caller asks for. -/
def topics : MemberCall → List String
  | subscribe _ _ topics => topics
  | unsubscribe _ _ => []

/-- What the call does to the group. -/
def groupCall (ids : Nat → BaseConsumer) : MemberCall → GroupCall
  | subscribe i order topics => .join order (ids i).memberId topics
  | unsubscribe i order => .leave order (ids i).memberId

end MemberCall

namespace World

open RoundRobinAssignor

/-- Each partition of each topic that a current member subscribes to is in the local list of exactly one consumer that
is a current member. -/
def Owned (groupId : String) (ids : Nat → BaseConsumer) (w : World π) : Prop :=
  ∀ m topics, (w.broker.table groupId).lookup m = some topics → ∀ topic ∈ topics, ∀ p,
    (w.broker.backend.partition? topic p).isSome →
      ∃! i, (ids i).memberId ∈ w.broker.table groupId ∧ (topic, p) ∈ (w.consumers i).assignedPartitions.keys

/-- For each topic that another current member subscribes to, the call does not change whether the caller does, or
there are no more partitions than subscribers with ids smaller than the caller's. -/
def Harmless (groupId : String) (ids : Nat → BaseConsumer) (w : World π) (call : MemberCall) : Prop :=
  ∀ topic, ∀ m ∈ subscribed (w.broker.table groupId) topic, m ≠ (ids call.caller).memberId →
    ((ids call.caller).memberId ∈ subscribed (w.broker.table groupId) topic ↔ topic ∈ call.topics) ∨
    ((w.broker.backend.count? topic).getD 0).toNat ≤
      (subscribed (w.broker.table groupId) topic).countP (· < (ids call.caller).memberId)

/-- Every call of the run is harmless in the state in which it is made. -/
def AllHarmless [Partitioner π] (groupId : String) (ids : Nat → BaseConsumer) : World π → List MemberCall → Prop
  | _, [] => True
  | w, call :: calls => w.Harmless groupId ids call ∧ AllHarmless groupId ids (w.after ids [call.op]) calls

/-! ### The invariant -/

section

variable {groupId : String} {ids : Nat → BaseConsumer}

/-- The broker runs, the topics of the members exist, the members are consumers, and each of them has its share in its
local list. -/
structure Seen (groupId : String) (ids : Nat → BaseConsumer) (w : World π) : Prop where
  running : w.broker.Running
  known : ∀ m topic, m ∈ subscribed (w.broker.table groupId) topic → w.broker.backend.count? topic ≠ none
  consumer : ∀ m ∈ w.broker.table groupId, ∃ i, m = (ids i).memberId
  share : ∀ i, (ids i).memberId ∈ w.broker.table groupId → ∀ topic q,
    (topic, q) ∈ (w.consumers i).assignedPartitions.keys ↔
      ∃ p : Nat, q = p ∧ p ∈ w.broker.share groupId (ids i).memberId topic

/-- Shares have exactly one owner. -/
theorem Seen.owned {w : World π} (h : w.Seen groupId ids)
    (hids : Function.Injective fun i => (ids i).memberId) : w.Owned groupId ids := by
  intro m topics hm topic ht p hp
  obtain ⟨n, hn, h0, hlt⟩ := (InMemoryBackend.isSome_partition?_iff ..).1 hp
  have hsub : m ∈ subscribed (w.broker.table groupId) topic := mem_subscribed.2 ⟨topics, hm, ht⟩
  obtain ⟨owner, howner, hdeal⟩ := exists_mem_deal (List.ne_nil_of_mem hsub) (p := p.toNat)
    (n := ((w.broker.backend.count? topic).getD 0).toNat) (by rw [hn, Option.getD_some]; omega)
  obtain ⟨i, rfl⟩ := h.consumer owner (mem_of_mem_subscribed howner)
  have hmem := mem_of_mem_subscribed howner
  refine ⟨i, ⟨hmem, (h.share i hmem topic p).2 ⟨p.toNat, by omega, hdeal⟩⟩, fun j hj => hids ?_⟩
  obtain ⟨p', hp', hdeal'⟩ := (h.share j hj.1 topic p).1 hj.2
  obtain rfl : p' = p.toNat := by omega
  exact deal_unique hdeal' hdeal

theorem seen_init {b : Broker π} (hb : b.Running) (ht : b.table groupId = ∅) : (init b).Seen groupId ids := by
  have hno : ∀ m, m ∉ (init b).broker.table groupId := by
    intro m
    rw [show (init b).broker.table groupId = ∅ from ht]
    exact AList.notMem_empty m
  exact ⟨hb, fun m _ h => absurd (mem_of_mem_subscribed h) (hno m), fun m h => absurd h (hno m),
    fun i h => absurd h (hno _)⟩

end

/-! ### What a call does -/

/-- A call that has gone through: the caller has its share of the new table, the others have what they had. -/
structure Moved (groupId : String) (ids : Nat → BaseConsumer) (call : MemberCall) (w w' : World π) : Prop where
  table : ∀ m ≠ (ids call.caller).memberId,
    (w'.broker.table groupId).lookup m = (w.broker.table groupId).lookup m
  topics : ∀ topic, (ids call.caller).memberId ∈ subscribed (w'.broker.table groupId) topic ↔ topic ∈ call.topics
  known : ∀ topic ∈ call.topics, w'.broker.backend.count? topic ≠ none
  others : ∀ j ≠ call.caller, w'.consumers j = w.consumers j
  own : (ids call.caller).memberId ∈ w'.broker.table groupId → ∀ topic q,
    (topic, q) ∈ (w'.consumers call.caller).assignedPartitions.keys ↔
      ∃ p : Nat, q = p ∧ p ∈ w'.broker.share groupId (ids call.caller).memberId topic

/-- A call that has failed. -/
structure Stayed (groupId : String) (w w' : World π) : Prop where
  table : w'.broker.table groupId = w.broker.table groupId
  consumers : w'.consumers = w.consumers
  cause : ¬w'.broker.backend.NonNeg ∨ w.broker.consumerGroups.lookup groupId = none

/-- What a call leaves: a running broker with the counts it knew.  The call has failed or has gone through. -/
structure Called (groupId : String) (ids : Nat → BaseConsumer) (call : MemberCall) (w w' : World π) : Prop where
  running : w'.broker.Running
  count : ∀ topic, w.broker.backend.count? topic ≠ none →
    w'.broker.backend.count? topic = w.broker.backend.count? topic
  cases : Stayed groupId w w' ∨ Moved groupId ids call w w'

/-- What a consumer makes of the answer to its join. -/
def joined (s : ConsumerState) (topics : List String) : Outcome RmqError TopicPartitionList → ConsumerState
  | .ok assignment => { s with subscribedTopics := topics, assignedPartitions := assignment }
  | _ => s

/-- What a consumer makes of the answer to its leave. -/
def left (s : ConsumerState) : Outcome RmqError Unit → ConsumerState
  | .ok _ => s.cleared
  | _ => s

variable {groupId : String} {ids : Nat → BaseConsumer}

/-- A list that is dealt out with the right counts is the member's share. -/
private theorem mem_keys_own {b : Broker π} {order : HashOrder} {memberTopics : MemberTopics}
    {counts : PartitionCounts} {m : String} (ht : b.table groupId = memberTopics)
    (hc : ∀ topic, m ∈ subscribed memberTopics topic → counts.lookup topic = b.backend.count? topic)
    (topic : String) (q : Int) : (topic, q) ∈ (dealt order memberTopics counts m).keys ↔
      ∃ p : Nat, q = p ∧ p ∈ b.share groupId m topic := by
  subst ht
  rw [mem_keys_dealt]
  refine exists_congr fun p => and_congr_right fun _ => ?_
  rw [Broker.share]
  constructor
  · intro hp
    rwa [← hc topic (mem_of_mem_deal hp)]
  · intro hp
    rwa [hc topic (mem_of_mem_deal hp)]

private theorem Moved.subscribed_iff {call : MemberCall} {w w' : World π} (h : Moved groupId ids call w w') {m : String}
    (hm : m ≠ (ids call.caller).memberId) (topic : String) :
    m ∈ subscribed (w'.broker.table groupId) topic ↔ m ∈ subscribed (w.broker.table groupId) topic := by
  rw [mem_subscribed, mem_subscribed, h.table m hm]

variable [Partitioner π]

private theorem after_subscribe {i : Nat} (hi : (ids i).groupId = some groupId) (w : World π) (order : HashOrder)
    (topics : List String) {o : Outcome RmqError TopicPartitionList} {b' : Broker π}
    (hrun : (Broker.joinGroup order groupId (ids i).memberId topics).run w.broker = (o, b')) :
    w.after ids [.consumer i (.subscribe order topics)] =
      ⟨b', Function.update w.consumers i (joined (w.consumers i) topics o)⟩ := by
  show ((Op.body ids (.consumer i (.subscribe order topics))).run w).2 = _
  rw [Op.snd_run_consumer, Request.body, snd_run_reply, BaseConsumer.run_subscribe_group _ hi, hrun]
  cases o <;> rfl

private theorem after_unsubscribe {i : Nat} (hi : (ids i).groupId = some groupId) (w : World π) (order : HashOrder)
    {o : Outcome RmqError Unit} {b' : Broker π}
    (hrun : (Broker.leaveGroup order groupId (ids i).memberId).run w.broker = (o, b')) :
    w.after ids [.consumer i (.unsubscribe order)] =
      ⟨b', Function.update w.consumers i (left (w.consumers i) o)⟩ := by
  show ((Op.body ids (.consumer i (.unsubscribe order))).run w).2 = _
  rw [Op.snd_run_consumer, Request.body, snd_run_reply, BaseConsumer.run_unsubscribe_group _ hi, hrun]
  cases o <;> rfl

/-- A call acts on the broker as the call on the group does. -/
theorem broker_after (hgid : ∀ i, (ids i).groupId = some groupId) (w : World π) (call : MemberCall) :
    (w.after ids [call.op]).broker = (call.groupCall ids).run groupId w.broker := by
  cases call with
  | subscribe i order topics => rw [MemberCall.op, after_subscribe (hgid i) w order topics rfl]; rfl
  | unsubscribe i order => rw [MemberCall.op, after_unsubscribe (hgid i) w order rfl]; rfl

private theorem subscribe_cases (hgid : ∀ i, (ids i).groupId = some groupId) {w : World π} (hr : w.broker.Running)
    (i : Nat) (order : HashOrder) (topics : List String) :
    Called groupId ids (.subscribe i order topics) w (w.after ids [(MemberCall.subscribe i order topics).op]) := by
  generalize hrun : (Broker.joinGroup order groupId (ids i).memberId topics).run w.broker = r
  obtain ⟨o, b'⟩ := r
  rw [MemberCall.op, after_subscribe (hgid i) w order topics hrun]
  obtain ⟨hb, -, hcase⟩ := Broker.join_cases hr order (ids i).memberId topics hrun
  have hcount : ∀ topic, b'.backend.count? topic = if w.broker.backend.count? topic = none ∧ topic ∈ topics then
      some w.broker.config.defaultNumPartitions else w.broker.backend.count? topic := by
    intro topic
    rw [hb, Broker.count?_prepared]
  refine ⟨?_, fun topic ht => (hcount topic).trans (if_neg fun h => ht h.1), ?_⟩
  · rcases hcase with ⟨-, -, hr', -⟩ | ⟨-, counts, -, -, hre⟩
    · exact hr'
    · exact hre.running
  · rcases hcase with ⟨rfl, hneg, -, ht, -⟩ | ⟨-, counts, hcounts, rfl, hre⟩
    -- the metadata of a topic with a negative count panics before the member is added
    · exact Or.inl ⟨ht, Function.update_eq_self .., Or.inl hneg⟩
    -- the table gets the new subscription, and everything is dealt out again
    · have hsub : ∀ topic, (ids i).memberId ∈ subscribed ((w.broker.table groupId).insert (ids i).memberId topics)
          topic ↔ topic ∈ topics := by
        intro topic
        rw [mem_subscribed]
        simp
      refine Or.inr ⟨fun m hm => ?_, fun topic => by rw [hre.table]; exact hsub topic, fun topic ht => ?_,
        fun j hj => Function.update_of_ne hj .., fun _ topic q => ?_⟩
      · show (b'.table groupId).lookup m = _
        rw [hre.table]
        exact AList.lookup_insert_ne hm
      · show b'.backend.count? topic ≠ none
        rw [hcount]
        by_cases hc : w.broker.backend.count? topic = none
        · rw [if_pos ⟨hc, ht⟩]; simp
        · rwa [if_neg fun h => hc h.1]
      · show (topic, q) ∈ (@Function.update Nat (fun _ => ConsumerState) _ w.consumers i _ i).assignedPartitions.keys ↔ _
        rw [Function.update_self]
        refine mem_keys_own hre.table (fun t ht => ?_) topic q
        rw [hcounts, if_pos ((hsub t).1 ht)]

private theorem unsubscribe_cases (hgid : ∀ i, (ids i).groupId = some groupId) {w : World π} (hr : w.broker.Running)
    (i : Nat) (order : HashOrder) :
    Called groupId ids (.unsubscribe i order) w (w.after ids [(MemberCall.unsubscribe i order).op]) := by
  generalize hrun : (Broker.leaveGroup order groupId (ids i).memberId).run w.broker = r
  obtain ⟨o, b'⟩ := r
  rw [MemberCall.op, after_unsubscribe (hgid i) w order hrun]
  rcases Broker.leave_cases hr order (ids i).memberId hrun with ⟨ho, rfl, hcause⟩ | ⟨rfl, hb, -, counts, -, hre⟩
  -- the leave has failed, so that the consumer keeps its assignment
  · have hleft : left (w.consumers i) o = w.consumers i := by
      cases o with
      | ok _ => exact absurd rfl ho
      | err _ => rfl
      | panic => rfl
    rw [hleft]
    exact ⟨hr, fun _ _ => rfl, Or.inl ⟨rfl, Function.update_eq_self .., hcause.symm⟩⟩
  · have hno : (ids i).memberId ∉ b'.table groupId := by
      rw [hre.table, AList.mem_erase]
      simp
    refine ⟨hre.running, fun topic _ => by rw [hb], Or.inr ⟨fun m hm => ?_, fun topic => ?_, ?_,
      fun j hj => Function.update_of_ne hj .., fun hmem => absurd hmem hno⟩⟩
    · show (b'.table groupId).lookup m = _
      rw [hre.table]
      exact AList.lookup_erase_ne hm
    · exact iff_of_false (fun h => hno (mem_of_mem_subscribed h)) List.not_mem_nil
    · exact fun topic ht => absurd ht List.not_mem_nil

/-- A call keeps the broker running and the counts that are known; it fails or goes through. -/
theorem member_cases (hgid : ∀ i, (ids i).groupId = some groupId) {w : World π} (hr : w.broker.Running)
    (call : MemberCall) : Called groupId ids call w (w.after ids [call.op]) := by
  cases call with
  | subscribe i order topics => exact subscribe_cases hgid hr i order topics
  | unsubscribe i order => exact unsubscribe_cases hgid hr i order

/-! ### The run -/

/-- A harmless call keeps the local lists up to date. -/
theorem Seen.step (hgid : ∀ i, (ids i).groupId = some groupId) (hids : Function.Injective fun i => (ids i).memberId)
    {w : World π} (h : w.Seen groupId ids) {call : MemberCall} (hn : w.Harmless groupId ids call) :
    (w.after ids [call.op]).Seen groupId ids := by
  obtain ⟨hr, hcount, hcase⟩ := member_cases hgid h.running call
  generalize w.after ids [call.op] = w' at hr hcount hcase
  rcases hcase with ⟨ht, hcons, -⟩ | hmoved
  · refine ⟨hr, fun m topic hm => ?_, fun m hm => h.consumer m (ht ▸ hm), fun i hi topic q => ?_⟩
    · rw [ht] at hm
      rw [hcount topic (h.known m topic hm)]
      exact h.known m topic hm
    · rw [ht] at hi
      rw [hcons, h.share i hi topic q]
      refine exists_congr fun p => and_congr_right fun _ => (Broker.mem_share_congr ht fun hsub => ?_).symm
      exact hcount topic (h.known _ topic hsub)
  · refine ⟨hr, fun m topic hm => ?_, fun m hm => ?_, fun i hi topic q => ?_⟩
    · by_cases hmc : m = (ids call.caller).memberId
      · exact hmoved.known topic ((hmoved.topics topic).1 (hmc ▸ hm))
      · have hm' := (hmoved.subscribed_iff hmc topic).1 hm
        rw [hcount topic (h.known m topic hm')]
        exact h.known m topic hm'
    · by_cases hmc : m = (ids call.caller).memberId
      · exact ⟨_, hmc⟩
      · exact h.consumer m (by rwa [← AList.lookup_isSome, ← hmoved.table m hmc, AList.lookup_isSome])
    · by_cases hic : i = call.caller
      · subst hic
        exact hmoved.own hi topic q
      · have hmc : (ids i).memberId ≠ (ids call.caller).memberId := fun he => hic (hids he)
        have hi' : (ids i).memberId ∈ w.broker.table groupId := by
          rwa [← AList.lookup_isSome, ← hmoved.table _ hmc, AList.lookup_isSome]
        rw [hmoved.others i hic, h.share i hi' topic q]
        refine exists_congr fun p => and_congr_right fun _ => ?_
        -- another member's deal is the one it had
        have hdeal : (ids i).memberId ∈ subscribed (w.broker.table groupId) topic →
            w'.broker.share groupId (ids i).memberId topic = w.broker.share groupId (ids i).memberId topic := by
          intro hsub
          rw [Broker.share, Broker.share, hcount topic (h.known _ topic hsub)]
          refine deal_subscribed_eq hmoved.table ?_ _
          rw [hmoved.topics, iff_comm]
          exact hn topic _ hsub hmc
        constructor
        · intro hp
          rwa [hdeal (mem_of_mem_deal hp)]
        · intro hp
          rwa [hdeal ((hmoved.subscribed_iff hmc topic).1 (mem_of_mem_deal hp))] at hp

/-- A call that breaks the condition leaves a partition with two owners or with none. -/
theorem harmless_of_owned (hgid : ∀ i, (ids i).groupId = some groupId)
    (hids : Function.Injective fun i => (ids i).memberId) {w : World π} (h : w.Seen groupId ids) {call : MemberCall}
    (hnn : (w.after ids [call.op]).broker.backend.NonNeg) (ho : (w.after ids [call.op]).Owned groupId ids) :
    w.Harmless groupId ids call := by
  obtain ⟨hr, hcount, hcase⟩ := member_cases hgid h.running call
  generalize w.after ids [call.op] = w' at hr hcount hcase hnn ho
  rcases hcase with ⟨-, -, hneg | hnone⟩ | hmoved
  · exact absurd hnn hneg
  · intro topic m hm
    have hm := mem_of_mem_subscribed hm
    rw [show w.broker.table groupId = ∅ by rw [Broker.table, hnone]; rfl] at hm
    exact absurd hm (AList.notMem_empty m)
  intro topic m hm hmc
  by_contra hcon
  obtain ⟨hchange, hlt⟩ := not_or.1 hcon
  rw [not_le] at hlt
  -- the partition whose number is the rank of the caller
  generalize hrank : (subscribed (w.broker.table groupId) topic).countP (· < (ids call.caller).memberId) = r at hlt
  have hc := hcount topic (h.known m topic hm)
  have hp : (w'.broker.backend.partition? topic (r : Int)).isSome := by
    obtain ⟨n, hn⟩ := Option.ne_none_iff_exists'.1 (h.known m topic hm)
    rw [hn, Option.getD_some] at hlt
    exact (InMemoryBackend.isSome_partition?_iff ..).2 ⟨n, by rw [hc, hn], by omega, by omega⟩
  obtain ⟨topics, hlm, htop⟩ := mem_subscribed.1 ((hmoved.subscribed_iff hmc topic).2 hm)
  obtain ⟨i, ⟨hi, hkey⟩, huniq⟩ := ho m topics hlm topic htop r hp
  by_cases hin : (ids call.caller).memberId ∈ subscribed (w.broker.table groupId) topic
  · -- the caller drops the topic: nobody takes the partition over
    have hout : (ids call.caller).memberId ∉ subscribed (w'.broker.table groupId) topic := fun h' =>
      hchange (iff_of_true hin ((hmoved.topics topic).1 h'))
    by_cases hic : i = call.caller
    · subst hic
      obtain ⟨p, -, hdeal⟩ := (hmoved.own hi topic r).1 hkey
      exact hout (mem_of_mem_deal hdeal)
    · have hic' : (ids i).memberId ≠ (ids call.caller).memberId := fun he => hic (hids he)
      rw [hmoved.others i hic, h.share i] at hkey
      · obtain ⟨p, hpr, hdeal⟩ := hkey
        obtain rfl : r = p := by omega
        subst hrank
        exact hic' (deal_unique hdeal (countP_mem_deal hin hlt))
      · rwa [← AList.lookup_isSome, ← hmoved.table _ hic', AList.lookup_isSome]
  · -- the caller takes the topic up: the owner does not learn that the partition is the caller's now
    have htopic : topic ∈ call.topics := by
      by_contra hno
      exact hchange (iff_of_false hin hno)
    have hin' := (hmoved.topics topic).2 htopic
    have hcaller : i = call.caller := by
      refine (huniq call.caller ⟨mem_of_mem_subscribed hin', ?_⟩).symm
      refine (hmoved.own (mem_of_mem_subscribed hin') topic r).2 ⟨r, rfl, ?_⟩
      rw [Broker.share, hc, ← hrank, ← countP_subscribed_eq hmoved.table]
      apply countP_mem_deal hin'
      rw [countP_subscribed_eq hmoved.table, hrank]
      exact hlt
    obtain ⟨owner, howner, hdeal⟩ := exists_mem_deal (List.ne_nil_of_mem hm) hlt
    obtain ⟨j, rfl⟩ := h.consumer owner (mem_of_mem_subscribed howner)
    have hjc : (ids j).memberId ≠ (ids call.caller).memberId := fun he => hin (he ▸ howner)
    have hj : j = i := by
      refine huniq j ⟨?_, ?_⟩
      · rw [← AList.lookup_isSome, hmoved.table _ hjc, AList.lookup_isSome]
        exact mem_of_mem_subscribed howner
      · rw [hmoved.others j fun he => hjc (by rw [he])]
        exact (h.share j (mem_of_mem_subscribed howner) topic r).2 ⟨r, rfl, hdeal⟩
    exact hjc (by rw [hj, hcaller])

/-- From a group without members on, harmless calls keep the lists up to date. -/
theorem Seen.after (hgid : ∀ i, (ids i).groupId = some groupId)
    (hids : Function.Injective fun i => (ids i).memberId) {w : World π} (h : w.Seen groupId ids)
    {calls : List MemberCall} (hn : AllHarmless groupId ids w calls) :
    (w.after ids (calls.map MemberCall.op)).Seen groupId ids := by
  induction calls generalizing w with
  | nil => exact h
  | cons call calls ih => exact ih (h.step hgid hids hn.1) hn.2

private theorem AllHarmless.initial {w : World π} {calls pre : List MemberCall} (h : AllHarmless groupId ids w calls)
    (hpre : pre <+: calls) : AllHarmless groupId ids w pre := by
  induction pre generalizing w calls with
  | nil => trivial
  | cons call pre ih =>
    obtain ⟨rest, rfl⟩ := hpre
    exact ⟨h.1, ih h.2 ⟨rest, rfl⟩⟩

private theorem allHarmless_of_owned (hgid : ∀ i, (ids i).groupId = some groupId)
    (hids : Function.Injective fun i => (ids i).memberId) {w : World π} (h : w.Seen groupId ids)
    (hnn : w.broker.backend.NonNeg) (hd : 0 ≤ w.broker.config.defaultNumPartitions) {calls : List MemberCall}
    (ho : ∀ pre, pre <+: calls → (w.after ids (pre.map MemberCall.op)).Owned groupId ids) :
    AllHarmless groupId ids w calls := by
  induction calls generalizing w with
  | nil => trivial
  | cons call calls ih =>
    obtain ⟨-, hnn', hd'⟩ := Broker.keeps_nonNeg groupId h.running hnn hd (call.groupCall ids)
    rw [← broker_after hgid] at hnn' hd'
    have hn := harmless_of_owned hgid hids h hnn' (ho [call] ⟨calls, rfl⟩)
    exact ⟨hn, ih (h.step hgid hids hn) hnn' hd' fun pre hpre =>
      ho (call :: pre) ((List.prefix_cons_inj call).2 hpre)⟩

end World

/-- **Ownership.**  In every run of harmless calls, from a group without members on, each partition of each subscribed
topic is in the local list of exactly one member at every point between calls.  Without negative partition counts the
condition is exact: a run all of whose states have this property consists of harmless calls. -/
theorem group_ownership [Partitioner π] {groupId : String} {ids : Nat → BaseConsumer}
    (hgid : ∀ i, (ids i).groupId = some groupId) (hids : Function.Injective fun i => (ids i).memberId)
    {b : Broker π} (hb : b.Running) (ht : b.table groupId = ∅) (calls : List MemberCall) :
    (World.AllHarmless groupId ids (.init b) calls →
      ∀ pre, pre <+: calls → ((World.init b).after ids (pre.map MemberCall.op)).Owned groupId ids) ∧
    (b.backend.NonNeg → 0 ≤ b.config.defaultNumPartitions →
      (∀ pre, pre <+: calls → ((World.init b).after ids (pre.map MemberCall.op)).Owned groupId ids) →
        World.AllHarmless groupId ids (.init b) calls) := by
  have hseen : (World.init b).Seen groupId ids := World.seen_init hb ht
  constructor
  · intro hall pre hpre
    exact (hseen.after hgid hids (hall.initial hpre)).owned hids
  · intro hnn hd ho
    exact World.allHarmless_of_owned hgid hids hseen hnn hd ho

/-- Members of one group, with longer and longer ids. -/
def members (i : Nat) : BaseConsumer := ⟨some "g", String.ofList (List.replicate i 'm')⟩

theorem members_injective : Function.Injective fun i => (members i).memberId := by
  intro i j h
  have h := congrArg (fun s : String => s.toList.length) h
  simpa [members] using h

private theorem harmless_of_entries {groupId : String} {ids : Nat → BaseConsumer} {w : World π} {call : MemberCall}
    (h : ∀ e ∈ (w.broker.table groupId).entries, ∀ topic ∈ e.2, e.1 ≠ (ids call.caller).memberId →
      ((ids call.caller).memberId ∈ RoundRobinAssignor.subscribed (w.broker.table groupId) topic ↔
        topic ∈ call.topics) ∨
      ((w.broker.backend.count? topic).getD 0).toNat ≤
        (RoundRobinAssignor.subscribed (w.broker.table groupId) topic).countP (· < (ids call.caller).memberId)) :
    w.Harmless groupId ids call := by
  intro topic m hm hmc
  obtain ⟨topics, hl, ht⟩ := RoundRobinAssignor.mem_subscribed.1 hm
  exact h ⟨m, topics⟩ (AList.mem_lookup_iff.1 hl) topic ht hmc

/-- A second member joins for the only partition of a topic. -/
theorem group_ownership_two : ∃ b, Broker.new (RmqClientConfig.new.set ConfigKeys.brokerId "b") = .ok b ∧
    ∀ pre, pre <+: [.subscribe 0 default ["a"], .subscribe 1 default ["a"], .unsubscribe 1 default] →
      ((World.init b).after members (pre.map MemberCall.op)).Owned "g" members := by
  refine ⟨_, rfl, (group_ownership (fun _ => rfl) members_injective ⟨rfl, rfl⟩ rfl _).1 ⟨?_, ?_, ?_, trivial⟩⟩
  all_goals exact harmless_of_entries (by decide +kernel)

/-- A member with a smaller id joins, and the partition that it is dealt is still polled by the first member. -/
theorem group_ownership_twice : ∃ b, Broker.new (RmqClientConfig.new.set ConfigKeys.brokerId "b") = .ok b ∧
    (∀ i, (members i).groupId = some "g") ∧ Function.Injective (fun i => (members i).memberId) ∧
    ¬((World.init b).after members [.consumer 1 (.subscribe default ["a"]),
      .consumer 0 (.subscribe default ["a"])]).Owned "g" members := by
  refine ⟨_, rfl, fun _ => rfl, members_injective, fun h => ?_⟩
  obtain ⟨i, -, huniq⟩ := h "m" ["a"] (by decide +kernel) "a" (by decide) 0 (by decide +kernel)
  have h0 := huniq 0 ⟨by decide +kernel, by decide +kernel⟩
  have h1 := huniq 1 ⟨by decide +kernel, by decide +kernel⟩
  omega

end RMemQueue
