import RMemQueue.Group
import RMemQueue.Lib.Deal
import Mathlib.Data.List.Dedup

/-!
# What a group assigns

`lookup_assign` says what the assignor gives to a member: for each topic with a known partition count the member's
`deal` among the subscribers of the topic.  `ConsumerGroup.join` and `ConsumerGroup.leave` deal out the whole table of
subscriptions again, so that an assignment is determined by the table, the counts and the order of the hash set.
-/

namespace RMemQueue

namespace RoundRobinAssignor

/-- The entries that one topic contributes to the list of a member. -/
def topicEntries (memberTopics : MemberTopics) (partitionCounts : PartitionCounts) (member topic : String) :
    List TopicPartitionElem :=
  (deal (subscribed memberTopics topic) ((partitionCounts.lookup topic).getD 0).toNat member).map
    fun p : Nat => ⟨topic, p, .stored⟩

private theorem lookup_assignPartition (members : List String) (topic : String) (a : Assignments) (p : Nat)
    (m : String) :
    (assignPartition members topic a p).lookup m =
      if members[p % members.length]? = some m then (a.lookup m).map (·.addPartition topic p) else a.lookup m := by
  unfold assignPartition
  cases h : members[p % members.length]? with
  | none => simp
  | some owner =>
    by_cases hm : owner = m
    · subst hm
      simp only [↓reduceIte]
      cases hl : a.lookup owner with
      | none => simp [hl]
      | some l => simp
    · simp only [Option.some.injEq, hm, ↓reduceIte]
      cases hl : a.lookup owner with
      | none => rfl
      | some l => exact AList.lookup_insert_ne (Ne.symm hm)

private theorem lookup_foldl_assignPartition (members : List String) (topic : String) (a : Assignments) (n : Nat)
    (m : String) :
    ((List.range n).foldl (assignPartition members topic) a).lookup m =
      (a.lookup m).map fun l => ⟨l.elements ++ (deal members n m).map fun p : Nat => ⟨topic, p, .stored⟩⟩ := by
  induction n with
  | zero => cases h : a.lookup m <;> simp [deal, h]
  | succ n ih =>
    rw [List.range_succ, List.foldl_append, List.foldl_cons, List.foldl_nil, lookup_assignPartition, ih]
    have hdeal : deal members (n + 1) m =
        deal members n m ++ if members[n % members.length]? = some m then [n] else [] := by
      rw [deal, List.range_succ, List.filter_append]
      congr 1
      simp only [List.filter_cons, List.filter_nil, decide_eq_true_eq]
    rw [hdeal]
    split
    · cases a.lookup m <;> simp [TopicPartitionList.addPartition]
    · simp

private theorem lookup_assignTopic (memberTopics : MemberTopics) (counts : PartitionCounts) (a : Assignments)
    (topic m : String) :
    (assignTopic memberTopics counts a topic).lookup m =
      (a.lookup m).map fun l => ⟨l.elements ++ topicEntries memberTopics counts m topic⟩ := by
  unfold assignTopic topicEntries
  cases counts.lookup topic with
  | none => cases a.lookup m <;> simp [deal]
  | some n =>
    simp only [Option.getD_some]
    split
    · rename_i h
      have hdeal : deal (subscribed memberTopics topic) n.toNat m = [] := by
        refine List.eq_nil_iff_forall_not_mem.2 fun p hp => ?_
        have hlt := (mem_deal.1 hp).1
        have hpos := List.length_pos_of_mem (mem_of_mem_deal hp)
        omega
      rw [hdeal]
      cases a.lookup m <;> simp
    · exact lookup_foldl_assignPartition ..

/-- The list that a member gets. -/
def dealt (order : HashOrder) (memberTopics : MemberTopics) (counts : PartitionCounts) (m : String) :
    TopicPartitionList :=
  ⟨(order.order (allTopics memberTopics)).flatMap (topicEntries memberTopics counts m)⟩

theorem mem_sortedMembers {memberTopics : MemberTopics} {m : String} :
    m ∈ sortedMembers memberTopics ↔ m ∈ memberTopics := by
  rw [sortedMembers, List.mem_insertionSort]
  rfl

/-- What a member is assigned. -/
theorem lookup_assign {order : HashOrder} {memberTopics : MemberTopics} {counts : PartitionCounts} {a : Assignments}
    (h : assign order memberTopics counts = .ok a) (m : String) :
    a.lookup m = if m ∈ memberTopics then some (dealt order memberTopics counts m) else none := by
  obtain rfl := Except.ok.inj h
  have hfold : ∀ (ts : List String) (a : Assignments), (ts.foldl (assignTopic memberTopics counts) a).lookup m =
      (a.lookup m).map fun l => ⟨l.elements ++ ts.flatMap (topicEntries memberTopics counts m)⟩ := by
    intro ts
    induction ts with
    | nil => intro a; cases h : a.lookup m <;> simp [h]
    | cons t ts ih =>
      intro a
      rw [List.foldl_cons, ih, lookup_assignTopic]
      cases a.lookup m <;> simp
  have hinit : ∀ (ms : List String) (a : Assignments), (ms.foldl (fun a m => a.insert m .new) a).lookup m =
      if m ∈ ms then some .new else a.lookup m := by
    intro ms
    induction ms with
    | nil => intro a; simp
    | cons m' ms ih =>
      intro a
      rw [List.foldl_cons, ih]
      by_cases hm : m = m'
      · subst hm; simp
      · simp [hm, AList.lookup_insert_ne hm]
  rw [hfold, hinit]
  by_cases hm : m ∈ memberTopics
  · rw [if_pos (mem_sortedMembers.2 hm), if_pos hm]
    rfl
  · rw [if_neg fun h => hm (mem_sortedMembers.1 h), if_neg hm]
    rfl

theorem pairwise_sortedMembers (memberTopics : MemberTopics) : (sortedMembers memberTopics).Pairwise (· < ·) := by
  have hle : (sortedMembers memberTopics).Pairwise (· ≤ ·) := List.pairwise_insertionSort _ _
  have hne : (sortedMembers memberTopics).Nodup :=
    (List.perm_insertionSort _ _).nodup_iff.2 memberTopics.keys_nodup
  exact hle.imp₂ (fun _ _ hle hne => lt_of_le_of_ne hle hne) hne

theorem mem_subscribed {memberTopics : MemberTopics} {topic m : String} :
    m ∈ subscribed memberTopics topic ↔ ∃ topics, memberTopics.lookup m = some topics ∧ topic ∈ topics := by
  rw [subscribed, List.mem_filter, mem_sortedMembers]
  cases h : memberTopics.lookup m with
  | none => simp
  | some topics =>
    have hm : m ∈ memberTopics := AList.lookup_isSome.1 (by rw [h]; rfl)
    simp [hm]

theorem mem_of_mem_subscribed {memberTopics : MemberTopics} {topic m : String} (h : m ∈ subscribed memberTopics topic) :
    m ∈ memberTopics := by
  obtain ⟨_, h, -⟩ := mem_subscribed.1 h
  exact AList.lookup_isSome.1 (by rw [h]; rfl)

theorem pairwise_subscribed (memberTopics : MemberTopics) (topic : String) :
    (subscribed memberTopics topic).Pairwise (· < ·) :=
  (pairwise_sortedMembers memberTopics).filter _

theorem nodup_subscribed (memberTopics : MemberTopics) (topic : String) : (subscribed memberTopics topic).Nodup :=
  (pairwise_subscribed memberTopics topic).imp fun h => ne_of_lt h

/-- The subscribers of a topic are determined by who they are. -/
theorem subscribed_eq {memberTopics : MemberTopics} {topic : String} {l : List String} (hl : l.Pairwise (· < ·))
    (h : ∀ m, m ∈ subscribed memberTopics topic ↔ m ∈ l) : subscribed memberTopics topic = l := by
  have hperm : (subscribed memberTopics topic).Perm l :=
    (List.perm_ext_iff_of_nodup (nodup_subscribed _ _) (hl.imp fun h => ne_of_lt h)).2 h
  exact hperm.eq_of_pairwise (fun a b _ _ hab hba => absurd hab (lt_asymm hba)) (pairwise_subscribed _ _) hl

/-- The subscribers of a topic other than `c` do not depend on what `c` subscribes. -/
theorem erase_subscribed_eq {memberTopics memberTopics' : MemberTopics} {c : String}
    (h : ∀ m ≠ c, memberTopics'.lookup m = memberTopics.lookup m) (topic : String) :
    (subscribed memberTopics' topic).erase c = (subscribed memberTopics topic).erase c := by
  have hperm : ((subscribed memberTopics' topic).erase c).Perm ((subscribed memberTopics topic).erase c) := by
    rw [List.perm_ext_iff_of_nodup ((nodup_subscribed _ _).erase c) ((nodup_subscribed _ _).erase c)]
    intro m
    rw [(nodup_subscribed _ _).mem_erase_iff, (nodup_subscribed _ _).mem_erase_iff, mem_subscribed, mem_subscribed]
    constructor
    · rintro ⟨hm, h'⟩
      exact ⟨hm, by rwa [h m hm] at h'⟩
    · rintro ⟨hm, h'⟩
      exact ⟨hm, by rwa [h m hm]⟩
  exact hperm.eq_of_pairwise (fun a b _ _ hab hba => absurd hab (lt_asymm hba))
    ((pairwise_subscribed _ _).sublist List.erase_sublist) ((pairwise_subscribed _ _).sublist List.erase_sublist)

theorem mem_keys_dealt {order : HashOrder} {memberTopics : MemberTopics} {counts : PartitionCounts} {m topic : String}
    {q : Int} : (topic, q) ∈ (dealt order memberTopics counts m).keys ↔
      ∃ p : Nat, q = p ∧ p ∈ deal (subscribed memberTopics topic) ((counts.lookup topic).getD 0).toNat m := by
  simp only [TopicPartitionList.keys, dealt, List.mem_map, List.mem_flatMap, topicEntries]
  constructor
  · rintro ⟨e, ⟨t, -, p, hp, rfl⟩, he⟩
    obtain ⟨rfl, rfl⟩ := Prod.mk.inj he
    exact ⟨p, rfl, hp⟩
  · rintro ⟨p, rfl, hp⟩
    refine ⟨_, ⟨topic, ?_, p, hp, rfl⟩, rfl⟩
    obtain ⟨topics, hm, ht⟩ := mem_subscribed.1 (mem_of_mem_deal hp)
    rw [(order.perm _).mem_iff, allTopics, List.mem_dedup, List.mem_flatMap]
    exact ⟨⟨m, topics⟩, AList.mem_lookup_iff.1 hm, ht⟩

/-- Nothing is dealt twice to a member. -/
theorem nodup_keys_dealt (order : HashOrder) (memberTopics : MemberTopics) (counts : PartitionCounts)
    (m : String) : (dealt order memberTopics counts m).keys.Nodup := by
  have htopics : (order.order (allTopics memberTopics)).Nodup := (order.perm _).nodup_iff.2 (List.nodup_dedup _)
  have hkeys : (dealt order memberTopics counts m).keys = (order.order (allTopics memberTopics)).flatMap fun topic =>
      (deal (subscribed memberTopics topic) ((counts.lookup topic).getD 0).toNat m).map fun p : Nat => (topic, (p : Int)) := by
    simp only [TopicPartitionList.keys, dealt, List.map_flatMap, topicEntries, List.map_map]
    rfl
  rw [hkeys, List.nodup_flatMap]
  refine ⟨fun topic _ => ?_, htopics.imp fun {topic topic'} hne => ?_⟩
  · refine (nodup_deal _ _ _).map fun p q h => ?_
    exact Int.ofNat.inj (Prod.mk.inj h).2
  · intro k hk hk'
    obtain ⟨p, -, rfl⟩ := List.mem_map.1 hk
    obtain ⟨q, -, hq⟩ := List.mem_map.1 hk'
    exact hne (Prod.mk.inj hq).1.symm

/-! ### One member changes its subscription -/

section

variable {memberTopics memberTopics' : MemberTopics} {c topic : String}

theorem countP_subscribed_eq (h : ∀ m ≠ c, memberTopics'.lookup m = memberTopics.lookup m) :
    (subscribed memberTopics' topic).countP (· < c) = (subscribed memberTopics topic).countP (· < c) := by
  have herase : ∀ l : List String, l.countP (· < c) = (l.erase c).countP (· < c) := by
    intro l
    by_cases hc : c ∈ l
    · rw [(List.perm_cons_erase hc).countP_eq, List.countP_cons_of_neg (by simp)]
    · rw [List.erase_of_not_mem hc]
  rw [herase, erase_subscribed_eq h, ← herase]

/-- The rank of a subscriber is the number of subscribers with smaller ids. -/
theorem countP_mem_deal (hc : c ∈ subscribed memberTopics topic) {n : Nat}
    (hn : (subscribed memberTopics topic).countP (· < c) < n) :
    (subscribed memberTopics topic).countP (· < c) ∈ deal (subscribed memberTopics topic) n c := by
  rw [← idxOf_eq_countP (pairwise_subscribed _ _) hc] at hn ⊢
  exact idxOf_mem_deal hc hn

private theorem deal_erase_subscribed (hc : c ∈ subscribed memberTopics topic) {n : Nat}
    (hn : n ≤ (subscribed memberTopics topic).countP (· < c)) (m : String) :
    deal ((subscribed memberTopics topic).erase c) n m = deal (subscribed memberTopics topic) n m := by
  rw [← idxOf_eq_countP (pairwise_subscribed _ _) hc] at hn
  exact deal_erase hc hn m

/-- What the others get does not change when `c` is no subscriber before and after, or a subscriber before and after, or
when enough subscribers have smaller ids. -/
theorem deal_subscribed_eq (h : ∀ m ≠ c, memberTopics'.lookup m = memberTopics.lookup m) {n : Nat}
    (hc : (c ∈ subscribed memberTopics' topic ↔ c ∈ subscribed memberTopics topic) ∨
      n ≤ (subscribed memberTopics topic).countP (· < c)) (m : String) :
    deal (subscribed memberTopics' topic) n m = deal (subscribed memberTopics topic) n m := by
  have herase := erase_subscribed_eq h topic
  by_cases hin : c ∈ subscribed memberTopics topic <;> by_cases hin' : c ∈ subscribed memberTopics' topic
  · rw [subscribed_eq (pairwise_subscribed memberTopics topic) fun m' => ?_]
    by_cases hm : m' = c
    · subst hm; exact iff_of_true hin' hin
    · rw [mem_subscribed, mem_subscribed, h m' hm]
  · rw [List.erase_of_not_mem hin'] at herase
    rw [herase]
    exact deal_erase_subscribed hin (hc.resolve_left fun hiff => hin' (hiff.2 hin)) m
  · rw [List.erase_of_not_mem hin] at herase
    rw [← herase]
    refine (deal_erase_subscribed hin' ?_ m).symm
    rw [countP_subscribed_eq h]
    exact hc.resolve_left fun hiff => hin (hiff.1 hin')
  · rw [List.erase_of_not_mem hin, List.erase_of_not_mem hin'] at herase
    rw [herase]

end

end RoundRobinAssignor

namespace ConsumerGroup

open RoundRobinAssignor

variable (g : ConsumerGroup) (order : HashOrder) (counts : PartitionCounts)

theorem isEmpty_keys {α : Type} {a : AList (fun _ : String => α)} : a.keys.isEmpty = true ↔ ∀ m, m ∉ a := by
  rw [List.isEmpty_iff, List.eq_nil_iff_forall_not_mem]
  rfl

/-- A group with members deals out its whole table. -/
theorem rebalance_spec {m : String} (hm : m ∈ g.memberTopics) :
    (g.rebalance order counts).memberTopics = g.memberTopics ∧
    ∀ m', (g.rebalance order counts).assignments.lookup m' =
      if m' ∈ g.memberTopics then some (dealt order g.memberTopics counts m') else none := by
  have hne : ¬g.members.keys.isEmpty = true := fun h => isEmpty_keys.1 h m ((g.mem_iff m).2 hm)
  rw [rebalance, if_neg hne]
  have ha : assign order g.memberTopics counts = .ok _ := rfl
  exact ⟨rfl, lookup_assign ha⟩

theorem join_spec (m : String) (topics : List String) :
    (g.join order m topics counts).2.memberTopics = g.memberTopics.insert m topics ∧
    (g.join order m topics counts).1 = .ok (dealt order (g.memberTopics.insert m topics) counts m) ∧
    ∀ m', (g.join order m topics counts).2.assignments.lookup m' =
      if m' ∈ g.memberTopics.insert m topics then
        some (dealt order (g.memberTopics.insert m topics) counts m') else none := by
  have hm : m ∈ (g.insertMember m topics).memberTopics := (AList.mem_insert _).2 (Or.inl rfl)
  obtain ⟨ht, ha⟩ := (g.insertMember m topics).rebalance_spec order counts hm
  refine ⟨ht, ?_, ha⟩
  simp only [join, ha m, if_pos hm]
  rfl

/-- A `leave` that leaves nobody does not rebalance; any other one deals out the table that is left. -/
theorem leave_cases (m : String) :
    ((∀ m', m' ∉ g.memberTopics.erase m) ∧ g.leave order m counts = g.removeMember m) ∨
      (g.leave order m counts).memberTopics = g.memberTopics.erase m ∧
        ∀ m', (g.leave order m counts).assignments.lookup m' =
          if m' ∈ g.memberTopics.erase m then some (dealt order (g.memberTopics.erase m) counts m') else none := by
  unfold leave
  by_cases he : (g.removeMember m).members.keys.isEmpty = true
  · rw [if_pos he]
    exact Or.inl ⟨fun m' hm' => isEmpty_keys.1 he m' (((g.removeMember m).mem_iff m').2 hm'), rfl⟩
  · rw [if_neg he]
    obtain ⟨m₀, hm₀⟩ : ∃ m₀, m₀ ∈ (g.removeMember m).members := by
      by_contra hno
      exact he (isEmpty_keys.2 fun m' hm' => hno ⟨m', hm'⟩)
    exact Or.inr ((g.removeMember m).rebalance_spec order counts (((g.removeMember m).mem_iff m₀).1 hm₀))

theorem leave_spec (m : String) :
    (g.leave order m counts).memberTopics = g.memberTopics.erase m ∧
    ∀ m' ∈ g.memberTopics.erase m,
      (g.leave order m counts).assignments.lookup m' = some (dealt order (g.memberTopics.erase m) counts m') := by
  rcases g.leave_cases order counts m with ⟨hnone, hleave⟩ | ⟨ht, ha⟩
  · rw [hleave]
    exact ⟨rfl, fun m' hm' => absurd hm' (hnone m')⟩
  · exact ⟨ht, fun m' hm' => (ha m').trans (if_pos hm')⟩

end ConsumerGroup

end RMemQueue
