import RMemQueue.GroupState

/-!
# What the assignor deals out (`partition_assignor.rs`)

`assign` goes through the topics of a hash set and deals the partitions of each out to its sorted subscribers.

* `assign_exact`: each partition of a subscribed topic has one owner, which subscribes to the topic; nothing else is
  assigned; each topic is dealt out evenly; and who gets what does not depend on any iteration order.
* `totals_balanced_iff`: the deals all begin with the first member, so that members with the same topics get equally
  many partitions in total exactly as long as at most one topic does not come out.
-/

namespace RMemQueue

namespace RoundRobinAssignor

/-- The member's list of topics contains the topic. -/
def Subscribes (memberTopics : MemberTopics) (m topic : String) : Prop :=
  ∃ topics, memberTopics.lookup m = some topics ∧ topic ∈ topics

/-- The number of partitions of a topic in a list. -/
def topicCount (l : TopicPartitionList) (topic : String) : Nat := l.keys.countP (·.1 = topic)

/-- The assignments split each topic with a known count among its subscribers. -/
structure Exact (memberTopics : MemberTopics) (counts : PartitionCounts) (a : Assignments) : Prop where
  members : ∀ m, m ∈ a ↔ m ∈ memberTopics
  owner : ∀ topic n p, counts.lookup topic = some n → 0 ≤ p → p < n → (∃ m, Subscribes memberTopics m topic) →
    ∃ m l, a.lookup m = some l ∧ Subscribes memberTopics m topic ∧ l.keys.count (topic, p) = 1 ∧
      ∀ m' l', m' ≠ m → a.lookup m' = some l' → (topic, p) ∉ l'.keys
  nothingElse : ∀ m l topic p, a.lookup m = some l → (topic, p) ∈ l.keys →
    Subscribes memberTopics m topic ∧ ∃ n, counts.lookup topic = some n ∧ 0 ≤ p ∧ p < n
  balanced : ∀ topic m m' l l', Subscribes memberTopics m topic → Subscribes memberTopics m' topic →
    a.lookup m = some l → a.lookup m' = some l' → topicCount l topic ≤ topicCount l' topic + 1

variable {order : HashOrder} {memberTopics : MemberTopics} {counts : PartitionCounts}

private theorem subscribes_iff {m topic : String} :
    Subscribes memberTopics m topic ↔ m ∈ subscribed memberTopics topic := mem_subscribed.symm

/-- The number of partitions of a topic that a member is dealt. -/
private theorem topicCount_dealt (m topic : String) :
    topicCount (dealt order memberTopics counts m) topic =
      (deal (subscribed memberTopics topic) ((counts.lookup topic).getD 0).toNat m).length := by
  have hmap : ((dealt order memberTopics counts m).keys.filter (·.1 = topic)).Perm
      ((deal (subscribed memberTopics topic) ((counts.lookup topic).getD 0).toNat m).map fun p : Nat => (topic, (p : Int))) := by
    rw [List.perm_ext_iff_of_nodup ((nodup_keys_dealt ..).filter _)]
    · rintro ⟨t, q⟩
      simp only [List.mem_filter, mem_keys_dealt, decide_eq_true_eq, List.mem_map, Prod.mk.injEq]
      constructor
      · rintro ⟨⟨p, rfl, hp⟩, rfl⟩
        exact ⟨p, hp, rfl, rfl⟩
      · rintro ⟨p, hp, rfl, rfl⟩
        exact ⟨⟨p, rfl, hp⟩, rfl⟩
    · refine (nodup_deal _ _ _).map fun p q h => ?_
      exact Int.ofNat.inj (Prod.mk.inj h).2
  rw [topicCount, List.countP_eq_length_filter, hmap.length_eq, List.length_map]

private theorem exact_dealt {a : Assignments}
    (h : ∀ m, a.lookup m = if m ∈ memberTopics then some (dealt order memberTopics counts m) else none) :
    Exact memberTopics counts a := by
  have hlist : ∀ {m l}, a.lookup m = some l → l = dealt order memberTopics counts m := by
    intro m l hl
    rw [h] at hl
    split at hl
    · exact (Option.some.inj hl).symm
    · cases hl
  have hlookup : ∀ {m topic}, Subscribes memberTopics m topic →
      a.lookup m = some (dealt order memberTopics counts m) := by
    rintro m topic ⟨topics, hm, -⟩
    rw [h, if_pos (AList.lookup_isSome.1 (by rw [hm]; rfl))]
  refine ⟨fun m => ?_, fun topic n p hn h0 hp hsub => ?_, fun m l topic p hl hmem => ?_,
    fun topic m m' l l' hm hm' hl hl' => ?_⟩
  · rw [← AList.lookup_isSome, h]
    split
    · rename_i hm
      exact iff_of_true rfl hm
    · rename_i hm
      exact iff_of_false (by simp) hm
  -- a partition has an owner as long as somebody subscribes to its topic
  · obtain ⟨m₀, hm₀⟩ := hsub
    have hne : subscribed memberTopics topic ≠ [] := List.ne_nil_of_mem (subscribes_iff.1 hm₀)
    have hlt : p.toNat < ((counts.lookup topic).getD 0).toNat := by
      rw [hn, Option.getD_some]
      omega
    obtain ⟨m, hm, hdeal⟩ := exists_mem_deal hne hlt
    have hkey : (topic, p) ∈ (dealt order memberTopics counts m).keys := mem_keys_dealt.2 ⟨p.toNat, by omega, hdeal⟩
    refine ⟨m, _, hlookup (subscribes_iff.2 hm), subscribes_iff.2 hm,
      List.count_eq_one_of_mem (nodup_keys_dealt ..) hkey, fun m' l' hne' hl' hmem => ?_⟩
    rw [hlist hl', mem_keys_dealt] at hmem
    obtain ⟨q, hq, hdeal'⟩ := hmem
    obtain rfl : q = p.toNat := by omega
    exact hne' (deal_unique hdeal' hdeal)
  · rw [hlist hl, mem_keys_dealt] at hmem
    obtain ⟨q, rfl, hdeal⟩ := hmem
    have hlt := (mem_deal.1 hdeal).1
    refine ⟨subscribes_iff.2 (mem_of_mem_deal hdeal), ?_⟩
    cases hn : counts.lookup topic with
    | none => simp [hn] at hlt
    | some n =>
      rw [hn, Option.getD_some] at hlt
      exact ⟨n, rfl, by omega, by omega⟩
  -- the shares depend on the ranks of the two members only
  · obtain ⟨r, hr⟩ := List.mem_iff_getElem?.1 (subscribes_iff.1 hm)
    obtain ⟨r', hr'⟩ := List.mem_iff_getElem?.1 (subscribes_iff.1 hm')
    rw [hlist hl, hlist hl', topicCount_dealt, topicCount_dealt, length_deal (nodup_subscribed ..) hr,
      length_deal (nodup_subscribed ..) hr']
    split <;> split <;> omega

end RoundRobinAssignor

open RoundRobinAssignor

/-- **The assignor splits each topic exactly.**  For every table of subscriptions, all partition counts and every order
of the hash set, `assign` gives each partition of a subscribed topic with a known positive count to one subscriber,
once, and nothing else to anybody; two subscribers of a topic get equally many of its partitions up to one; and the set
that each member gets is the same for every order of the set and of both maps. -/
theorem assign_exact (order : HashOrder) (memberTopics : MemberTopics) (counts : PartitionCounts) :
    ∃ a, assign order memberTopics counts = .ok a ∧ Exact memberTopics counts a ∧
      ∀ order' memberTopics' counts', (∀ m, memberTopics'.lookup m = memberTopics.lookup m) →
        (∀ topic, counts'.lookup topic = counts.lookup topic) →
        ∃ a', assign order' memberTopics' counts' = .ok a' ∧
          ∀ m l l', a.lookup m = some l → a'.lookup m = some l' → l.keys.Perm l'.keys := by
  have ha : assign order memberTopics counts = .ok _ := rfl
  refine ⟨_, ha, exact_dealt (lookup_assign ha), fun order' memberTopics' counts' hmembers hcounts => ?_⟩
  have ha' : assign order' memberTopics' counts' = .ok _ := rfl
  refine ⟨_, ha', fun m l l' hl hl' => ?_⟩
  have hsub : ∀ topic, subscribed memberTopics' topic = subscribed memberTopics topic := by
    intro topic
    refine subscribed_eq (pairwise_subscribed _ _) fun m => ?_
    rw [mem_subscribed, mem_subscribed, hmembers]
  rw [lookup_assign ha] at hl
  rw [lookup_assign ha'] at hl'
  split at hl
  · split at hl'
    · obtain rfl := Option.some.inj hl
      obtain rfl := Option.some.inj hl'
      rw [List.perm_ext_iff_of_nodup (nodup_keys_dealt ..) (nodup_keys_dealt ..)]
      rintro ⟨topic, q⟩
      rw [mem_keys_dealt, mem_keys_dealt, hsub, hcounts]
    · cases hl'
  · cases hl

/-! ### Totals over all topics -/

namespace RoundRobinAssignor

/-- Any two members get equally many partitions in total, up to one. -/
def TotalsBalanced (a : Assignments) : Prop :=
  ∀ m m' l l', a.lookup m = some l → a.lookup m' = some l' → l.count ≤ l'.count + 1

/-- All members subscribe to the same topics. -/
def SameTopics (memberTopics : MemberTopics) : Prop :=
  ∀ m topics m' topics', memberTopics.lookup m = some topics → memberTopics.lookup m' = some topics' →
    ∀ topic, topic ∈ topics ↔ topic ∈ topics'

variable {order : HashOrder} {memberTopics : MemberTopics} {counts : PartitionCounts}

private theorem subscribed_of_same (h : SameTopics memberTopics) {topic : String}
    (ht : ∃ m, Subscribes memberTopics m topic) : subscribed memberTopics topic = sortedMembers memberTopics := by
  obtain ⟨m₀, topics₀, hm₀, ht⟩ := ht
  refine subscribed_eq (pairwise_sortedMembers _) fun m => ?_
  rw [mem_subscribed, mem_sortedMembers, ← AList.lookup_isSome, Option.isSome_iff_exists]
  constructor
  · rintro ⟨topics, hm, -⟩
    exact ⟨topics, hm⟩
  · rintro ⟨topics, hm⟩
    exact ⟨topics, hm, (h m topics m₀ topics₀ hm hm₀ topic).2 ht⟩

private theorem mem_order_allTopics {topic : String} :
    topic ∈ order.order (allTopics memberTopics) ↔ ∃ m, Subscribes memberTopics m topic := by
  rw [(order.perm _).mem_iff, allTopics, List.mem_dedup, List.mem_flatMap]
  constructor
  · rintro ⟨⟨m, topics⟩, he, ht⟩
    exact ⟨m, topics, AList.mem_lookup_iff.2 he, ht⟩
  · rintro ⟨m, topics, hm, ht⟩
    exact ⟨⟨m, topics⟩, AList.mem_lookup_iff.1 hm, ht⟩

/-- The numbers of partitions of the subscribed topics, in the order in which they are dealt out. -/
private def dealtCounts (order : HashOrder) (memberTopics : MemberTopics) (counts : PartitionCounts) : List Nat :=
  (order.order (allTopics memberTopics)).map fun topic => ((counts.lookup topic).getD 0).toNat

private theorem count_dealt (h : SameTopics memberTopics) (m : String) :
    (dealt order memberTopics counts m).count =
      ((dealtCounts order memberTopics counts).map fun n => (deal (sortedMembers memberTopics) n m).length).sum := by
  rw [TopicPartitionList.count, dealt, List.length_flatMap, dealtCounts, List.map_map]
  congr 1
  refine List.map_congr_left fun topic ht => ?_
  rw [topicEntries, List.length_map, subscribed_of_same h (mem_order_allTopics.1 ht)]
  rfl

/-- In a list without repetitions at most one element has a property. -/
private theorem countP_le_one_iff {α : Type} {l : List α} (hl : l.Nodup) (p : α → Bool) :
    l.countP p ≤ 1 ↔ ∀ a ∈ l, ∀ b ∈ l, p a → p b → a = b := by
  induction l with
  | nil => simp
  | cons a l ih =>
    obtain ⟨ha, hl⟩ := List.nodup_cons.1 hl
    by_cases hp : p a
    · rw [List.countP_cons_of_pos hp]
      have hzero : l.countP p + 1 ≤ 1 ↔ ∀ b ∈ l, ¬p b := by
        rw [← List.countP_eq_zero]
        omega
      rw [hzero]
      constructor
      · intro h x hx y hy hpx hpy
        rcases List.mem_cons.1 hx with rfl | hx
        · rcases List.mem_cons.1 hy with rfl | hy
          · rfl
          · exact absurd hpy (h y hy)
        · exact absurd hpx (h x hx)
      · intro h b hb hpb
        obtain rfl := h a (List.mem_cons_self ..) b (List.mem_cons_of_mem _ hb) hp hpb
        exact ha hb
    · rw [List.countP_cons_of_neg hp, ih hl]
      constructor
      · intro h x hx y hy hpx hpy
        rcases List.mem_cons.1 hx with rfl | hx
        · exact absurd hpx hp
        · rcases List.mem_cons.1 hy with rfl | hy
          · exact absurd hpy hp
          · exact h x hx y hy hpx hpy
      · exact fun h x hx y hy => h x (List.mem_cons_of_mem _ hx) y (List.mem_cons_of_mem _ hy)

end RoundRobinAssignor

/-- **Totals.**  When all members subscribe to the same topics, any two of them get equally many partitions over all
topics, up to one, if and only if there is at most one topic whose number of partitions is no multiple of the number
of members. -/
theorem totals_balanced_iff {order : HashOrder} {memberTopics : MemberTopics} {counts : PartitionCounts}
    (hsame : SameTopics memberTopics) (hcounts : ∀ topic n, counts.lookup topic = some n → 0 ≤ n) {a : Assignments}
    (ha : assign order memberTopics counts = .ok a) :
    TotalsBalanced a ↔ ∀ topic topic' n n', (∃ m, Subscribes memberTopics m topic) →
      (∃ m, Subscribes memberTopics m topic') → counts.lookup topic = some n → counts.lookup topic' = some n' →
      ¬(memberTopics.keys.length : Int) ∣ n → ¬(memberTopics.keys.length : Int) ∣ n' → topic = topic' := by
  have hlen : (sortedMembers memberTopics).length = memberTopics.keys.length := (List.perm_insertionSort _ _).length_eq
  have hnodup : (sortedMembers memberTopics).Nodup := (pairwise_sortedMembers _).imp fun h => ne_of_lt h
  have htotals : TotalsBalanced a ↔ ∀ x ∈ sortedMembers memberTopics, ∀ y ∈ sortedMembers memberTopics,
      (dealt order memberTopics counts x).count ≤ (dealt order memberTopics counts y).count + 1 := by
    constructor
    · intro h x hx y hy
      refine h x y _ _ ?_ ?_
      · rw [lookup_assign ha, if_pos (mem_sortedMembers.1 hx)]
      · rw [lookup_assign ha, if_pos (mem_sortedMembers.1 hy)]
    · intro h x y l l' hl hl'
      rw [lookup_assign ha] at hl hl'
      split at hl
      · rename_i hx
        split at hl'
        · rename_i hy
          obtain rfl := Option.some.inj hl
          obtain rfl := Option.some.inj hl'
          exact h x (mem_sortedMembers.2 hx) y (mem_sortedMembers.2 hy)
        · cases hl'
      · cases hl
  -- which topics come out
  have hmod : ∀ topic, ((counts.lookup topic).getD 0).toNat % memberTopics.keys.length ≠ 0 ↔
      ∃ n, counts.lookup topic = some n ∧ ¬(memberTopics.keys.length : Int) ∣ n := by
    intro topic
    cases hn : counts.lookup topic with
    | none => simp
    | some n =>
      obtain ⟨k, rfl⟩ := Int.eq_ofNat_of_zero_le (hcounts topic n hn)
      simp [Int.natCast_dvd_natCast, Nat.dvd_iff_mod_eq_zero]
  have htopics : (order.order (allTopics memberTopics)).Nodup := (order.perm _).nodup_iff.2 (List.nodup_dedup _)
  rw [htotals]
  simp only [count_dealt hsame]
  rw [deals_balanced_iff hnodup, hlen, dealtCounts, List.countP_map, countP_le_one_iff htopics]
  simp only [Function.comp_apply, decide_eq_true_eq, hmod, mem_order_allTopics]
  constructor
  · rintro (hnil | h) topic topic' n n' ht ht' hn hn' hd hd'
    · obtain ⟨m, hm⟩ := ht
      have hmem := mem_sortedMembers.2 (mem_of_mem_subscribed (mem_subscribed.2 hm))
      rw [hnil] at hmem
      cases hmem
    · exact h topic ht topic' ht' ⟨n, hn, hd⟩ ⟨n', hn', hd'⟩
  · intro h
    refine Or.inr fun topic ht topic' ht' => ?_
    rintro ⟨n, hn, hd⟩ ⟨n', hn', hd'⟩
    exact h topic topic' n n' ht ht' hn hn' hd hd'

/-- Two members with the same topics. -/
private def twoMembers (topics : List String) : MemberTopics :=
  ((∅ : MemberTopics).insert "b" topics).insert "a" topics

private theorem lookup_twoMembers {topics l : List String} {m : String} (h : (twoMembers topics).lookup m = some l) :
    l = topics := by
  rcases WriteLog.lookup_insert_cases h with ⟨-, rfl⟩ | ⟨-, h⟩
  · rfl
  · rcases WriteLog.lookup_insert_cases h with ⟨-, rfl⟩ | ⟨-, h⟩
    · rfl
    · cases h

private theorem sameTopics_twoMembers (topics : List String) : SameTopics (twoMembers topics) := by
  intro m l m' l' h h' topic
  rw [lookup_twoMembers h, lookup_twoMembers h']

theorem totals_balanced_one_topic : ∃ a, assign default (twoMembers ["t"]) ((∅ : PartitionCounts).insert "t" 3) = .ok a ∧
    TotalsBalanced a := by
  refine ⟨_, rfl, (totals_balanced_iff (sameTopics_twoMembers _) (fun topic n h => ?_) rfl).2 ?_⟩
  · rcases WriteLog.lookup_insert_cases h with ⟨-, rfl⟩ | ⟨-, h⟩
    · decide
    · cases h
  · rintro topic topic' n n' ⟨m, topics, hm, ht⟩ ⟨m', topics', hm', ht'⟩ _ _ _ _
    rw [lookup_twoMembers hm, List.mem_singleton] at ht
    rw [lookup_twoMembers hm', List.mem_singleton] at ht'
    rw [ht, ht']

/-- The first member gets the only partition of each of two topics. -/
theorem totals_unbalanced : ¬∀ (order : HashOrder) (memberTopics : MemberTopics) (counts : PartitionCounts) (a : Assignments),
    SameTopics memberTopics → (∀ topic n, counts.lookup topic = some n → 0 ≤ n) →
    assign order memberTopics counts = .ok a → TotalsBalanced a := by
  intro h
  have hpos : ∀ topic n, (((∅ : PartitionCounts).insert "s" 1).insert "t" 1).lookup topic = some n → 0 ≤ n := by
    intro topic n hn
    rcases WriteLog.lookup_insert_cases hn with ⟨-, rfl⟩ | ⟨-, hn⟩
    · decide
    · rcases WriteLog.lookup_insert_cases hn with ⟨-, rfl⟩ | ⟨-, hn⟩
      · decide
      · cases hn
  have hb := h default (twoMembers ["s", "t"]) _ _ (sameTopics_twoMembers _) hpos rfl "a" "b"
  exact absurd (hb _ _ rfl rfl) (by decide +kernel)

end RMemQueue
