import RMemQueue.Assignment

/-!
# The state of a group

The members of a group, their topics and their assignments are three maps that `join` and `leave` update one by one.
`Consistent` says that they have the same keys and that the assigned partitions have one owner each; every run of calls
keeps it, whatever the partition counts are (`group_state_consistent`).
-/

namespace RMemQueue

/-- A call on a group, with the order of the hash set in its rebalance. -/
inductive GroupOp where
  | join (order : HashOrder) (memberId : String) (topics : List String) (counts : PartitionCounts)
  | leave (order : HashOrder) (memberId : String) (counts : PartitionCounts)

namespace ConsumerGroup

open RoundRobinAssignor

def apply (g : ConsumerGroup) : GroupOp → ConsumerGroup
  | .join order memberId topics counts => (g.join order memberId topics counts).2
  | .leave order memberId counts => g.leave order memberId counts

def runOps (g : ConsumerGroup) (ops : List GroupOp) : ConsumerGroup := ops.foldl apply g

/-- The three maps have the same keys; a partition that is assigned occurs once in one list, whose member subscribes to
its topic. -/
structure Consistent (g : ConsumerGroup) : Prop where
  members : ∀ m, m ∈ g.members ↔ m ∈ g.memberTopics
  assignments : ∀ m, m ∈ g.assignments ↔ m ∈ g.memberTopics
  once : ∀ m l, g.assignments.lookup m = some l → l.keys.Nodup
  exclusive : ∀ m m' l l', g.assignments.lookup m = some l → g.assignments.lookup m' = some l' →
    ∀ k ∈ l.keys, k ∈ l'.keys → m = m'
  subscribes : ∀ m l, g.assignments.lookup m = some l → ∀ k ∈ l.keys,
    ∃ topics, g.memberTopics.lookup m = some topics ∧ k.1 ∈ topics

variable {g : ConsumerGroup}

theorem consistent_new (groupId : String) : (new groupId).Consistent where
  members _ := Iff.rfl
  assignments _ := Iff.rfl
  once _ _ h := by cases h
  exclusive _ _ _ _ h := by cases h
  subscribes _ _ h := by cases h

private theorem mem_iff_lookup {α : Type} {a : AList (fun _ : String => α)} {m : String} :
    m ∈ a ↔ ∃ v, a.lookup m = some v := by
  rw [← AList.lookup_isSome, Option.isSome_iff_exists]

/-- A group that has dealt out its table. -/
private theorem consistent_of_dealt (order : HashOrder) (counts : PartitionCounts)
    (h : ∀ m, g.assignments.lookup m =
      if m ∈ g.memberTopics then some (dealt order g.memberTopics counts m) else none) : g.Consistent := by
  have hlist : ∀ m l, g.assignments.lookup m = some l → l = dealt order g.memberTopics counts m := by
    intro m l hl
    rw [h] at hl
    split at hl
    · exact (Option.some.inj hl).symm
    · cases hl
  refine ⟨g.mem_iff, fun m => ?_, fun m l hl => ?_, fun m m' l l' hl hl' k hk hk' => ?_, fun m l hl k hk => ?_⟩
  · rw [mem_iff_lookup, h]
    split
    · rename_i hm
      exact iff_of_true ⟨_, rfl⟩ hm
    · rename_i hm
      exact iff_of_false (by simp) hm
  · rw [hlist m l hl]
    exact nodup_keys_dealt ..
  -- one partition of a topic is dealt to one member
  · rw [hlist m l hl] at hk
    rw [hlist m' l' hl'] at hk'
    obtain ⟨p, hp, hmem⟩ := mem_keys_dealt.1 hk
    obtain ⟨p', hp', hmem'⟩ := mem_keys_dealt.1 hk'
    obtain rfl : p = p' := Int.ofNat.inj (hp.symm.trans hp')
    exact deal_unique hmem hmem'
  · rw [hlist m l hl] at hk
    obtain ⟨p, -, hmem⟩ := mem_keys_dealt.1 hk
    exact mem_subscribed.1 (mem_of_mem_deal hmem)

theorem Consistent.join (g : ConsumerGroup) (order : HashOrder) (m : String) (topics : List String)
    (counts : PartitionCounts) : (g.join order m topics counts).2.Consistent := by
  obtain ⟨ht, -, ha⟩ := g.join_spec order counts m topics
  refine consistent_of_dealt order counts fun m' => ?_
  rw [ht]
  exact ha m'

/-- The last member that leaves takes its assignment with it; otherwise the rest of the table is dealt out again. -/
theorem Consistent.leave (h : g.Consistent) (order : HashOrder) (m : String) (counts : PartitionCounts) :
    (g.leave order m counts).Consistent := by
  rcases g.leave_cases order counts m with ⟨hnone, hleave⟩ | ⟨ht, ha⟩
  -- nobody is left, and nothing stays assigned
  · rw [hleave]
    have hnone' : ∀ m', m' ∉ (g.removeMember m).assignments := by
      intro m' hm'
      obtain ⟨hne, hm'⟩ := AList.mem_erase.1 hm'
      exact hnone m' (AList.mem_erase.2 ⟨hne, (h.assignments m').1 hm'⟩)
    have hlookup : ∀ m' l, (g.removeMember m).assignments.lookup m' ≠ some l := fun m' l hl =>
      hnone' m' (mem_iff_lookup.2 ⟨l, hl⟩)
    exact {
      members := (g.removeMember m).mem_iff
      assignments := fun m' => iff_of_false (hnone' m') (hnone m')
      once := fun m' l hl => absurd hl (hlookup m' l)
      exclusive := fun m' _ l _ hl => absurd hl (hlookup m' l)
      subscribes := fun m' l hl => absurd hl (hlookup m' l) }
  -- a member is left, so that the rebalance does deal
  · refine consistent_of_dealt order counts fun m' => ?_
    rw [ht]
    exact ha m'

theorem Consistent.runOps (h : g.Consistent) (ops : List GroupOp) : (g.runOps ops).Consistent := by
  induction ops generalizing g with
  | nil => exact h
  | cons op ops ih =>
    cases op with
    | join order m topics counts => exact ih (.join g order m topics counts)
    | leave order m counts => exact ih (h.leave order m counts)

end ConsumerGroup

/-- **The state of a group stays consistent**, over every sequence of calls with any members, topics and counts; and a
`join` in a state that is reached has an assignment to return. -/
theorem group_state_consistent (groupId : String) (ops : List GroupOp) :
    ((ConsumerGroup.new groupId).runOps ops).Consistent ∧
    ∀ order m topics counts,
      ∃ l, (((ConsumerGroup.new groupId).runOps ops).join order m topics counts).1 = .ok l := by
  refine ⟨(ConsumerGroup.consistent_new groupId).runOps ops, fun order m topics counts => ?_⟩
  exact ⟨_, (ConsumerGroup.join_spec _ order counts m topics).2.1⟩

end RMemQueue
