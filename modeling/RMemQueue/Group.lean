import RMemQueue.Lib.WriteLog
import RMemQueue.Message
import Mathlib.Data.List.AList
import Mathlib.Data.List.Sort
import Mathlib.Data.String.Basic

/-!
# Consumer groups (`topic_partition.rs`, `partition_assignor.rs`, `consumer_group.rs`, `offset_store.rs`)

A group deals the partitions of each topic out to the members that subscribe to it, in the order of their ids.  The
order in which the assignor goes through the topics is that of a hash set, hence a parameter (`HashOrder`).

A member that joins or leaves changes the table of subscriptions, and the whole table is dealt out again.
-/

namespace RMemQueue

inductive Offset where
  | beginning
  | end_
  | stored
  | offset (o : Int)
  | offsetTail (n : Int)
  deriving DecidableEq, Repr

structure TopicPartitionElem where
  topic : String
  partition : Int
  offset : Offset
  deriving DecidableEq, Repr

/-- The key of an entry in the maps of a consumer. -/
def TopicPartitionElem.key (e : TopicPartitionElem) : String × Int := (e.topic, e.partition)

structure TopicPartitionList where
  elements : List TopicPartitionElem
  deriving DecidableEq, Repr

namespace TopicPartitionList

def new : TopicPartitionList := ⟨[]⟩

def addPartition (l : TopicPartitionList) (topic : String) (partition : Int) : TopicPartitionList :=
  ⟨l.elements ++ [⟨topic, partition, .stored⟩]⟩

def addPartitionOffset (l : TopicPartitionList) (topic : String) (partition : Int) (offset : Offset) :
    TopicPartitionList :=
  ⟨l.elements ++ [⟨topic, partition, offset⟩]⟩

def count (l : TopicPartitionList) : Nat := l.elements.length

/-- The partitions of a list. -/
def keys (l : TopicPartitionList) : List (String × Int) := l.elements.map (·.key)

end TopicPartitionList

/-! ### The round-robin assignor -/

/-- The order in which a hash set lists its elements: any order of them. -/
structure HashOrder where
  order : List String → List String
  perm : ∀ l, (order l).Perm l

instance : Inhabited HashOrder := ⟨⟨id, List.Perm.refl⟩⟩

abbrev Assignments := AList (fun _ : String => TopicPartitionList)

abbrev MemberTopics := AList (fun _ : String => List String)

abbrev PartitionCounts := AList (fun _ : String => Int)

namespace RoundRobinAssignor

def sortedMembers (memberTopics : MemberTopics) : List String := memberTopics.keys.insertionSort (· ≤ ·)

def allTopics (memberTopics : MemberTopics) : List String := (memberTopics.entries.flatMap (·.2)).dedup

def subscribed (memberTopics : MemberTopics) (topic : String) : List String :=
  (sortedMembers memberTopics).filter fun m => ((memberTopics.lookup m).map (·.contains topic)).getD false

/-- One round of the loop over the partitions of a topic. -/
def assignPartition (subscribed : List String) (topic : String) (assignments : Assignments) (p : Nat) : Assignments :=
  match subscribed[p % subscribed.length]? with
  | some memberId =>
    match assignments.lookup memberId with
    | some l => assignments.insert memberId (l.addPartition topic p)
    | none => assignments
  | none => assignments

/-- One round of the loop over the topics. -/
def assignTopic (memberTopics : MemberTopics) (partitionCounts : PartitionCounts) (assignments : Assignments)
    (topic : String) : Assignments :=
  match partitionCounts.lookup topic with
  | none => assignments
  | some numPartitions =>
    let subscribed := subscribed memberTopics topic
    if subscribed.length = 0 ∨ numPartitions = 0 then assignments
    else (List.range numPartitions.toNat).foldl (assignPartition subscribed topic) assignments

def assign (order : HashOrder) (memberTopics : MemberTopics) (partitionCounts : PartitionCounts) :
    RmqResult Assignments :=
  let assignments := (sortedMembers memberTopics).foldl (fun a m => a.insert m .new) ∅
  .ok ((order.order (allTopics memberTopics)).foldl (assignTopic memberTopics partitionCounts) assignments)

end RoundRobinAssignor

/-! ### The group -/

structure GroupMember where
  memberId : String
  subscribedTopics : List String
  deriving DecidableEq, Repr

/-- `ConsumerGroup` with its `GroupState`; the assignor and the offset store are those of the broker. -/
structure ConsumerGroup where
  groupId : String
  members : AList (fun _ : String => GroupMember)
  memberTopics : MemberTopics
  assignments : Assignments
  mem_iff : ∀ m, m ∈ members ↔ m ∈ memberTopics

namespace ConsumerGroup

def new (groupId : String) : ConsumerGroup := ⟨groupId, ∅, ∅, ∅, fun _ => Iff.rfl⟩

def rebalance (g : ConsumerGroup) (order : HashOrder) (topicPartitionCounts : PartitionCounts) : ConsumerGroup :=
  if g.members.keys.isEmpty then { g with assignments := ∅ }
  else
    match RoundRobinAssignor.assign order g.memberTopics topicPartitionCounts with
    | .ok newAssignments => { g with assignments := newAssignments }
    | .error _ => g

/-- What `join` does before it rebalances. -/
def insertMember (g : ConsumerGroup) (memberId : String) (topics : List String) : ConsumerGroup :=
  { g with
    members := g.members.insert memberId ⟨memberId, topics⟩
    memberTopics := g.memberTopics.insert memberId topics
    mem_iff := by simp [g.mem_iff] }

def join (g : ConsumerGroup) (order : HashOrder) (memberId : String) (topics : List String)
    (topicPartitionCounts : PartitionCounts) : RmqResult TopicPartitionList × ConsumerGroup :=
  let g := (g.insertMember memberId topics).rebalance order topicPartitionCounts
  (match g.assignments.lookup memberId with
    | some assignment => .ok assignment
    | none => .error (.custom ("no assignment for member " ++ memberId)), g)

/-- What `leave` does before it rebalances. -/
def removeMember (g : ConsumerGroup) (memberId : String) : ConsumerGroup :=
  { g with
    members := g.members.erase memberId
    memberTopics := g.memberTopics.erase memberId
    assignments := g.assignments.erase memberId
    mem_iff := by simp [g.mem_iff] }

def leave (g : ConsumerGroup) (order : HashOrder) (memberId : String) (topicPartitionCounts : PartitionCounts) :
    ConsumerGroup :=
  let g := g.removeMember memberId
  if g.members.keys.isEmpty then g
  else g.rebalance order topicPartitionCounts

end ConsumerGroup

/-- `InMemoryOffsetStore`: group, topic and partition to offset. -/
abbrev OffsetStore := AList (fun _ : String × String × Int => Int)

end RMemQueue
