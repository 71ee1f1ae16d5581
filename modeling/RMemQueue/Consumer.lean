import RMemQueue.Broker
import Mathlib.Data.Finset.Basic

/-!
# Consumers (`base_consumer.rs`, `consumer.rs`)

A consumer's own state is guarded by one mutex; each operation takes it for single reads and updates and calls the
broker in between.  `Session` is what an operation of a consumer works on: the broker and the consumer's state.  The
callbacks of the context are not modelled, and the commit mode is ignored as in the source.
-/

namespace RMemQueue

open Conc

structure ConsumerState where
  subscribedTopics : List String
  assignedPartitions : TopicPartitionList
  position : AList (fun _ : String × Int => Int)
  paused : Finset (String × Int)
  pollStart : Nat

def ConsumerState.new : ConsumerState := ⟨[], .new, ∅, ∅, 0⟩

/-- The identity of a `BaseConsumer`. -/
structure BaseConsumer where
  groupId : Option String
  memberId : String
  deriving DecidableEq, Repr

/-- The broker and the state of the consumer whose operation runs. -/
structure Session (π : Type) where
  broker : Broker π
  state : ConsumerState

abbrev ConsumerM (π : Type) := Act (Session π) RmqError

namespace Session

variable {π α : Type}

def brokerLens : Lens (Session π) (Broker π) where
  get s := s.broker
  put s broker := { s with broker }
  get_put _ _ := rfl
  put_get _ := rfl
  put_put _ _ _ := rfl

def onBroker (x : BrokerM π α) : ConsumerM π α := x.zoom brokerLens

/-- A critical section of the consumer's mutex that only reads. -/
def readState (g : ConsumerState → α) : ConsumerM π α := .read fun s => .ok (g s.state)

/-- A critical section of the consumer's mutex that updates the state. -/
def updateState (f : ConsumerState → ConsumerState) : ConsumerM π Unit := .modify fun s => { s with state := f s.state }

end Session

namespace ConsumerState

def setPosition (s : ConsumerState) (key : String × Int) (offset : Int) : ConsumerState :=
  { s with position := s.position.insert key offset }

/-- What a poll stores with a message that it returns. -/
def delivered (s : ConsumerState) (key : String × Int) (offset : Int) (idx : Nat) : ConsumerState :=
  { s with position := s.position.insert key (offset + 1), pollStart := idx + 1 }

section

variable (s : ConsumerState) (key : String × Int) (offset : Int) (idx : Nat)

@[simp] theorem lookup_setPosition : (s.setPosition key offset).position.lookup key = some offset :=
  AList.lookup_insert _

@[simp] theorem lookup_delivered : (s.delivered key offset idx).position.lookup key = some (offset + 1) :=
  AList.lookup_insert _

variable {key} {key' : String × Int}

theorem lookup_setPosition_ne (h : key' ≠ key) :
    (s.setPosition key offset).position.lookup key' = s.position.lookup key' :=
  AList.lookup_insert_ne h

theorem lookup_delivered_ne (h : key' ≠ key) :
    (s.delivered key offset idx).position.lookup key' = s.position.lookup key' :=
  AList.lookup_insert_ne h

end

/-- Where a poll starts, and the number of entries it goes through. -/
def pollBounds (s : ConsumerState) : Nat × Nat :=
  let len := s.assignedPartitions.elements.length
  (if len > 0 then s.pollStart % len else 0, len)

/-- What a poll reads about the entry at an index: its key, its position and whether it is paused. -/
def pollEntry (s : ConsumerState) (idx : Nat) : Option ((String × Int) × Option Int × Bool) :=
  (s.assignedPartitions.elements[idx]?).map fun elem =>
    (elem.key, s.position.lookup elem.key, decide (elem.key ∈ s.paused))

theorem pollEntry_of_getElem? {s : ConsumerState} {idx : Nat} {elem : TopicPartitionElem}
    (h : s.assignedPartitions.elements[idx]? = some elem) :
    s.pollEntry idx = some (elem.key, s.position.lookup elem.key, decide (elem.key ∈ s.paused)) := by
  rw [pollEntry, h]
  rfl

theorem pollEntry_eq_some {s : ConsumerState} {idx : Nat} {key : String × Int} {position : Option Int} {paused : Bool}
    (h : s.pollEntry idx = some (key, position, paused)) :
    position = s.position.lookup key ∧ paused = decide (key ∈ s.paused) := by
  obtain ⟨elem, -, he⟩ := Option.map_eq_some_iff.1 h
  obtain ⟨rfl, rfl, rfl⟩ : elem.key = key ∧ s.position.lookup elem.key = position ∧
      decide (elem.key ∈ s.paused) = paused := by simpa using he
  exact ⟨rfl, rfl⟩

def pause (s : ConsumerState) (partitions : TopicPartitionList) : ConsumerState :=
  { s with paused := s.paused ∪ partitions.keys.toFinset }

def resume (s : ConsumerState) (partitions : TopicPartitionList) : ConsumerState :=
  { s with paused := s.paused \ partitions.keys.toFinset }

/-- What `unsubscribe` leaves. -/
def cleared (s : ConsumerState) : ConsumerState :=
  { s with subscribedTopics := [], assignedPartitions := .new, position := ∅, paused := ∅ }

end ConsumerState

namespace BaseConsumer

variable {π : Type} (c : BaseConsumer)

open Session

/-- What `poll_once` does with the result of a fetch; a stored offset is below `next_offset`, so that `offset + 1` is in
range. -/
def onFetched (key : String × Int) (idx : Nat) (rest : ConsumerM π (Option StoredMessage)) :
    RmqResult (Option StoredMessage) → ConsumerM π (Option StoredMessage)
  | .ok (some msg) => do
    updateState (·.delivered key msg.offset idx)
    pure (some msg)
  | .ok none => rest
  | .error (.offsetOutOfRange _ _ offset) => do
    updateState (·.setPosition key offset)
    rest
  | .error (.topicNotFound _) => rest
  | .error (.partitionOutOfRange _ _) => rest
  | .error e => .fail e

/-- What `poll_once` does with what it has read about an entry: a paused one is skipped. -/
def onEntry (idx : Nat) (rest : ConsumerM π (Option StoredMessage)) :
    Option ((String × Int) × Option Int × Bool) → ConsumerM π (Option StoredMessage)
  | none => rest
  | some (_, _, true) => rest
  | some (key, position, false) => do
    let result ← (onBroker (Broker.fetchOneFromPosition key.1 key.2 position c.groupId)).attempt
    onFetched key idx rest result

/-- The loop of `poll_once` over the entries. -/
def pollFrom (startIdx elementsLen : Nat) : List Nat → ConsumerM π (Option StoredMessage)
  | [] => pure none
  | i :: rest => do
    let entry ← readState (·.pollEntry ((startIdx + i) % elementsLen))
    c.onEntry ((startIdx + i) % elementsLen) (pollFrom startIdx elementsLen rest) entry

/-- `poll_once`: an error is `Some(Err(..))`. -/
def pollOnce : ConsumerM π (Option StoredMessage) := do
  let (startIdx, elementsLen) ← readState (·.pollBounds)
  if elementsLen = 0 then pure none
  else c.pollFrom startIdx elementsLen (List.range elementsLen)

/-- The entries that a group-less subscription adds for a topic; an error of `metadata` is ignored. -/
def topicEntries : RmqResult Metadata → List TopicPartitionElem
  | .ok metadata => metadata.topics.flatMap fun tm => tm.partitions.map fun pm => ⟨tm.name, pm.id, .stored⟩
  | .error _ => []

/-- The assignment of a new subscription. -/
def newAssignment (order : HashOrder) (topics : List String) : ConsumerM π TopicPartitionList :=
  match c.groupId with
  | some gid => onBroker (Broker.joinGroup order gid c.memberId topics)
  | none => do
    let results ← .forEach (fun topic => (onBroker (Broker.metadata (some topic))).attempt) topics
    pure ⟨results.flatMap topicEntries⟩

def subscribe (order : HashOrder) (topics : List String) : ConsumerM π Unit := do
  let assignment ← c.newAssignment order topics
  updateState fun s => { s with subscribedTopics := topics, assignedPartitions := assignment }

def leave (order : HashOrder) : ConsumerM π Unit :=
  match c.groupId with
  | some gid => onBroker (Broker.leaveGroup order gid c.memberId)
  | none => pure ()

def unsubscribe (order : HashOrder) : ConsumerM π Unit := do
  let _ ← readState (·.assignedPartitions)
  c.leave order
  updateState (·.cleared)

/-- `assignment` and `subscription`. -/
def assignment : ConsumerM π TopicPartitionList := readState (·.assignedPartitions)

def assign (partitions : TopicPartitionList) : ConsumerM π Unit :=
  updateState fun s => { s with assignedPartitions := partitions, position := ∅ }

/-- The offset that a seek stores; `newest + 1` is `next_offset`, hence in range. -/
def seekTarget (topic : String) (partition : Int) : Offset → ConsumerM π Int
  | .beginning => do
    let (oldest, _) ← onBroker (Broker.watermarks topic partition)
    pure oldest
  | .end_ => do
    let (_, newest) ← onBroker (Broker.watermarks topic partition)
    pure (newest + 1)
  | .offset o => pure o
  | .stored =>
    match c.groupId with
    | some gid => do
      let committed ← onBroker (Broker.committedOffset gid topic partition)
      pure (committed.getD 0)
    | none => pure 0
  | .offsetTail tail => do
    let (_, newest) ← onBroker (Broker.watermarks topic partition)
    match i64Checked (newest + 1 - tail) with
    | some o => pure (max o 0)
    | none => .panicked

def seek (topic : String) (partition : Int) (offset : Offset) : ConsumerM π Unit := do
  let target ← c.seekTarget topic partition offset
  updateState (·.setPosition (topic, partition) target)

/-- The commit of one list entry: only an absolute offset is committed. -/
def commitElem (gid : String) (elem : TopicPartitionElem) : ConsumerM π Unit :=
  match elem.offset with
  | .offset o => onBroker (Broker.commitOffset gid elem.topic elem.partition o)
  | _ => pure ()

def commit (tpl : TopicPartitionList) : ConsumerM π Unit :=
  match c.groupId with
  | some gid => do
    let _ ← .forEach (commitElem gid) tpl.elements
    pure ()
  | none => pure ()

def commitMessage (msg : StoredMessage) : ConsumerM π Unit :=
  c.commit (TopicPartitionList.new.addPartitionOffset msg.topic msg.partition (.offset (msg.offset + 1)))

def storeOffset (topic : String) (partition offset : Int) : ConsumerM π Unit :=
  updateState (·.setPosition (topic, partition) offset)

def committed : ConsumerM π TopicPartitionList := do
  let assigned ← readState (·.assignedPartitions)
  match c.groupId with
  | some gid => do
    let elements ← .forEach (fun elem : TopicPartitionElem => do
      let offset ← onBroker (Broker.committedOffset gid elem.topic elem.partition)
      pure (⟨elem.topic, elem.partition, .offset (offset.getD (-1))⟩ : TopicPartitionElem)) assigned.elements
    pure ⟨elements⟩
  | none => pure .new

/-- `position`. -/
def positions : ConsumerM π TopicPartitionList :=
  readState fun s => ⟨s.assignedPartitions.elements.map fun elem =>
    ⟨elem.topic, elem.partition, .offset ((s.position.lookup elem.key).getD (-1))⟩⟩

def pause (partitions : TopicPartitionList) : ConsumerM π Unit := updateState (·.pause partitions)

def resume (partitions : TopicPartitionList) : ConsumerM π Unit := updateState (·.resume partitions)

/-- `metadata` and `watermarks` ask the broker only. -/
def metadata (topic : Option String) : ConsumerM π Metadata := onBroker (Broker.metadata topic)

def watermarks (topic : String) (partition : Int) : ConsumerM π (Int × Int) :=
  onBroker (Broker.watermarks topic partition)

end BaseConsumer

end RMemQueue
