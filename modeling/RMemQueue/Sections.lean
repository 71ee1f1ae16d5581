import RMemQueue.Backend

/-!
# The reads and writes of critical sections

What the critical sections of the backend read and write when they take more than one step: the buffer of a partition is
read and then overwritten, and the index of a message is found before the message is read.

* `Topic.produce_eq_storePartition`, `InMemoryBackend.insertTopic_eq_bindTopic`: if nothing has changed in between, the write
  is what the section does in one step.
-/

namespace RMemQueue

open Conc

namespace Partition

/-- What the lock of the buffer guards: not the handle by which waiting tasks are notified. -/
def withoutNotify (p : Partition) : Partition := { p with notify := .new }

/-- What `read_one` finds out from the bounds of the buffer: its outcome, or the index of the message. -/
def findOne (p : Partition) (offset : Int) : Outcome RmqError (Option StoredMessage) ⊕ Nat :=
  let buf := p.buffer
  if buf.log.isEmpty then
    if offset = 0 ∨ offset = buf.nextOffset then .inl (.ok none)
    else .inl (.err (p.outOfRange offset))
  else
    let oldest := buf.nextOffset - buf.log.length
    if offset < oldest ∨ offset > buf.nextOffset then .inl (.err (p.outOfRange offset))
    else if offset = buf.nextOffset then .inl (.ok none)
    else .inr (offset - oldest).toNat

/-- The message at an index of the buffer. -/
def messageAt (p : Partition) (idx : Nat) : Outcome RmqError (Option StoredMessage) :=
  match p.buffer.log[idx]? with
  | some m => .ok (some m)
  | none => .panic

theorem readOne_eq_findOne (p : Partition) (offset : Int) :
    InMemoryBackend.ofResult (p.readOne offset) = (p.findOne offset).elim id p.messageAt := by
  unfold readOne findOne
  dsimp only
  split
  · split
    · rfl
    · rfl
  · split
    · rfl
    · split
      · rfl
      · rename_i hr hn
        have hlt : (offset - (p.buffer.nextOffset - p.buffer.log.length)).toNat < p.buffer.log.length := by omega
        simp only [Sum.elim_inr, messageAt, List.getElem?_eq_getElem hlt]
        rfl

theorem appendContent_withoutNotify (p : Partition) (content : Content) (headers : Option OwnedHeaders)
    (timestamp : Option Int) (clock : Clock) :
    p.withoutNotify.appendContent content headers timestamp clock =
      (p.appendContent content headers timestamp clock).map fun r => (r.1, r.2.withoutNotify) := by
  unfold appendContent
  split
  · rename_i h
    split
    · rfl
    · rename_i offset buffer h'
      exact absurd (h.symm.trans h') (by simp)
  · rename_i offset buffer h
    split
    · rename_i h'
      exact absurd (h'.symm.trans h) (by simp)
    · rename_i offset' buffer' h'
      obtain ⟨rfl, rfl⟩ : offset = offset' ∧ buffer = buffer' := by simpa using h.symm.trans h'
      rfl

theorem notify_appendContent {p p' : Partition} {content : Content} {headers : Option OwnedHeaders}
    {timestamp : Option Int} {clock : Clock} {r : Int × Int}
    (h : p.appendContent content headers timestamp clock = some (r, p')) : p'.notify = p.notify.notify := by
  unfold appendContent at h
  split at h
  · cases h
  · cases h
    rfl

end Partition

namespace Topic

/-- The topic with the buffer of a partition overwritten, and whoever waits for its messages notified. -/
def storePartition (t : Topic) (id : Int) (p : Partition) : Topic :=
  match h : t.partition? id with
  | some q =>
    if hn : p.topicName = t.name ∧ p.partitionId = id then
      { name := t.name
        partitions := t.partitions.set id.toNat { p with notify := q.notify.notify }
        partitionCount := t.partitionCount
        length_eq := by rw [List.length_set, t.length_eq]
        named := by
          intro m q' hq
          obtain ⟨n, rfl, hlookup⟩ := partition?_eq_some_iff.1 h
          by_cases hm : n = m
          · subst hm
            obtain ⟨hlt, -⟩ := List.getElem?_eq_some_iff.1 hlookup
            rw [Int.toNat_natCast, List.getElem?_set_self hlt] at hq
            obtain rfl := Option.some.inj hq
            exact hn
          · rw [Int.toNat_natCast, List.getElem?_set_ne hm] at hq
            exact t.named m q' hq }
    else t
  | none => t

private theorem eq_of_fields {t t' : Topic} (hname : t.name = t'.name) (hparts : t.partitions = t'.partitions)
    (hcount : t.partitionCount = t'.partitionCount) : t = t' := by
  cases t
  cases t'
  cases hname
  cases hparts
  cases hcount
  rfl

theorem produce_eq_storePartition {t : Topic} {partition : Int} {content : Content} {headers : Option OwnedHeaders}
    {timestamp : Option Int} {clock : Clock} {p p' : Partition} {r : Int × Int} (hp : t.partition? partition = some p)
    (ha : p.appendContent content headers timestamp clock = some (r, p')) :
    t.produce partition content headers timestamp clock = (.ok r, t.storePartition partition p'.withoutNotify) := by
  have hget : t.getPartition partition = .ok p := by rw [getPartition_eq, hp]; rfl
  have hnames : p'.topicName = t.name ∧ p'.partitionId = partition := by
    have hlater := Partition.later_appendContent ha
    have hnamed := named_of_partition? hp
    exact ⟨hlater.topicName.trans hnamed.1, hlater.partitionId.trans hnamed.2⟩
  have hnotify : p' = { p'.withoutNotify with notify := p.notify.notify } := by
    rw [← Partition.notify_appendContent ha]
    rfl
  unfold produce
  split
  · rename_i e he
    rw [hget] at he
    cases he
  · rename_i q hq
    obtain rfl : p = q := by simpa [hget] using hq
    split
    · rename_i hnone
      rw [ha] at hnone
      cases hnone
    · rename_i r' q' hsome
      obtain ⟨rfl, rfl⟩ : r = r' ∧ p' = q' := by simpa [ha] using hsome
      unfold storePartition
      split
      · rename_i q' hq'
        obtain rfl : p = q' := by simpa [hp] using hq'
        rw [dif_pos (show p'.withoutNotify.topicName = t.name ∧ p'.withoutNotify.partitionId = partition from hnames)]
        refine congrArg (Prod.mk _) (eq_of_fields rfl ?_ rfl)
        exact congrArg (t.partitions.set partition.toNat) hnotify
      · rename_i hnone
        rw [hp] at hnone
        cases hnone

/-- The other partitions stay as they are. -/
theorem partition?_storePartition_ne (t : Topic) {id id' : Int} (hne : id' ≠ id) (p : Partition) :
    (t.storePartition id p).partition? id' = t.partition? id' := by
  unfold storePartition
  split
  · rename_i q hq
    split
    · obtain ⟨n, rfl, -⟩ := partition?_eq_some_iff.1 hq
      unfold partition?
      split
      · rfl
      · exact List.getElem?_set_ne (by omega)
    · rfl
  · rfl

@[simp] theorem name_storePartition (t : Topic) (id : Int) (p : Partition) : (t.storePartition id p).name = t.name := by
  unfold storePartition
  split
  · split
    · rfl
    · rfl
  · rfl

end Topic

namespace InMemoryBackend

/-- The partition of the topic at an address. -/
def partitionAt (b : InMemoryBackend) (a : TopicRef) (id : Int) : Option Partition := (b.heap[a]?).bind (·.partition? id)

/-- The error of `get_partition` for a number without a partition. -/
def noPartition {α : Type} (a : TopicRef) (id : Int) (b : InMemoryBackend) : Outcome RmqError α :=
  match b.heap[a]? with
  | some t => .err (.partitionOutOfRange t.name id)
  | none => .panic

/-- What `topic_metadata` takes for a partition that is not there. -/
def orElse {α : Type} (a : TopicRef) (x : α) (b : InMemoryBackend) : Outcome RmqError α :=
  match b.heap[a]? with
  | some _ => .ok x
  | none => .panic

/-- The backend with the buffer of a partition overwritten. -/
def storePartition (b : InMemoryBackend) (a : TopicRef) (id : Int) (p : Partition) : InMemoryBackend :=
  match h : b.heap[a]? with
  | some t =>
    { b with
      heap := b.heap.set a (t.storePartition id p)
      bound := by
        intro name a' ha
        obtain ⟨u, hu, hn⟩ := b.bound name a' ha
        by_cases haa : a = a'
        · subst haa
          obtain ⟨hlt, -⟩ := List.getElem?_eq_some_iff.1 h
          rw [h] at hu
          obtain rfl := Option.some.inj hu
          exact ⟨_, List.getElem?_set_self hlt, (t.name_storePartition id p).trans hn⟩
        · exact ⟨u, by rw [List.getElem?_set_ne haa, hu], hn⟩ }
  | none => b

/-- The backend with a new topic bound to the name, whatever was bound to it before. -/
def bindTopic (b : InMemoryBackend) (topic : String) (numPartitions : Int) : InMemoryBackend :=
  { b with
    topics := b.topics.insert topic b.heap.length
    heap := b.heap ++ [Topic.new topic numPartitions b.makePartitionConfig]
    bound := b.bound_insert topic numPartitions }

theorem insertTopic_eq_bindTopic (b : InMemoryBackend) (topic : String) (n : Int) :
    b.insertTopic topic n = if (b.topics.lookup topic).isSome then b else b.bindTopic topic n := rfl

theorem partitionAt_bindTopic {b : InMemoryBackend} {a : TopicRef} {id : Int} {p : Partition}
    (h : b.partitionAt a id = some p) (topic : String) (n : Int) : (b.bindTopic topic n).partitionAt a id = some p := by
  obtain ⟨t, ht, hp⟩ := Option.bind_eq_some_iff.1 h
  obtain ⟨hlt, -⟩ := List.getElem?_eq_some_iff.1 ht
  show ((b.heap ++ [_])[a]?).bind _ = _
  rw [List.getElem?_append_left hlt, ht]
  exact hp

@[simp] theorem topics_storePartition (b : InMemoryBackend) (a : TopicRef) (id : Int) (p : Partition) :
    (b.storePartition a id p).topics = b.topics := by
  unfold storePartition
  split
  · rfl
  · rfl

@[simp] theorem shutdown_storePartition (b : InMemoryBackend) (a : TopicRef) (id : Int) (p : Partition) :
    (b.storePartition a id p).shutdown = b.shutdown := by
  unfold storePartition
  split
  · rfl
  · rfl

theorem partitionAt_storePartition_ne (b : InMemoryBackend) {a a' : TopicRef} {id id' : Int} (hne : a' = a → id' ≠ id)
    (p : Partition) : (b.storePartition a id p).partitionAt a' id' = b.partitionAt a' id' := by
  unfold storePartition
  split
  · rename_i t ht
    show ((b.heap.set a _)[a']?).bind _ = (b.heap[a']?).bind _
    by_cases haa : a = a'
    · subst haa
      obtain ⟨hlt, -⟩ := List.getElem?_eq_some_iff.1 ht
      rw [List.getElem?_set_self hlt, ht]
      exact t.partition?_storePartition_ne (hne rfl) p
    · rw [List.getElem?_set_ne haa]
  · rfl

/-! ### What the sections of a partition do in one step -/

section

variable {b : InMemoryBackend} {a : TopicRef} {id : Int}

theorem run_produceAt_of_none (h : b.partitionAt a id = none) (content : Content) (headers : Option OwnedHeaders)
    (timestamp : Option Int) (clock : Clock) :
    (produceAt a id content headers timestamp clock).run b = (noPartition a id b, b) := by
  unfold produceAt noPartition
  rw [Act.run_step]
  split
  · rename_i t ht
    have hp : t.partition? id = none := by rwa [partitionAt, ht] at h
    obtain ⟨p, -, -, hq, -⟩ | ⟨-, hproduce⟩ | ⟨p, hq, -⟩ := t.produce_cases id content headers timestamp clock
    · rw [hp] at hq
      cases hq
    · have hset := setTopic_eq_self ht (t.later_produce id content headers timestamp clock)
        (congrArg Prod.snd hproduce)
      rw [hset, hproduce]
      split
      · rename_i u hu
        obtain rfl : t = u := by simpa [ht] using hu
        rfl
      · rename_i hnone
        rw [ht] at hnone
        cases hnone
    · rw [hp] at hq
      cases hq
  · rename_i hnone
    rw [hnone]

theorem run_produceAt_of_overflow {p : Partition} {content : Content} {headers : Option OwnedHeaders}
    {timestamp : Option Int} {clock : Clock} (hp : b.partitionAt a id = some p)
    (ha : p.appendContent content headers timestamp clock = none) :
    (produceAt a id content headers timestamp clock).run b = (.panic, b) := by
  obtain ⟨t, ht, htp⟩ := Option.bind_eq_some_iff.1 hp
  unfold produceAt
  rw [Act.run_step]
  split
  · rename_i u hu
    obtain rfl : t = u := by simpa [ht] using hu
    obtain ⟨q, r, p', hq, hsome, -⟩ | ⟨hnone, -⟩ | ⟨q, -, -, hproduce⟩ :=
      t.produce_cases id content headers timestamp clock
    · obtain rfl : p = q := by simpa [htp] using hq
      rw [ha] at hsome
      cases hsome
    · rw [htp] at hnone
      cases hnone
    · have hset := setTopic_eq_self ht (t.later_produce id content headers timestamp clock)
        (congrArg Prod.snd hproduce)
      rw [hset, hproduce]
  · rfl

theorem run_produceAt_of_append {p p' : Partition} {content : Content} {headers : Option OwnedHeaders}
    {timestamp : Option Int} {clock : Clock} {r : Int × Int} (hp : b.partitionAt a id = some p)
    (ha : p.appendContent content headers timestamp clock = some (r, p')) :
    (produceAt a id content headers timestamp clock).run b = (.ok r, b.storePartition a id p'.withoutNotify) := by
  obtain ⟨t, ht, htp⟩ := Option.bind_eq_some_iff.1 hp
  have hproduce := Topic.produce_eq_storePartition htp ha
  unfold produceAt
  rw [Act.run_step]
  split
  · rename_i u hu
    obtain rfl : t = u := by simpa [ht] using hu
    rw [Prod.mk.injEq]
    refine ⟨congrArg Prod.fst hproduce, ?_⟩
    unfold storePartition
    split
    · rename_i v hv
      obtain rfl : t = v := by simpa [ht] using hv
      have hset := congrArg (fun r => b.heap.set a r.2) hproduce
      simp only [setTopic]
      simp only [hset]
    · rename_i hnone
      rw [ht] at hnone
      cases hnone
  · rename_i hnone
    rw [ht] at hnone
    cases hnone

/-- A read of a topic that only reads one of its partitions. -/
theorem readTopic_eq {α : Type} {g : Topic → Outcome RmqError α} {missing : InMemoryBackend → Outcome RmqError α}
    {h : Partition → Outcome RmqError α} (hnone : ∀ b : InMemoryBackend, b.heap[a]? = none → missing b = .panic)
    (hmissing : ∀ b t, b.heap[a]? = some t → t.partition? id = none → g t = missing b)
    (hsome : ∀ t p, t.partition? id = some p → g t = h p) :
    readTopic a g = .read fun b => (b.partitionAt a id).elim (missing b) h := by
  unfold readTopic
  congr 1
  funext b
  cases ht : b.heap[a]? with
  | none =>
    rw [partitionAt, ht, ← hnone b ht]
    rfl
  | some t =>
    cases hp : t.partition? id with
    | none =>
      rw [partitionAt, ht, Option.bind_some, hp]
      exact hmissing b t ht hp
    | some p =>
      rw [partitionAt, ht, Option.bind_some, hp]
      exact hsome t p hp

end

end InMemoryBackend

end RMemQueue
