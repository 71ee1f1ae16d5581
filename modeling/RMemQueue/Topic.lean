import RMemQueue.Partition
import RMemQueue.Lib.Act

/-!
# Topics (`topic.rs`)

A topic has a fixed number of partitions, numbered from `0`.  A `Topic` carries this as an invariant, so that
`get_partition` finds exactly the partitions `0, …, partition_count - 1`; `produce` replaces one partition by its
next state and leaves the others as they are.
-/

namespace RMemQueue

open Conc

/-- `Topic`; its own copy of the configuration is never read. -/
structure Topic where
  name : String
  partitions : List Partition
  partitionCount : Int
  length_eq : partitions.length = partitionCount.toNat
  named : ∀ (n : Nat) (p : Partition), partitions[n]? = some p → p.topicName = name ∧ p.partitionId = n

namespace Topic

def new (name : String) (numPartitions : Int) (config : PartitionConfig) : Topic where
  name := name
  partitions := (List.range numPartitions.toNat).map fun id : Nat => Partition.new name id config
  partitionCount := numPartitions
  length_eq := by simp
  named := by
    intro n p h
    obtain ⟨hn, rfl⟩ := List.getElem?_eq_some_iff.1 h
    simp [Partition.new]

def getPartition (t : Topic) (id : Int) : RmqResult Partition :=
  if h : id < 0 ∨ id.toNat ≥ t.partitions.length then .error (.partitionOutOfRange t.name id)
  else .ok (t.partitions.get ⟨id.toNat, by omega⟩)

/-- The partition with the given number, if there is one. -/
def partition? (t : Topic) (id : Int) : Option Partition := if id < 0 then none else t.partitions[id.toNat]?

theorem getPartition_eq (t : Topic) (id : Int) :
    t.getPartition id = (t.partition? id).elim (.error (.partitionOutOfRange t.name id)) .ok := by
  unfold getPartition partition?
  split
  · rename_i h
    split
    · rfl
    · rw [List.getElem?_eq_none (by omega)]; rfl
  · rename_i h
    rw [if_neg (by omega), List.getElem?_eq_getElem (by omega)]
    rfl

theorem partition?_eq_some_iff {t : Topic} {id : Int} {p : Partition} :
    t.partition? id = some p ↔ ∃ n : Nat, id = n ∧ t.partitions[n]? = some p := by
  unfold partition?
  split
  · simp only [reduceCtorEq, false_iff, not_exists, not_and]
    omega
  · constructor
    · exact fun h => ⟨id.toNat, by omega, h⟩
    · rintro ⟨n, rfl, h⟩
      exact h

theorem isSome_partition? (t : Topic) (id : Int) : (t.partition? id).isSome ↔ 0 ≤ id ∧ id < t.partitionCount := by
  rw [Option.isSome_iff_exists]
  simp only [partition?_eq_some_iff]
  have hlen := t.length_eq
  constructor
  · rintro ⟨p, n, rfl, h⟩
    obtain ⟨hlt, -⟩ := List.getElem?_eq_some_iff.1 h
    omega
  · rintro ⟨h0, h⟩
    exact ⟨_, id.toNat, by omega, List.getElem?_eq_getElem (by omega)⟩

theorem named_of_partition? {t : Topic} {id : Int} {p : Partition} (h : t.partition? id = some p) :
    p.topicName = t.name ∧ p.partitionId = id := by
  obtain ⟨n, rfl, hn⟩ := partition?_eq_some_iff.1 h
  exact t.named n p hn

theorem getElem?_of_getPartition {t : Topic} {id : Int} {p : Partition} (h : t.getPartition id = .ok p) :
    t.partitions[id.toNat]? = some p := by
  unfold getPartition at h
  split at h
  · cases h
  · obtain rfl := Except.ok.inj h
    exact List.getElem?_eq_getElem _

/-- The topic with its `n`-th partition replaced by a later state of it. -/
def setPartition (t : Topic) (n : Nat) (p p' : Partition) (h : t.partitions[n]? = some p) (hp : p.Later p') :
    Topic where
  name := t.name
  partitions := t.partitions.set n p'
  partitionCount := t.partitionCount
  length_eq := by rw [List.length_set, t.length_eq]
  named := by
    intro m q hq
    by_cases hm : n = m
    · subst hm
      obtain ⟨hlt, -⟩ := List.getElem?_eq_some_iff.1 h
      rw [List.getElem?_set_self hlt] at hq
      obtain rfl := Option.some.inj hq
      rw [hp.topicName, hp.partitionId]
      exact t.named n p h
    · rw [List.getElem?_set_ne hm] at hq
      exact t.named m q hq

/-- `produce` and `produce_typed`. -/
def produce (t : Topic) (partition : Int) (content : Content) (headers : Option OwnedHeaders)
    (timestamp : Option Int) (clock : Clock) : Outcome RmqError (Int × Int) × Topic :=
  match hp : t.getPartition partition with
  | .error e => (.err e, t)
  | .ok p =>
    match ha : p.appendContent content headers timestamp clock with
    | none => (.panic, t)
    | some (r, p') =>
      (.ok r, t.setPartition partition.toNat p p' (getElem?_of_getPartition hp) (Partition.later_appendContent ha))

def fetch (t : Topic) (partition offset : Int) (maxCount : Nat) : Outcome RmqError (List StoredMessage) :=
  match t.getPartition partition with
  | .error e => .err e
  | .ok p =>
    match p.read offset maxCount with
    | none => .panic
    | some (.ok msgs) => .ok msgs
    | some (.error e) => .err e

def fetchOne (t : Topic) (partition offset : Int) : RmqResult (Option StoredMessage) := do
  let p ← t.getPartition partition
  p.readOne offset

def watermarks (t : Topic) (partition : Int) : RmqResult (Int × Int) := do
  let p ← t.getPartition partition
  return p.watermarks

/-- Wake whoever waits for messages of the topic. -/
def notifyAll (t : Topic) : Topic where
  name := t.name
  partitions := t.partitions.map fun p => { p with notify := p.notify.notify }
  partitionCount := t.partitionCount
  length_eq := by rw [List.length_map, t.length_eq]
  named := by
    intro n p h
    rw [List.getElem?_map, Option.map_eq_some_iff] at h
    obtain ⟨q, hq, rfl⟩ := h
    exact t.named n q hq

/-! ### What a step of a topic does -/

variable {t t' : Topic}

@[simp] theorem partition?_new (name : String) (n : Int) (config : PartitionConfig) (id : Int) :
    (new name n config).partition? id = if 0 ≤ id ∧ id < n then some (.new name id config) else none := by
  by_cases h : 0 ≤ id ∧ id < n
  · rw [if_pos h, partition?_eq_some_iff]
    refine ⟨id.toNat, by omega, ?_⟩
    have hr : (List.range n.toNat)[id.toNat]? = some id.toNat := by
      rw [List.getElem?_range (by omega)]
    simp only [new, List.getElem?_map, hr, Option.map_some]
    rw [Int.toNat_of_nonneg h.1]
  · rw [if_neg h, ← Option.not_isSome_iff_eq_none, isSome_partition?]
    exact h

theorem partition?_setPartition (n : Nat) (p p' : Partition) (h : t.partitions[n]? = some p) (hp : p.Later p')
    (id : Int) : (t.setPartition n p p' h hp).partition? id = if id = n then some p' else t.partition? id := by
  obtain ⟨hlt, -⟩ := List.getElem?_eq_some_iff.1 h
  unfold partition? setPartition
  by_cases hid : id < 0
  · rw [if_pos hid, if_neg (by omega), if_pos hid]
  · rw [if_neg hid, if_neg hid]
    by_cases hn : id = n
    · subst hn
      rw [if_pos rfl, Int.toNat_natCast, List.getElem?_set_self hlt]
    · rw [if_neg hn, List.getElem?_set_ne (by omega)]

/-- `produce` appends to one partition, or fails and leaves the topic as it is. -/
theorem produce_cases (t : Topic) (partition : Int) (content : Content) (headers : Option OwnedHeaders)
    (timestamp : Option Int) (clock : Clock) :
    (∃ p r p', t.partition? partition = some p ∧ p.appendContent content headers timestamp clock = some (r, p') ∧
      (t.produce partition content headers timestamp clock).1 = .ok r ∧
      (t.produce partition content headers timestamp clock).2.name = t.name ∧
      (t.produce partition content headers timestamp clock).2.partitionCount = t.partitionCount ∧
      ∀ id, (t.produce partition content headers timestamp clock).2.partition? id =
        if id = partition then some p' else t.partition? id) ∨
    (t.partition? partition = none ∧
      t.produce partition content headers timestamp clock = (.err (.partitionOutOfRange t.name partition), t)) ∨
    (∃ p, t.partition? partition = some p ∧ p.appendContent content headers timestamp clock = none ∧
      t.produce partition content headers timestamp clock = (.panic, t)) := by
  have hg := t.getPartition_eq partition
  unfold produce
  split
  -- `get_partition` has failed
  · rename_i e he
    refine Or.inr (Or.inl ?_)
    cases hp : t.partition? partition with
    | none =>
      rw [hp, he] at hg
      rw [Except.error.inj hg]
      exact ⟨rfl, rfl⟩
    | some p =>
      rw [hp, he] at hg
      cases hg
  · rename_i p he
    have hp : t.partition? partition = some p := by
      cases hp : t.partition? partition with
      | none => rw [hp, he] at hg; cases hg
      | some q =>
        rw [hp, he] at hg
        rw [Except.ok.inj hg]
    split
    · rename_i ha
      exact Or.inr (Or.inr ⟨p, hp, ha, rfl⟩)
    · rename_i r p' ha
      refine Or.inl ⟨p, r, p', hp, ha, rfl, rfl, rfl, fun id => ?_⟩
      -- only the entry of the partition is written back
      obtain ⟨n, rfl, hn⟩ := partition?_eq_some_iff.1 hp
      exact partition?_setPartition n p p' hn (Partition.later_appendContent ha) id

@[simp] theorem partition?_notifyAll (t : Topic) (id : Int) :
    t.notifyAll.partition? id = (t.partition? id).map fun p => { p with notify := p.notify.notify } := by
  unfold partition? notifyAll
  split
  · rfl
  · exact List.getElem?_map ..

/-- `t'` is a later state of the topic `t`. -/
structure Later (t t' : Topic) : Prop where
  name : t'.name = t.name
  partitionCount : t'.partitionCount = t.partitionCount
  partition? : ∀ id p, t.partition? id = some p → ∃ p', t'.partition? id = some p' ∧ p.Later p'

theorem Later.refl (t : Topic) : t.Later t := ⟨rfl, rfl, fun _ p h => ⟨p, h, .refl p⟩⟩

theorem Later.trans {t₁ t₂ t₃ : Topic} (h₁ : t₁.Later t₂) (h₂ : t₂.Later t₃) : t₁.Later t₃ := by
  refine ⟨h₂.name.trans h₁.name, h₂.partitionCount.trans h₁.partitionCount, fun id p hp => ?_⟩
  obtain ⟨p', hp', hl⟩ := h₁.partition? id p hp
  obtain ⟨p'', hp'', hl'⟩ := h₂.partition? id p' hp'
  exact ⟨p'', hp'', hl.trans hl'⟩

theorem later_produce (t : Topic) (partition : Int) (content : Content) (headers : Option OwnedHeaders)
    (timestamp : Option Int) (clock : Clock) :
    t.Later (t.produce partition content headers timestamp clock).2 := by
  rcases t.produce_cases partition content headers timestamp clock with
    ⟨p, r, p', hp, ha, -, hn, hc, hq⟩ | ⟨-, h⟩ | ⟨p, -, -, h⟩
  · refine ⟨hn, hc, fun id q hid => ?_⟩
    rw [hq]
    by_cases h : id = partition
    · subst h
      rw [hp] at hid
      obtain rfl := Option.some.inj hid
      exact ⟨p', if_pos rfl, Partition.later_appendContent ha⟩
    · exact ⟨q, by rw [if_neg h, hid], .refl q⟩
  · rw [h]; exact .refl t
  · rw [h]; exact .refl t

theorem later_notifyAll (t : Topic) : t.Later t.notifyAll := by
  refine ⟨rfl, rfl, fun id p hp => ⟨{ p with notify := p.notify.notify }, ?_, rfl, rfl, le_refl _⟩⟩
  rw [partition?_notifyAll, hp]
  rfl

end Topic

end RMemQueue
