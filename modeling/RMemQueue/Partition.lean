import RMemQueue.Message
import RMemQueue.Lib.TrimmedLog

/-!
# Partitions (`partition.rs`)

The log of one partition: `append` numbers a message with `next_offset`, stores it at the back, removes the front one
when the buffer has reached its capacity and then runs the eviction policies on the front.  Positions in the buffer
are recovered from `next_offset` and the length.

`PartitionBuffer.Holds` is the invariant: the buffer is the tail of everything appended so far, numbered from `0`.  A
`Partition` carries it, so that every partition is a `TrimmedLog` (`Partition.abs`) and `append`, `evict`, `read_one`
and `watermarks` are read through it.
-/

namespace RMemQueue

/-- The clock readings of one produce call: the wall clock in milliseconds, the monotonic clock in nanoseconds when
the message is created, and its successive readings during the eviction pass. -/
structure Clock where
  wall : Int
  created : Nat
  evict : Nat → Nat

/-- The implementations of `EvictionPolicy` that a `PartitionConfig` builds. -/
inductive EvictionPolicy where
  | time (retentionMs : Nat)
  | capacity (retentionCapacity : Nat)
  deriving DecidableEq, Repr

/-- `Instant::elapsed` saturates at zero, and its milliseconds are cast to `u64`. -/
def EvictionPolicy.shouldEvict (policy : EvictionPolicy) (now bufferLen : Nat) (frontMsg : StoredMessage) : Bool :=
  match policy with
  | .time retentionMs => decide ((now - frontMsg.createdAt) / 1000000 % (u64Max + 1) > retentionMs)
  | .capacity retentionCapacity => decide (bufferLen > retentionCapacity)

structure PartitionConfig where
  maxCapacity : Nat
  retentionMs : Option Nat
  retentionCapacity : Option Nat
  deriving DecidableEq, Repr

def PartitionConfig.buildPolicies (c : PartitionConfig) : List EvictionPolicy :=
  (match c.retentionMs with
    | some retentionMs => [.time retentionMs]
    | none => []) ++
  (match c.retentionCapacity with
    | some retentionCapacity => [.capacity retentionCapacity]
    | none => [])

/-- The tasks registered with the asynchronous handle of a `PartitionNotify`, and its stored permit.  Its condition
variable has no state of its own. -/
structure PartitionNotify where
  waiters : List Nat
  permit : Bool
  deriving DecidableEq, Repr

def PartitionNotify.new : PartitionNotify := ⟨[], false⟩

/-- `notify_waiters` wakes the tasks registered now and stores no permit. -/
def PartitionNotify.notify (n : PartitionNotify) : PartitionNotify := { n with waiters := [] }

structure PartitionBuffer where
  log : List StoredMessage
  nextOffset : Int
  maxCapacity : Nat
  policies : List EvictionPolicy
  deriving DecidableEq, Repr

/-- The loop of `evict_buffer`; `clock i` is the clock reading of its `i`-th round. -/
def evictFront (policies : List EvictionPolicy) (clock : Nat → Nat) : Nat → List StoredMessage → List StoredMessage
  | _, [] => []
  | i, front :: rest =>
    if policies.any fun p => p.shouldEvict (clock i) (rest.length + 1) front then
      evictFront policies clock (i + 1) rest
    else front :: rest

namespace PartitionBuffer

def evictBuffer (b : PartitionBuffer) (clock : Nat → Nat) : PartitionBuffer :=
  { b with log := evictFront b.policies clock 0 b.log }

/-- The critical section that `append` and `append_typed` share; `none` is the overflow of `next_offset`. -/
def append (b : PartitionBuffer) (msg : Int → StoredMessage) (clock : Nat → Nat) : Option (Int × PartitionBuffer) :=
  let offset := b.nextOffset
  match i64Checked (b.nextOffset + 1) with
  | none => none
  | some nextOffset =>
    let log := b.log ++ [msg offset]
    let log := if b.maxCapacity > 0 ∧ log.length ≥ b.maxCapacity then log.drop 1 else log
    some (offset, ({ b with log, nextOffset } : PartitionBuffer).evictBuffer clock)

/-- The buffer is the tail of the messages appended so far, and these are numbered from `0`. -/
structure Holds (b : PartitionBuffer) (topic : String) (partition : Int) (appended : List StoredMessage) : Prop where
  next : b.nextOffset = appended.length
  log : b.log = appended.drop (appended.length - b.log.length)
  stamped : ∀ (n : Nat) (m : StoredMessage), appended[n]? = some m →
    m.offset = n ∧ m.topic = topic ∧ m.partition = partition
  bound : b.nextOffset ≤ i64Max

end PartitionBuffer

/-- A policy has the front message of a buffer of the given length removed. -/
def evicts (policies : List EvictionPolicy) (now bufferLen : Nat) (m : StoredMessage) : Bool :=
  policies.any fun p => p.shouldEvict now bufferLen m

/-- A pass removes the messages at the front that a policy has removed, each with the length of the buffer and the
clock reading of its round, up to the first one that no policy has removed. -/
theorem evictFront_spec (policies : List EvictionPolicy) (clock : Nat → Nat) (i : Nat) (l : List StoredMessage) :
    ∃ n, n ≤ l.length ∧ evictFront policies clock i l = l.drop n ∧
      (∀ j m, j < n → l[j]? = some m → evicts policies (clock (i + j)) (l.length - j) m = true) ∧
      ∀ m, l[n]? = some m → evicts policies (clock (i + n)) (l.length - n) m = false := by
  induction l generalizing i with
  | nil => exact ⟨0, le_refl _, rfl, by simp, by simp⟩
  | cons front rest ih =>
    unfold evictFront
    split
    · rename_i hev
      -- the front message goes, and what the rest loses counts from the next round on
      obtain ⟨n, hn, hdrop, hremoved, hkept⟩ := ih (i + 1)
      refine ⟨n + 1, by simpa using hn, hdrop, fun j m hj hm => ?_, fun m hm => ?_⟩
      · cases j with
        | zero =>
          cases hm
          exact hev
        | succ j =>
          rw [List.getElem?_cons_succ] at hm
          simpa only [Nat.add_right_comm, Nat.add_assoc, List.length_cons, Nat.add_sub_add_right] using
            hremoved j m (by omega) hm
      · rw [List.getElem?_cons_succ] at hm
        simpa only [Nat.add_right_comm, Nat.add_assoc, List.length_cons, Nat.add_sub_add_right] using hkept m hm
    · rename_i hev
      refine ⟨0, by omega, rfl, by simp, fun m hm => ?_⟩
      cases hm
      exact Bool.eq_false_iff.2 hev

private theorem evictFront_eq_drop (policies : List EvictionPolicy) (clock : Nat → Nat) (i : Nat)
    (l : List StoredMessage) : ∃ n, evictFront policies clock i l = l.drop n := by
  obtain ⟨n, -, h, -, -⟩ := evictFront_spec policies clock i l
  exact ⟨n, h⟩

namespace PartitionBuffer

variable {b b' : PartitionBuffer} {topic : String} {partition : Int} {appended : List StoredMessage}

theorem Holds.length_le (h : b.Holds topic partition appended) : b.log.length ≤ appended.length := by
  have := congrArg List.length h.log
  simp at this
  omega

/-- Removing messages at the front keeps the invariant. -/
private theorem Holds.drop (h : b.Holds topic partition appended) {n : Nat} (hl : b'.log = b.log.drop n)
    (hn : b'.nextOffset = b.nextOffset) : b'.Holds topic partition appended where
  next := hn.trans h.next
  log := by
    have hle := h.length_le
    rw [hl, List.length_drop]
    conv => lhs; rw [h.log]
    rw [List.drop_drop]
    rcases Nat.le_total n b.log.length with hn | hn
    · congr 1; omega
    · rw [List.drop_of_length_le (by omega), List.drop_of_length_le (by omega)]
  stamped := h.stamped
  bound := hn ▸ h.bound

/-- An append stores the message under the next offset, may remove the front one of a bounded buffer, and then runs a
pass. -/
theorem append_pass {msg : Int → StoredMessage} {clock : Nat → Nat} {offset : Int}
    (h : b.append msg clock = some (offset, b')) :
    offset = b.nextOffset ∧ b.nextOffset + 1 ≤ i64Max ∧ ∃ d, d ≤ 1 ∧ (b.maxCapacity = 0 → d = 0) ∧
      b' = ({ b with log := (b.log ++ [msg offset]).drop d, nextOffset := b.nextOffset + 1 } :
        PartitionBuffer).evictBuffer clock := by
  unfold append at h
  split at h
  · cases h
  · rename_i next hnext
    obtain ⟨rfl, -, hmax⟩ := i64Checked_eq_some.1 hnext
    simp only [Option.some.injEq, Prod.mk.injEq] at h
    obtain ⟨rfl, rfl⟩ := h
    refine ⟨rfl, hmax, ?_⟩
    split
    · rename_i hfull
      exact ⟨1, le_refl 1, fun h0 => absurd hfull.1 (by omega), rfl⟩
    · exact ⟨0, Nat.zero_le 1, fun _ => rfl, rfl⟩

/-- An append stores the message under the next offset and then removes some messages at the front. -/
theorem append_eq_some {msg : Int → StoredMessage} {clock : Nat → Nat} {offset : Int}
    (h : b.append msg clock = some (offset, b')) :
    offset = b.nextOffset ∧ b'.nextOffset = b.nextOffset + 1 ∧ b.nextOffset + 1 ≤ i64Max ∧
      ∃ n, b'.log = (b.log ++ [msg offset]).drop n := by
  obtain ⟨rfl, hmax, d, -, -, rfl⟩ := append_pass h
  obtain ⟨n, hn⟩ := evictFront_eq_drop b.policies clock 0 ((b.log ++ [msg b.nextOffset]).drop d)
  exact ⟨rfl, rfl, hmax, d + n, hn.trans List.drop_drop⟩

theorem Holds.append (h : b.Holds topic partition appended) {msg : Int → StoredMessage} {clock : Nat → Nat}
    {offset : Int} (ha : b.append msg clock = some (offset, b'))
    (hm : ∀ o, (msg o).offset = o ∧ (msg o).topic = topic ∧ (msg o).partition = partition) :
    b'.Holds topic partition (appended ++ [msg offset]) := by
  obtain ⟨rfl, hnext, hmax, n, hlog⟩ := append_eq_some ha
  have hpushed : ({ b with log := b.log ++ [msg b.nextOffset], nextOffset := b.nextOffset + 1 } :
      PartitionBuffer).Holds topic partition (appended ++ [msg b.nextOffset]) := by
    have hle := h.length_le
    refine ⟨by simp [h.next], ?_, ?_, hmax⟩
    · show b.log ++ [msg b.nextOffset] = _
      rw [List.length_append, List.length_append, Nat.add_sub_add_right,
        List.drop_append_of_le_length (by omega), ← h.log]
    · intro i m hi
      rcases Nat.lt_trichotomy i appended.length with hlt | rfl | hgt
      · rw [List.getElem?_append_left hlt] at hi
        exact h.stamped i m hi
      · rw [List.getElem?_concat_length] at hi
        obtain rfl := Option.some.inj hi
        rw [← h.next]
        exact hm _
      · rw [List.getElem?_eq_none (by simp; omega)] at hi
        cases hi
  exact hpushed.drop hlog hnext

theorem Holds.evictBuffer (h : b.Holds topic partition appended) (clock : Nat → Nat) :
    (b.evictBuffer clock).Holds topic partition appended := by
  obtain ⟨n, hn⟩ := evictFront_eq_drop b.policies clock 0 b.log
  exact h.drop hn rfl

end PartitionBuffer

/-- `Partition`.  `appended` lists every message appended so far, oldest first: a history variable that only the
invariant reads. -/
structure Partition where
  topicName : String
  partitionId : Int
  buffer : PartitionBuffer
  notify : PartitionNotify
  appended : List StoredMessage
  holds : buffer.Holds topicName partitionId appended

namespace Partition

def new (topicName : String) (partitionId : Int) (config : PartitionConfig) : Partition where
  topicName := topicName
  partitionId := partitionId
  buffer := { log := [], nextOffset := 0, maxCapacity := config.maxCapacity, policies := config.buildPolicies }
  notify := .new
  appended := []
  holds := ⟨rfl, rfl, by simp, by simp [i64Max]⟩

/-- The message that an append creates under an offset. -/
def message (p : Partition) (content : Content) (headers : Option OwnedHeaders) (timestamp : Option Int)
    (clock : Clock) (offset : Int) : StoredMessage :=
  content.message p.topicName p.partitionId offset (timestamp.getD clock.wall) headers clock.created

/-- `append` and `append_typed`, which differ in the message they create only; `none` is a panic. -/
def appendContent (p : Partition) (content : Content) (headers : Option OwnedHeaders) (timestamp : Option Int)
    (clock : Clock) : Option ((Int × Int) × Partition) :=
  match h : p.buffer.append (p.message content headers timestamp clock) clock.evict with
  | none => none
  | some (offset, buffer) =>
    some ((p.partitionId, offset),
      { p with
        buffer
        notify := p.notify.notify
        appended := p.appended ++ [p.message content headers timestamp clock offset]
        holds := p.holds.append h fun o => by simp [message] })

def append (p : Partition) (key payload : Option Bytes) (headers : Option OwnedHeaders) (timestamp : Option Int)
    (clock : Clock) : Option ((Int × Int) × Partition) :=
  p.appendContent (.raw key payload) headers timestamp clock

def appendTyped (p : Partition) (typedPayload : AnyArc) (typedKey : Option AnyArc) (headers : Option OwnedHeaders)
    (timestamp : Option Int) (clock : Clock) : Option ((Int × Int) × Partition) :=
  p.appendContent (.typed typedPayload typedKey) headers timestamp clock

def evict (p : Partition) (clock : Nat → Nat) : Partition :=
  { p with buffer := p.buffer.evictBuffer clock, holds := p.holds.evictBuffer clock }

def outOfRange (p : Partition) (offset : Int) : RmqError :=
  .offsetOutOfRange p.topicName p.partitionId offset

def readOne (p : Partition) (offset : Int) : RmqResult (Option StoredMessage) :=
  let buf := p.buffer
  if buf.log.isEmpty then
    if offset = 0 ∨ offset = buf.nextOffset then .ok none
    else .error (p.outOfRange offset)
  else
    let oldest := buf.nextOffset - buf.log.length
    if hr : offset < oldest ∨ offset > buf.nextOffset then .error (p.outOfRange offset)
    else if hn : offset = buf.nextOffset then .ok none
    else .ok (some (buf.log.get ⟨(offset - oldest).toNat, by omega⟩))

/-- `read_one` with its `i64` differences checked; `none` is a panic. -/
def readOneChecked (p : Partition) (offset : Int) : Option (RmqResult (Option StoredMessage)) :=
  let buf := p.buffer
  if buf.log.isEmpty then
    if offset = 0 ∨ offset = buf.nextOffset then some (.ok none)
    else some (.error (p.outOfRange offset))
  else
    match i64Checked (buf.nextOffset - buf.log.length) with
    | none => none
    | some oldest =>
      if offset < oldest ∨ offset > buf.nextOffset then some (.error (p.outOfRange offset))
      else if offset = buf.nextOffset then some (.ok none)
      else
        match i64Checked (offset - oldest) with
        | none => none
        | some idx => buf.log[idx.toNat]?.map fun m => .ok (some m)

/-- `VecDeque::range`, which panics when its bounds are not in order or lie outside. -/
def range (log : List StoredMessage) (start stop : Nat) : Option (List StoredMessage) :=
  if start ≤ stop ∧ stop ≤ log.length then some ((log.take stop).drop start) else none

/-- `none` is a panic.  The sum `start + max_count` is taken before the minimum; where it overflows, a release build
wraps it around to less than `start`, which is a panic of `range`. -/
def read (p : Partition) (offset : Int) (maxCount : Nat) : Option (RmqResult (List StoredMessage)) :=
  let buf := p.buffer
  if buf.log.isEmpty then
    if offset = 0 ∨ offset = buf.nextOffset then some (.ok [])
    else some (.error (p.outOfRange offset))
  else
    let oldest := buf.nextOffset - buf.log.length
    if offset < oldest ∨ offset > buf.nextOffset then some (.error (p.outOfRange offset))
    else if offset = buf.nextOffset then some (.ok [])
    else
      let start := (offset - oldest).toNat
      match usizeChecked (start + maxCount) with
      | none => none
      | some sum => (range buf.log start (min sum buf.log.length)).map .ok

def watermarks (p : Partition) : Int × Int :=
  let newest := p.buffer.nextOffset - 1
  let oldest := if p.buffer.log.isEmpty then 0 else p.buffer.nextOffset - p.buffer.log.length
  (oldest, newest)

def messageCount (p : Partition) : Int := p.buffer.log.length

/-! ### A partition as a trimmed log -/

/-- The log of the partition, with the messages it has evicted. -/
def abs (p : Partition) : TrimmedLog StoredMessage :=
  ⟨p.appended, p.appended.length - p.buffer.log.length, by omega⟩

variable (p : Partition)

theorem abs_retained : p.abs.retained = p.buffer.log := p.holds.log.symm

theorem abs_next : (p.abs.next : Int) = p.buffer.nextOffset := p.holds.next.symm

theorem abs_dropped : (p.abs.dropped : Int) = p.buffer.nextOffset - p.buffer.log.length := by
  have := p.holds.length_le
  simp only [abs, p.holds.next]
  omega

theorem next_le_i64Max : (p.abs.next : Int) ≤ i64Max := p.abs_next ▸ p.holds.bound

/-- The message appended as the `n`-th one carries the offset `n` and the names of the partition. -/
theorem stamped {n : Nat} {m : StoredMessage} (h : p.abs.history[n]? = some m) :
    m.offset = n ∧ m.topic = p.topicName ∧ m.partition = p.partitionId :=
  p.holds.stamped n m h

theorem stamped_of_get? {n : Nat} {m : StoredMessage} (h : p.abs.get? n = some m) :
    m.offset = n ∧ m.topic = p.topicName ∧ m.partition = p.partitionId := by
  apply p.stamped (n := n)
  rcases Nat.lt_or_ge n p.abs.dropped with hn | hn
  · rw [TrimmedLog.get?_of_lt_dropped hn] at h; cases h
  · rwa [TrimmedLog.get?_of_dropped_le hn] at h

@[simp] theorem abs_new (topic : String) (id : Int) (config : PartitionConfig) :
    (new topic id config).abs = .empty := rfl

/-- `append` pushes the message on the log and then evicts from the front. -/
theorem appendContent_eq_some {p p' : Partition} {c : Content} {headers : Option OwnedHeaders}
    {timestamp : Option Int} {clock : Clock} {r : Int × Int}
    (h : p.appendContent c headers timestamp clock = some (r, p')) :
    r = (p.partitionId, (p.abs.next : Int)) ∧ p'.topicName = p.topicName ∧ p'.partitionId = p.partitionId ∧
      ∃ n, p'.abs = (p.abs.push (p.message c headers timestamp clock p.abs.next)).trim n := by
  unfold appendContent at h
  split at h
  · cases h
  · rename_i offset buffer ha
    simp only [Option.some.injEq, Prod.mk.injEq] at h
    obtain ⟨rfl, rfl⟩ := h
    obtain ⟨rfl, -, -, n, hlog⟩ := PartitionBuffer.append_eq_some ha
    refine ⟨by rw [p.abs_next], rfl, rfl, n, ?_⟩
    have hle := p.holds.length_le
    rw [p.abs_next]
    ext1
    · rfl
    · simp only [abs, TrimmedLog.trim, TrimmedLog.push, hlog, List.length_drop, List.length_append,
        List.length_singleton]
      omega

/-- The only panic of an append is the overflow of `next_offset`. -/
theorem appendContent_eq_none {p : Partition} {c : Content} {headers : Option OwnedHeaders}
    {timestamp : Option Int} {clock : Clock} :
    p.appendContent c headers timestamp clock = none ↔ i64Max ≤ (p.abs.next : Int) := by
  have h0 : (0 : Int) ≤ p.abs.next := Int.natCast_nonneg _
  rw [p.abs_next] at h0 ⊢
  unfold appendContent
  split
  · rename_i h
    simp only [PartitionBuffer.append] at h
    split at h
    · rename_i hc
      rw [i64Checked_eq_none] at hc
      simp only [i64Min, i64Max] at hc ⊢
      simp only [true_iff]
      omega
    · cases h
  · rename_i h
    obtain ⟨-, -, hmax, -⟩ := PartitionBuffer.append_eq_some h
    simp only [reduceCtorEq, false_iff]
    omega

private theorem isEmpty_log : p.buffer.log.isEmpty = true ↔ p.abs.retained = [] := by
  rw [abs_retained, List.isEmpty_iff]

theorem watermarks_eq :
    p.watermarks = (if p.abs.retained = [] then 0 else (p.abs.dropped : Int), (p.abs.next : Int) - 1) := by
  simp only [watermarks, isEmpty_log, abs_next, abs_dropped]

/-- No difference of `read_one` overflows, and its index is in the log. -/
theorem readOneChecked_eq (o : Int) : p.readOneChecked o = some (p.readOne o) := by
  have hmax := p.holds.bound
  have hle := p.holds.length_le
  have hnext := p.holds.next
  have h0 : (0 : Int) ≤ p.buffer.nextOffset - p.buffer.log.length := by omega
  have hchecked : ∀ n : Int, 0 ≤ n → n ≤ p.buffer.nextOffset → i64Checked n = some n := by
    intro n hn hn'
    refine i64Checked_eq_some.2 ⟨rfl, ?_, by omega⟩
    simp only [i64Min]
    omega
  unfold readOneChecked readOne
  dsimp only
  rw [hchecked _ h0 (by omega)]
  dsimp only
  split
  · split <;> rfl
  · split
    · rfl
    · split
      · rfl
      · rw [hchecked _ (by omega) (by omega)]
        dsimp only
        rw [List.getElem?_eq_getElem (by omega)]
        rfl

/-- `read_one` decides among a message, the end of the log and an offset out of range. -/
theorem readOne_cases (o : Int) :
    (∃ n : Nat, ∃ m, o = n ∧ p.abs.get? n = some m ∧ p.readOne o = .ok (some m)) ∨
    ((o = p.abs.next ∨ (o = 0 ∧ p.abs.retained = [])) ∧ p.readOne o = .ok none) ∨
    ((o < p.abs.dropped ∨ p.abs.next < o) ∧ (p.abs.retained = [] → o ≠ 0) ∧
      p.readOne o = .error (p.outOfRange o)) := by
  have hd := p.abs_dropped
  have hn := p.abs_next
  unfold readOne
  by_cases he : p.buffer.log.isEmpty = true
  -- an empty log accepts the offset `0` besides its end
  · have hr := (p.isEmpty_log).1 he
    have hdn := (p.abs.retained_eq_nil_iff).1 hr
    simp only [he, ↓reduceIte]
    split
    · rename_i h
      exact Or.inr (Or.inl ⟨by rcases h with h | h <;> simp [h, hr, hn], rfl⟩)
    · rename_i h
      exact Or.inr (Or.inr ⟨by omega, fun _ h0 => h (Or.inl h0), rfl⟩)
  · have hr : p.abs.retained ≠ [] := fun h => he ((p.isEmpty_log).2 h)
    simp only [he, Bool.false_eq_true, ↓reduceIte]
    split
    · exact Or.inr (Or.inr ⟨by omega, fun h => absurd h hr, rfl⟩)
    · split
      · exact Or.inr (Or.inl ⟨Or.inl (by omega), rfl⟩)
      · refine Or.inl ⟨o.toNat, _, by omega, ?_, rfl⟩
        have ho : o.toNat = p.abs.dropped + (o - (p.buffer.nextOffset - p.buffer.log.length)).toNat := by omega
        rw [ho, TrimmedLog.get?_add, abs_retained]
        exact List.getElem?_eq_getElem _

theorem readOne_eq_some_iff {o : Int} {m : StoredMessage} :
    p.readOne o = .ok (some m) ↔ ∃ n : Nat, o = n ∧ p.abs.get? n = some m := by
  rcases p.readOne_cases o with ⟨n, m', rfl, hg, hr⟩ | ⟨ho, hr⟩ | ⟨ho, -, hr⟩
  · rw [hr]
    constructor
    · intro h
      obtain rfl : m' = m := by simpa using h
      exact ⟨n, rfl, hg⟩
    · rintro ⟨k, hk, hg'⟩
      obtain rfl : n = k := by omega
      rw [hg] at hg'
      rw [Option.some.inj hg']
  · rw [hr]
    simp only [reduceCtorEq, Except.ok.injEq, false_iff, not_exists, not_and]
    rintro k rfl hg
    have hbounds := TrimmedLog.bounds_of_get? hg
    rcases ho with ho | ⟨ho, hnil⟩
    · omega
    · have := (p.abs.retained_eq_nil_iff).1 hnil
      omega
  · rw [hr]
    simp only [reduceCtorEq, false_iff, not_exists, not_and]
    rintro k rfl hg
    have hbounds := TrimmedLog.bounds_of_get? hg
    omega

theorem readOne_eq_none_iff {o : Int} :
    p.readOne o = .ok none ↔ o = p.abs.next ∨ (o = 0 ∧ p.abs.retained = []) := by
  rcases p.readOne_cases o with ⟨n, m', rfl, hg, hr⟩ | ⟨ho, hr⟩ | ⟨ho, h0, hr⟩
  · have hbounds := TrimmedLog.bounds_of_get? hg
    simp only [hr, Except.ok.injEq, reduceCtorEq, false_iff]
    rintro (h | ⟨h, hnil⟩)
    · omega
    · have := (p.abs.retained_eq_nil_iff).1 hnil
      omega
  · simp [hr, ho]
  · have := p.abs.dropped_le_next
    simp only [hr, reduceCtorEq, false_iff]
    rintro (rfl | ⟨rfl, hn⟩)
    · omega
    · exact h0 hn rfl

theorem readOne_eq_error_iff {o : Int} {e : RmqError} :
    p.readOne o = .error e ↔ e = p.outOfRange o ∧ (o < p.abs.dropped ∨ p.abs.next < o) ∧
      ¬(o = 0 ∧ p.abs.retained = []) := by
  have hd := p.abs.dropped_le_next
  rcases p.readOne_cases o with ⟨n, m', rfl, hg, hr⟩ | ⟨ho, hr⟩ | ⟨ho, h0, hr⟩
  · have hbounds := TrimmedLog.bounds_of_get? hg
    simp only [hr, reduceCtorEq, false_iff]
    omega
  · simp only [hr, reduceCtorEq, false_iff]
    rintro ⟨-, h, hn⟩
    rcases ho with ho | ho
    · omega
    · exact hn ho
  · simp only [hr, Except.error.injEq, ho, true_and]
    exact ⟨fun h => ⟨h.symm, fun ⟨h0', hn⟩ => h0 hn h0'⟩, fun h => h.1.symm⟩

/-- A retained message is read at its own offset. -/
theorem mem_log_iff {m : StoredMessage} {o : Int} :
    m ∈ p.buffer.log ∧ m.offset = o ↔ ∃ n : Nat, o = n ∧ p.abs.get? n = some m := by
  constructor
  · rintro ⟨hm, rfl⟩
    obtain ⟨i, hi⟩ := List.mem_iff_getElem?.1 hm
    have hg : p.abs.get? (p.abs.dropped + i) = some m := by rw [TrimmedLog.get?_add, abs_retained, hi]
    exact ⟨_, (p.stamped_of_get? hg).1, hg⟩
  · rintro ⟨n, rfl, hg⟩
    exact ⟨p.abs_retained ▸ TrimmedLog.mem_retained_of_get? hg, (p.stamped_of_get? hg).1⟩

/-- Reading at the `j`-th retained offset. -/
theorem readOne_dropped_add {j : Nat} (hj : j ≤ p.buffer.log.length) :
    p.readOne (p.abs.dropped + j) = .ok p.buffer.log[j]? := by
  have hd := p.abs_dropped
  have hn := p.abs_next
  rw [← p.abs_retained, ← p.abs.get?_add]
  cases hg : p.abs.get? (p.abs.dropped + j) with
  | some m => exact p.readOne_eq_some_iff.2 ⟨_, by omega, hg⟩
  | none =>
    refine p.readOne_eq_none_iff.2 (Or.inl ?_)
    rw [TrimmedLog.get?_eq_none_iff] at hg
    omega

/-- The log holds consecutive offsets up to `next_offset - 1`. -/
theorem offsets_eq : p.buffer.log.map (·.offset) =
    (List.range p.buffer.log.length).map fun i : Nat => p.buffer.nextOffset - p.buffer.log.length + i := by
  refine List.ext_getElem (by simp) fun i h _ => ?_
  rw [List.getElem_map, List.getElem_map, List.getElem_range]
  rw [List.length_map] at h
  have hg : p.abs.get? (p.abs.dropped + i) = some p.buffer.log[i] := by
    rw [TrimmedLog.get?_add, abs_retained, List.getElem?_eq_getElem h]
  have hd := p.abs_dropped
  have := (p.stamped_of_get? hg).1
  omega

/-! ### Later states of a partition -/

/-- `p'` is a later state of the partition `p`. -/
structure Later (p p' : Partition) : Prop where
  topicName : p'.topicName = p.topicName
  partitionId : p'.partitionId = p.partitionId
  abs : p.abs ≤ p'.abs

theorem Later.refl (p : Partition) : p.Later p := ⟨rfl, rfl, le_refl _⟩

theorem Later.trans {p₁ p₂ p₃ : Partition} (h₁ : p₁.Later p₂) (h₂ : p₂.Later p₃) : p₁.Later p₃ :=
  ⟨h₂.topicName.trans h₁.topicName, h₂.partitionId.trans h₁.partitionId, h₁.abs.trans h₂.abs⟩

theorem later_appendContent {p p' : Partition} {c : Content} {headers : Option OwnedHeaders}
    {timestamp : Option Int} {clock : Clock} {r : Int × Int}
    (h : p.appendContent c headers timestamp clock = some (r, p')) : p.Later p' := by
  obtain ⟨-, ht, hi, n, habs⟩ := appendContent_eq_some h
  exact ⟨ht, hi, habs ▸ (TrimmedLog.le_push ..).trans (TrimmedLog.le_trim ..)⟩

end Partition

end RMemQueue
