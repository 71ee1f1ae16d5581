import RMemQueue.Partition

/-!
# Runs of a partition (`partition.rs`)

What is in the log of a partition after any number of appends.

* `capacity_exact`: with a capacity `c` and without retention, the log holds the last `min N c` of `N` messages as long
  as `N < c`, and one message less than that from then on.
* `watermarks_exact`: the watermarks delimit the messages that can be read unless the log has become empty.
-/

namespace RMemQueue

/-- The arguments of an `append` or `append_typed` call. -/
structure AppendCall where
  content : Content
  headers : Option OwnedHeaders
  timestamp : Option Int
  clock : Clock

namespace AppendCall

/-- The message that the call stores as the `n`-th one of a partition. -/
def message (c : AppendCall) (topic : String) (partition : Int) (n : Nat) : StoredMessage :=
  c.content.message topic partition n (c.timestamp.getD c.clock.wall) c.headers c.clock.created

end AppendCall

/-- The messages that a new partition is given by its appends, oldest first. -/
def messagesOf (topic : String) (partition : Int) (calls : List AppendCall) : List StoredMessage :=
  calls.mapIdx fun n c => c.message topic partition n

namespace Partition

def appendCall (p : Partition) (c : AppendCall) : Option Partition :=
  (p.appendContent c.content c.headers c.timestamp c.clock).map (·.2)

/-- Appends in a row; `none` is a panic. -/
def appendAll (p : Partition) (calls : List AppendCall) : Option Partition := calls.foldlM appendCall p

theorem appendAll_concat (p : Partition) (calls : List AppendCall) (c : AppendCall) :
    p.appendAll (calls ++ [c]) = (p.appendAll calls).bind fun q => q.appendCall c := by
  simp only [appendAll, List.foldlM_append, List.foldlM_cons, List.foldlM_nil]
  cases List.foldlM appendCall p calls <;> simp

/-- A partition of the configuration that has been given the messages of the calls. -/
structure Given (config : PartitionConfig) (topic : String) (id : Int) (calls : List AppendCall) (p : Partition) :
    Prop where
  policies : p.buffer.policies = config.buildPolicies
  maxCapacity : p.buffer.maxCapacity = config.maxCapacity
  topicName : p.topicName = topic
  partitionId : p.partitionId = id
  appended : p.appended = messagesOf topic id calls

variable {config : PartitionConfig} {topic : String} {id : Int} {calls : List AppendCall} {p p' : Partition}

theorem Given.length_appended (h : Given config topic id calls p) : p.appended.length = calls.length := by
  rw [h.appended, messagesOf, List.length_mapIdx]

theorem Given.appendCall (h : Given config topic id calls p) {call : AppendCall}
    (hcall : p.appendCall call = some p') : Given config topic id (calls ++ [call]) p' := by
  obtain ⟨⟨r, q⟩, ha, rfl⟩ := Option.map_eq_some_iff.1 hcall
  have hn : p.buffer.nextOffset = (calls.length : Int) := by rw [p.holds.next, h.length_appended]
  unfold appendContent at ha
  split at ha
  · cases ha
  · rename_i offset buffer hbuf
    simp only [Option.some.injEq, Prod.mk.injEq] at ha
    obtain ⟨-, rfl⟩ := ha
    obtain ⟨rfl, -, d, -, -, rfl⟩ := PartitionBuffer.append_pass hbuf
    refine ⟨h.policies, h.maxCapacity, h.topicName, h.partitionId, ?_⟩
    simp only [messagesOf, List.mapIdx_concat, h.appended, Partition.message, AppendCall.message, hn, h.topicName,
      h.partitionId]

/-- The next append panics only when the offsets are used up. -/
theorem Given.appendCall_eq_none (h : Given config topic id calls p) {call : AppendCall}
    (hcall : p.appendCall call = none) : i64Max ≤ calls.length := by
  rw [Partition.appendCall, Option.map_eq_none_iff, appendContent_eq_none] at hcall
  have hlen := h.length_appended
  simp only [Partition.abs, TrimmedLog.next] at hcall
  omega

theorem given_appendAll (calls : List AppendCall) :
    ∀ p, (new topic id config).appendAll calls = some p → Given config topic id calls p := by
  induction calls using List.reverseRecOn with
  | nil =>
    intro p h
    cases h
    exact ⟨rfl, rfl, rfl, rfl, rfl⟩
  | append_singleton calls call ih =>
    intro p h
    rw [appendAll_concat, Option.bind_eq_some_iff] at h
    obtain ⟨q, hq, hcall⟩ := h
    exact (ih q hq).appendCall hcall

/-- The appends only panic when there are too many of them. -/
theorem appendAll_eq_none (h : (new topic id config).appendAll calls = none) : i64Max < calls.length := by
  induction calls using List.reverseRecOn with
  | nil => cases h
  | append_singleton calls call ih =>
    rw [List.length_append, List.length_singleton]
    rw [appendAll_concat] at h
    cases hq : (new topic id config).appendAll calls with
    | none =>
      have := ih hq
      omega
    | some q =>
      rw [hq, Option.bind_some] at h
      have := (given_appendAll calls q hq).appendCall_eq_none h
      omega

/-! ### Capacity -/

/-- What an append does to the log when there is no retention limit. -/
private theorem append_of_unlimited {b b' : PartitionBuffer} {msg : Int → StoredMessage} {clock : Nat → Nat} {offset : Int}
    (hb : b.policies = []) (h : b.append msg clock = some (offset, b')) :
    b'.log.length = if 0 < b.maxCapacity ∧ b.maxCapacity ≤ b.log.length + 1 then b.log.length else b.log.length + 1 := by
  unfold PartitionBuffer.append at h
  split at h
  · cases h
  · simp only [Option.some.injEq, Prod.mk.injEq] at h
    obtain ⟨-, rfl⟩ := h
    have hevict : ∀ l : List StoredMessage, evictFront [] clock 0 l = l := by
      intro l
      cases l <;> simp [evictFront]
    simp only [PartitionBuffer.evictBuffer, hb, hevict, gt_iff_lt, ge_iff_le, List.length_append,
      List.length_singleton]
    split <;> simp

/-- The run lemma: what is left of a partition of capacity `c` without retention after its appends. -/
private theorem length_appendAll {c : Nat} (hc : 0 < c) (calls : List AppendCall) :
    ∀ p, (new topic id ⟨c, none, none⟩).appendAll calls = some p → p.buffer.log.length = min calls.length (c - 1) := by
  induction calls using List.reverseRecOn with
  | nil =>
    intro p h
    cases h
    simp [new]
  | append_singleton calls call ih =>
    intro p h
    rw [appendAll_concat, Option.bind_eq_some_iff] at h
    obtain ⟨q, hq, hcall⟩ := h
    have hgiven := given_appendAll calls q hq
    have hlen := ih q hq
    obtain ⟨⟨r, p'⟩, ha, rfl⟩ := Option.map_eq_some_iff.1 hcall
    unfold appendContent at ha
    split at ha
    · cases ha
    · rename_i offset buffer hbuf
      simp only [Option.some.injEq, Prod.mk.injEq] at ha
      obtain ⟨-, rfl⟩ := ha
      rw [List.length_append, List.length_singleton, append_of_unlimited hgiven.policies hbuf, hgiven.maxCapacity, hlen]
      dsimp only
      split <;> omega

/-- The log holds the last `min N c` of the `N` messages, and the last one can be read. -/
def KeepsLast (p : Partition) (c : Nat) (messages : List StoredMessage) : Prop :=
  p.buffer.log = messages.drop (messages.length - min messages.length c) ∧
    ∀ m, messages.getLast? = some m → p.readOne (messages.length - 1) = .ok (some m)

end Partition

open RMemQueue.Partition

/-- A partition of capacity `c` keeps the last `min N c` of `N` messages if and only if `N < c`; in any case it keeps
the last `min N (c - 1)`.  The appends only panic when there are more of them than offsets. -/
theorem capacity_exact {c : Nat} (hc : 0 < c) (topic : String) (id : Int) (calls : List AppendCall) :
    (∃ p, (Partition.new topic id ⟨c, none, none⟩).appendAll calls = some p ∧
      p.buffer.log = (messagesOf topic id calls).drop (calls.length - min calls.length (c - 1)) ∧
      (p.KeepsLast c (messagesOf topic id calls) ↔ calls.length < c)) ∨
    ((Partition.new topic id ⟨c, none, none⟩).appendAll calls = none ∧ i64Max < calls.length) := by
  cases hp : (Partition.new topic id ⟨c, none, none⟩).appendAll calls with
  | none => exact Or.inr ⟨rfl, appendAll_eq_none hp⟩
  | some p =>
    have hlen : (messagesOf topic id calls).length = calls.length := by simp [messagesOf]
    have h := given_appendAll calls p hp
    have hlength := length_appendAll hc calls p hp
    have hlog : p.buffer.log = (messagesOf topic id calls).drop (calls.length - min calls.length (c - 1)) := by
      have := p.holds.log
      rwa [hlength, h.appended, hlen] at this
    refine Or.inl ⟨p, rfl, hlog, fun hk => ?_, fun hlt => ⟨?_, fun m hm => ?_⟩⟩
    -- with `c` appends or more the log is one message short
    · have := congrArg List.length hk.1
      simp only [hlength, List.length_drop, hlen] at this
      omega
    · rw [hlog, hlen]
      congr 1
      omega
    · rw [p.readOne_eq_some_iff]
      have hpos : calls ≠ [] := by
        rintro rfl
        cases hm
      have hpos' := List.length_pos_iff.2 hpos
      refine ⟨calls.length - 1, by omega, ?_⟩
      rw [TrimmedLog.get?_of_dropped_le (by simp only [Partition.abs, h.appended, hlength, hlen]; omega)]
      rw [List.getLast?_eq_getElem?, hlen] at hm
      simpa only [Partition.abs, h.appended] using hm

/-- An append of a payload of one byte. -/
def appendByte : AppendCall := ⟨.raw none (some [1]), none, none, ⟨7, 0, fun _ => 0⟩⟩

theorem capacity_exact_two : ∃ p, (Partition.new "t" 0 ⟨2, none, none⟩).appendAll [appendByte] = some p ∧
    p.KeepsLast 2 (messagesOf "t" 0 [appendByte]) := by
  rcases capacity_exact (c := 2) (by decide) "t" 0 [appendByte] with ⟨p, hp, -, hk⟩ | ⟨h, -⟩
  · exact ⟨p, hp, hk.2 (by decide)⟩
  · cases h

/-- A partition of capacity `1` loses its only message at once. -/
theorem capacity_one_keeps_none : ∃ p, (Partition.new "t" 0 ⟨1, none, none⟩).appendAll [appendByte] = some p ∧
    p.buffer.log = [] ∧ ¬p.KeepsLast 1 (messagesOf "t" 0 [appendByte]) := by
  exact ⟨_, rfl, rfl, fun h => absurd h.1 (by decide +kernel)⟩

/-! ### Watermarks -/

namespace Partition

/-- The watermarks delimit the messages that can be read, and count them. -/
def WatermarksDescribe (p : Partition) : Prop :=
  p.watermarks.2 - p.watermarks.1 + 1 = p.messageCount ∧
    ∀ o : Int, i64Min ≤ o → o ≤ i64Max →
      ((∃ m, p.readOne o = .ok (some m)) ↔ p.watermarks.1 ≤ o ∧ o ≤ p.watermarks.2)

/-- The offsets of the retained messages. -/
theorem readable_iff (p : Partition) (o : Int) :
    (∃ m, p.readOne o = .ok (some m)) ↔ (p.abs.dropped : Int) ≤ o ∧ o < p.abs.next := by
  simp only [readOne_eq_some_iff]
  constructor
  · rintro ⟨m, n, rfl, hg⟩
    have hbounds := TrimmedLog.bounds_of_get? hg
    omega
  · rintro ⟨hd, hn⟩
    obtain ⟨m, hm⟩ := TrimmedLog.exists_get? (show p.abs.dropped ≤ o.toNat by omega) (by omega)
    exact ⟨m, o.toNat, by omega, hm⟩

end Partition

/-- In every state of a partition the watermarks describe what can be read if and only if the log is not empty or
nothing has been appended yet. -/
theorem watermarks_exact (p : Partition) :
    p.WatermarksDescribe ↔ p.buffer.log ≠ [] ∨ p.buffer.nextOffset = 0 := by
  have hd := p.abs_dropped
  have hn := p.abs_next
  have hw := p.watermarks_eq
  rw [p.abs_retained] at hw
  have hcount : p.messageCount = p.buffer.log.length := rfl
  constructor
  -- the watermarks of an empty log begin at `0` and count all that was appended
  · intro h
    by_contra hne
    simp only [not_or, Decidable.not_not] at hne
    have h1 := h.1
    rw [hcount, hw, if_pos hne.1, hne.1] at h1
    simp only [List.length_nil] at h1
    omega
  · intro h
    have hold : p.watermarks.1 = (p.abs.dropped : Int) := by
      rw [hw]
      split
      · rename_i hnil
        have h0 := h.resolve_left (fun hne => hne hnil)
        rw [hnil] at hd
        simp only [List.length_nil] at hd
        omega
      · rfl
    have hnew : p.watermarks.2 = (p.abs.next : Int) - 1 := by rw [hw]
    refine ⟨?_, fun o _ _ => ?_⟩
    · rw [hcount, hold, hnew]
      omega
    · rw [p.readable_iff, hold, hnew]
      omega

/-- The log of a partition of capacity `1` is empty after an append, and the watermarks are those of one message. -/
theorem watermarks_of_emptied : ∃ p, (Partition.new "t" 0 ⟨1, none, none⟩).appendAll [appendByte] = some p ∧
    p.watermarks = (0, 0) ∧ p.messageCount = 0 ∧ p.readOne 0 = .ok none ∧ ¬p.WatermarksDescribe := by
  exact ⟨_, rfl, rfl, rfl, rfl, fun h => absurd h.1 (by decide +kernel)⟩

end RMemQueue
