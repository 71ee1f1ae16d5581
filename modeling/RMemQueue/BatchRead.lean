import RMemQueue.BrokerRun
import RMemQueue.PartitionRun

/-!
# Reading a batch (`partition.rs`)

`read` repeats the range checks of `read_one` and cuts the batch out of the buffer.  It returns what single reads
return one after the other (`Singles`), except that the end of the batch is computed as `start + max_count` before the
minimum with the length is taken: a large `max_count` is a panic wherever the batch does not begin with the oldest
message (`read_agrees_iff`).
-/

namespace RMemQueue

open Conc

namespace Partition

variable (p : Partition)

/-- What `read_one` returns at `offset`, `offset + 1` and so on, up to `maxCount` messages or the first `None`. -/
inductive Singles : Int → Nat → List StoredMessage → Prop
  | full (offset : Int) : Singles offset 0 []
  | ended {offset : Int} (maxCount : Nat) (h : p.readOne offset = .ok none) : Singles offset maxCount []
  | more {offset : Int} {maxCount : Nat} {m : StoredMessage} {l : List StoredMessage}
    (h : p.readOne offset = .ok (some m)) (rest : Singles (offset + 1) maxCount l) :
    Singles offset (maxCount + 1) (m :: l)

/-- A batch read does not panic, fails as the single read does, and returns what single reads return. -/
def ReadAgrees (offset : Int) (maxCount : Nat) : Prop :=
  ∃ r, p.read offset maxCount = some r ∧ (∀ e, r = .error e ↔ p.readOne offset = .error e) ∧
    ∀ l, r = .ok l → p.Singles offset maxCount l

variable {p}

/-! ### What a batch is -/

/-- Where a single read finds the end of the log, the batch is empty. -/
private theorem read_of_none {o : Int} (h : p.readOne o = .ok none) (n : Nat) : p.read o n = some (.ok []) := by
  have hd := p.abs_dropped
  have hn := p.abs_next
  have hend := p.readOne_eq_none_iff.1 h
  rw [p.abs_retained] at hend
  unfold read
  dsimp only
  by_cases hempty : p.buffer.log.isEmpty = true
  · rw [if_pos hempty, if_pos (by omega)]
  · have hne : p.buffer.log ≠ [] := fun hnil => hempty (List.isEmpty_iff.2 hnil)
    have ho : o = p.buffer.nextOffset := by
      rcases hend with ho | ⟨-, hnil⟩
      · omega
      · exact absurd hnil hne
    rw [if_neg hempty, if_neg (by omega), if_pos ho]

/-- Where a single read is out of range, a batch read is. -/
private theorem read_of_error {o : Int} {e : RmqError} (h : p.readOne o = .error e) (n : Nat) :
    p.read o n = some (.error e) := by
  have hd := p.abs_dropped
  have hn := p.abs_next
  obtain ⟨rfl, hout, hzero⟩ := p.readOne_eq_error_iff.1 h
  have hle := p.abs.dropped_le_next
  rw [p.abs_retained] at hzero
  unfold read
  dsimp only
  by_cases hempty : p.buffer.log.isEmpty = true
  · have hnil := List.isEmpty_iff.1 hempty
    rw [if_pos hempty, if_neg]
    rintro (ho | ho)
    · exact hzero ⟨ho, hnil⟩
    · omega
  · rw [if_neg hempty, if_pos (by omega)]

/-- A batch from the `j`-th retained message on. -/
theorem read_dropped_add {j : Nat} (hj : j < p.buffer.log.length) (n : Nat) :
    p.read (p.abs.dropped + j) n = if j + n ≤ u64Max then some (.ok ((p.buffer.log.drop j).take n)) else none := by
  have hd := p.abs_dropped
  have hne : ¬p.buffer.log.isEmpty = true := by
    rw [List.isEmpty_iff]
    exact List.ne_nil_of_length_pos (by omega)
  have hstart : ((p.abs.dropped : Int) + j - (p.buffer.nextOffset - p.buffer.log.length)).toNat = j := by omega
  unfold read
  dsimp only
  rw [if_neg hne, if_neg (by omega), if_neg (by omega), hstart, usizeChecked]
  by_cases hsum : j + n ≤ u64Max
  · rw [if_pos hsum, if_pos hsum]
    have hcut : (p.buffer.log.take (min (j + n) p.buffer.log.length)).drop j = (p.buffer.log.drop j).take n := by
      rw [List.drop_take, List.take_eq_take_iff, List.length_drop]
      omega
    dsimp only
    rw [range, if_pos (by omega), hcut]
    rfl
  · rw [if_neg hsum, if_neg hsum]

/-- Single reads from the `j`-th retained offset on go through the rest of the log. -/
private theorem singles_dropped_add {j : Nat} (hj : j ≤ p.buffer.log.length) (n : Nat) :
    p.Singles (p.abs.dropped + j) n ((p.buffer.log.drop j).take n) := by
  induction n generalizing j with
  | zero => exact .full _
  | succ n ih =>
    have hread := p.readOne_dropped_add hj
    rcases Nat.lt_or_eq_of_le hj with hlt | rfl
    · rw [List.getElem?_eq_getElem hlt] at hread
      rw [List.drop_eq_getElem_cons hlt, List.take_succ_cons]
      apply Singles.more hread
      have hrest := ih (j := j + 1) hlt
      rwa [Int.natCast_succ, ← Int.add_assoc] at hrest
    · rw [List.getElem?_eq_none (le_refl _)] at hread
      rw [List.drop_length, List.take_nil]
      exact .ended _ hread

end Partition

/-- A batch read agrees with single reads if and only if the offset is not one of a retained message or the sum of its
index and `max_count` does not overflow. -/
theorem read_agrees_iff (p : Partition) (offset : Int) (maxCount : Nat) :
    p.ReadAgrees offset maxCount ↔
      offset < p.abs.dropped ∨ p.abs.next ≤ offset ∨ offset - p.abs.dropped + maxCount ≤ u64Max := by
  have hd := p.abs_dropped
  have hn := p.abs_next
  rcases p.readOne_cases offset with ⟨k, m, rfl, hg, hread⟩ | ⟨ho, hread⟩ | ⟨ho, -, hread⟩
  · have hbounds := TrimmedLog.bounds_of_get? hg
    obtain ⟨j, rfl⟩ : ∃ j, k = p.abs.dropped + j := ⟨k - p.abs.dropped, by omega⟩
    have hj : j < p.buffer.log.length := by omega
    rw [Int.natCast_add] at hread ⊢
    rw [Partition.ReadAgrees, Partition.read_dropped_add hj]
    by_cases hsum : j + maxCount ≤ u64Max
    · rw [if_pos hsum]
      refine iff_of_true ⟨_, rfl, fun e => ?_, fun l hl => ?_⟩ (by omega)
      · rw [hread]
        exact iff_of_false (fun h => by cases h) fun h => by cases h
      · rw [← Except.ok.inj hl]
        exact Partition.singles_dropped_add hj.le maxCount
    · rw [if_neg hsum]
      refine iff_of_false ?_ (by omega)
      rintro ⟨r, hr, -⟩
      cases hr
  · refine iff_of_true ⟨_, Partition.read_of_none hread _, fun e => ?_, fun l hl => ?_⟩ ?_
    · rw [hread]
      exact iff_of_false (fun h => by cases h) fun h => by cases h
    · rw [← Except.ok.inj hl]
      exact .ended _ hread
    · rcases ho with ho | ⟨rfl, hnil⟩
      · omega
      · have := p.abs.retained_eq_nil_iff.1 hnil
        omega
  · refine iff_of_true ⟨_, Partition.read_of_error hread _, fun e => ?_, fun l hl => by cases hl⟩ (by omega)
    rw [hread]
    exact ⟨fun h => congrArg _ (Except.error.inj h), fun h => congrArg _ (Except.error.inj h)⟩

/-- An append without key and payload. -/
private def emptyAppend : AppendCall := ⟨.raw none none, none, none, ⟨7, 0, fun _ => 0⟩⟩

/-- The second of two messages is not read with the largest `max_count`. -/
theorem read_overflows : ∃ p, (Partition.new "t" 0 ⟨10000, none, none⟩).appendAll [emptyAppend, emptyAppend] = some p ∧
    p.read 1 u64Max = none ∧ ¬p.ReadAgrees 1 u64Max := by
  have hlog : ((Partition.new "t" 0 ⟨10000, none, none⟩).appendAll [emptyAppend, emptyAppend]).map
      (fun p => (p.abs.dropped, p.abs.next)) = some (0, 2) := by decide +kernel
  obtain ⟨p, hp, hbounds⟩ := Option.map_eq_some_iff.1 hlog
  obtain ⟨hd, hn⟩ := Prod.mk.inj hbounds
  have hlen := p.abs.length_retained
  rw [p.abs_retained] at hlen
  have hread := Partition.read_dropped_add (p := p) (j := 1) (by omega) u64Max
  rw [hd, if_neg (by decide)] at hread
  refine ⟨p, hp, hread, ?_⟩
  rintro ⟨r, hr, -⟩
  cases hread.symm.trans hr

/-! ### The fetch of a broker -/

/-- `fetch` on a running broker is the batch read of the partition. -/
theorem Broker.run_fetch {π : Type} {b : Broker π} (h : b.Running) {topic : String} {partition : Int} {p : Partition}
    (hp : b.backend.partition? topic partition = some p) (offset : Int) (maxCount : Nat) :
    (Broker.fetch topic partition offset maxCount).run b =
      ((p.read offset maxCount).elim .panic InMemoryBackend.ofResult, b) := by
  rw [Broker.fetch, Broker.run_onBackend, InMemoryBackend.run_fetch h.backend, hp]
  rfl

end RMemQueue
