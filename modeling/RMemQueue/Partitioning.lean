import RMemQueue.Lib.Lcg
import RMemQueue.Partitioner

/-!
# The range of the partitioners (`partitioner.rs`)

A partitioner is to choose one of the partitions in any state that its earlier calls have left it in.

* `random_in_range_iff`: the random partitioner does so unless its state is `i32::MIN`, whose absolute value overflows.
  Every random partitioner gets there (`RandomPartitioner.exists_overflow`).
* `counter_in_range_iff`: the round robin, and the consistent partitioner without a key, add `n` to the remainder of
  the counter, which overflows for large `n`; a key always leads to a partition.
-/

namespace RMemQueue

namespace Partitioner

variable {π : Type} [Partitioner π]

/-- The partitioner after calls, each with a topic, a key and a number of partitions. -/
def after (p : π) (calls : List (String × Option Bytes × Int)) : π :=
  calls.foldl (fun p call => (partition p call.1 call.2.1 call.2.2).2) p

/-- The call does not overflow and returns one of the partitions. -/
def InRange (p : π) (topic : String) (key : Option Bytes) (n : Int) : Prop :=
  ∃ q, (partition p topic key n).1 = some q ∧ 0 ≤ q ∧ q < n

/-- What holds at first and is kept by each call holds after any calls. -/
theorem after_induction {P : π → Prop} {p : π} (h : P p)
    (hstep : ∀ p topic key n, P p → P (partition p topic key n).2) (calls : List (String × Option Bytes × Int)) :
    P (after p calls) := by
  induction calls generalizing p with
  | nil => exact h
  | cons call calls ih => exact ih (hstep p _ _ _ h)

end Partitioner

open Partitioner

/-- The remainder of a sum that is positive. -/
private theorem tmod_range {k n : Int} (hn : 0 < n) (hk : -n < k) : 0 ≤ (k + n).tmod n ∧ (k + n).tmod n < n :=
  ⟨Int.tmod_nonneg _ (by omega), Int.tmod_lt_of_pos _ hn⟩

/-! ### The random partitioner -/

namespace RandomPartitioner

private theorem inRange_iff (r : RandomPartitioner) (topic : String) (key : Option Bytes) {n : Int} (h0 : 0 < n)
    (hn : n ≤ 1073741824) : InRange r topic key n ↔ r.state ≠ -i32Max - 1 := by
  have hrange := r.range
  show (∃ q, (r.partition n).1 = some q ∧ _) ↔ _
  rw [partition, if_neg (by omega)]
  dsimp only
  simp only [i32Max] at hrange ⊢
  by_cases hmin : r.state = -2147483647 - 1
  · have habs : i32Checked r.state.natAbs = none := i32Checked_eq_none.2 (by simp only [i32Max]; omega)
    rw [habs]
    simp [hmin]
  · have habs : i32Checked r.state.natAbs = some (r.state.natAbs : Int) := by
      refine i32Checked_eq_some.2 ⟨rfl, ?_, ?_⟩
      · simp only [i32Max]; omega
      · simp only [i32Max]; omega
    have hmod : 0 ≤ (r.state.natAbs : Int).tmod n ∧ (r.state.natAbs : Int).tmod n < n :=
      ⟨Int.tmod_nonneg _ (by omega), Int.tmod_lt_of_pos _ h0⟩
    have hsum : i32Checked ((r.state.natAbs : Int).tmod n + n) = some ((r.state.natAbs : Int).tmod n + n) := by
      refine i32Checked_eq_some.2 ⟨rfl, ?_, ?_⟩
      · simp only [i32Max]; omega
      · simp only [i32Max]; omega
    rw [habs, Option.bind_some, hsum]
    exact iff_of_true ⟨_, rfl, tmod_range h0 (by omega)⟩ hmin

/-- A call with a partition moves the state. -/
private theorem state_partition (r : RandomPartitioner) {n : Int} (h0 : 0 < n) :
    (r.partition n).2.state ≡ Lcg.next 1103515245 12345 r.state [ZMOD 4294967296] := by
  rw [partition, if_neg (by omega)]
  have hmul : i32Wrapping (r.state * 1103515245) ≡ 1103515245 * r.state [ZMOD 4294967296] := by
    rw [mul_comm]
    exact Int.bmod_emod
  exact (show _ ≡ _ [ZMOD _] from Int.bmod_emod).trans (hmul.add_right 12345)

/-- The state after calls with a partition, up to the bits that do not fit. -/
private theorem state_after (r : RandomPartitioner) (topic : String) (key : Option Bytes) {n : Int} (h0 : 0 < n)
    (k : Nat) : (after r (List.replicate k (topic, key, n))).state ≡
      (Lcg.next 1103515245 12345)^[k] r.state [ZMOD 4294967296] := by
  induction k generalizing r with
  | zero => rfl
  | succ k ih =>
    rw [List.replicate_succ, Function.iterate_succ_apply]
    exact (ih (r.partition n).2).trans (Lcg.iterate_modEq (r.state_partition h0) k)

/-- **Every random partitioner fails at some call.**  The generator goes through all states. -/
theorem exists_overflow (r : RandomPartitioner) (topic : String) (key : Option Bytes) {n : Int} (h0 : 0 < n) :
    ∃ k < 4294967296, (Partitioner.partition (after r (List.replicate k (topic, key, n))) topic key n).1 = none := by
  obtain ⟨k, hk, hmod⟩ := Lcg.exists_iterate_modEq (a := 1103515245) (c := 12345) (by decide) (by decide)
    r.state (-i32Max - 1) 32
  refine ⟨k, by simpa using hk, ?_⟩
  have hstate : (after r (List.replicate k (topic, key, n))).state ≡ -i32Max - 1 [ZMOD 4294967296] :=
    (state_after r topic key h0 k).trans (by simpa using hmod)
  generalize after r (List.replicate k (topic, key, n)) = r' at hstate
  have hrange := r'.range
  have hmin : r'.state = -i32Max - 1 := by
    obtain ⟨t, ht⟩ := hstate.dvd
    simp only [i32Max] at hrange ht ⊢
    omega
  show (r'.partition n).1 = none
  rw [partition, if_neg (by omega)]
  have habs : i32Checked r'.state.natAbs = none := by
    rw [hmin]
    rfl
  dsimp only
  rw [habs, Option.bind_none]

end RandomPartitioner

/-- **Where the random partitioner fails.**  Whatever its seed and its earlier calls, the next call with at most
`2 ^ 30` partitions overflows if the state is `i32::MIN`, and chooses a partition if it is not. -/
theorem random_in_range_iff (base : Nat) (nanos : Option Nat) (calls : List (String × Option Bytes × Int))
    (topic : String) (key : Option Bytes) {n : Int} (h0 : 0 < n) (hn : n ≤ 1073741824) :
    InRange (after (RandomPartitioner.new base nanos) calls) topic key n ↔
      (after (RandomPartitioner.new base nanos) calls).state ≠ -i32Max - 1 :=
  RandomPartitioner.inRange_iff _ topic key h0 hn

/-- Two calls of a new partitioner. -/
theorem random_in_range_third :
    InRange (after (RandomPartitioner.new 0 none) [("t", none, 3), ("u", none, 0)]) "t" none 3 ↔
      (after (RandomPartitioner.new 0 none) [("t", none, 3), ("u", none, 0)]).state ≠ -i32Max - 1 :=
  random_in_range_iff 0 none _ "t" none (by decide) (by decide)

/-- The first partitioner of a process, at a time whose nanoseconds end in the bits of `i32::MIN`. -/
theorem random_overflows : (partition (RandomPartitioner.new 0 (some 1777593601962803200)) "t" none 3).1 = none := by
  decide +kernel

/-! ### The round robin -/

namespace RoundRobinPartitioner

/-- The counter is an `i32`. -/
def Counts (r : RoundRobinPartitioner) : Prop := -i32Max - 1 ≤ r.counter ∧ r.counter ≤ i32Max

theorem counts_new : new.Counts := by
  unfold Counts
  decide

theorem Counts.partition {r : RoundRobinPartitioner} (h : r.Counts) (n : Int) : (r.partition n).2.Counts := by
  unfold RoundRobinPartitioner.partition
  split
  · exact h
  · exact i32Wrapping_range _

private theorem inRange_iff {r : RoundRobinPartitioner} (h : r.Counts) (topic : String) (key : Option Bytes) {n : Int}
    (h0 : 0 < n) (hn : n ≤ i32Max) : InRange r topic key n ↔ n ≤ r.counter ∨ r.counter + n ≤ i32Max := by
  have hlow := Int.lt_tmod_of_pos r.counter h0
  have hsum : InRange r topic key n ↔ r.counter.tmod n + n ≤ i32Max := by
    show (∃ q, (r.partition n).1 = some q ∧ _) ↔ _
    simp only [partition_eq_some (show 1 ≤ n from h0)]
    constructor
    · rintro ⟨q, ⟨-, hle⟩, -⟩
      exact hle
    · intro hle
      exact ⟨_, ⟨rfl, hle⟩, tmod_range h0 hlow⟩
  rw [hsum]
  have hmax := h.2
  by_cases hneg : r.counter < 0
  -- the remainder of a negative counter is not positive
  · have hmod := Int.tmod_nonneg n (show 0 ≤ -r.counter by omega)
    rw [Int.neg_tmod] at hmod
    omega
  · have hnonneg : 0 ≤ r.counter := by omega
    rw [Int.tmod_eq_emod_of_nonneg hnonneg]
    by_cases hlt : r.counter < n
    · rw [Int.emod_eq_of_lt hnonneg hlt]
      omega
    · have hdiv := Int.mul_ediv_add_emod (r.counter - n) n
      have hpos : 0 ≤ n * ((r.counter - n) / n) := Int.mul_nonneg h0.le (Int.ediv_nonneg (by omega) h0.le)
      rw [Int.sub_emod_right] at hdiv
      omega

end RoundRobinPartitioner

namespace ConsistentPartitioner

/-- The casts between `i32` and `u32` change nothing. -/
private theorem ofKey_eq_cast (key : Bytes) {n : Int} (h0 : 0 < n) (hn : n ≤ i32Max) :
    i32Wrapping ((fnv1a32 key % UInt32.ofNat n.toNat).toNat : Int) = ofKey key n := by
  obtain ⟨m, rfl⟩ := Int.eq_ofNat_of_zero_le h0.le
  simp only [i32Max] at hn
  have hm : (UInt32.ofNat m).toNat = m := UInt32.toNat_ofNat_of_lt' (by
    simp only [UInt32.size]
    omega)
  have hlt : (fnv1a32 key).toNat % m < m := Nat.mod_lt _ (by omega)
  rw [Int.toNat_natCast, UInt32.toNat_mod, hm, ofKey, i32Wrapping, Int.bmod_eq_of_le (by omega) (by omega)]
  exact Int.natCast_emod ..

/-- The counter of the fallback is an `i32`. -/
theorem counts_partition {c : ConsistentPartitioner} (h : c.fallback.Counts) (key : Option Bytes) (n : Int) :
    (c.partition key n).2.fallback.Counts := by
  unfold ConsistentPartitioner.partition
  split
  · exact h
  · cases key with
    | some k => exact h
    | none => exact h.partition n

private theorem inRange_iff {c : ConsistentPartitioner} (h : c.fallback.Counts) (topic : String) (key : Option Bytes)
    {n : Int} (h0 : 0 < n) (hn : n ≤ i32Max) :
    InRange c topic key n ↔ key ≠ none ∨ n ≤ c.fallback.counter ∨ c.fallback.counter + n ≤ i32Max := by
  cases key with
  | some k =>
    refine iff_of_true ⟨ofKey k n, ?_, ofKey_range k h0⟩ (Or.inl (by simp))
    show (c.partition (some k) n).1 = _
    rw [partition, if_neg (by omega)]
  | none =>
    have hfallback : InRange c topic none n ↔ InRange c.fallback topic none n := by
      show (∃ q, (c.partition none n).1 = some q ∧ _) ↔ _
      rw [partition, if_neg (by omega)]
      rfl
    rw [hfallback, RoundRobinPartitioner.inRange_iff h topic none h0 hn]
    simp

end ConsistentPartitioner

/-- **Where the counter fails.**  After any calls, the round robin, and the consistent partitioner for a call without a
key, choose one of `n` partitions if and only if the counter is at least `n`, or its sum with `n` is an `i32`; with a
key the consistent partitioner always does, and its casts lose nothing. -/
theorem counter_in_range_iff (calls : List (String × Option Bytes × Int)) (topic : String) (key : Option Bytes)
    {n : Int} (h0 : 0 < n) (hn : n ≤ i32Max) :
    let r := after RoundRobinPartitioner.new calls
    let c := after ConsistentPartitioner.new calls
    (InRange r topic key n ↔ n ≤ r.counter ∨ r.counter + n ≤ i32Max) ∧
      (InRange c topic key n ↔ key ≠ none ∨ n ≤ c.fallback.counter ∨ c.fallback.counter + n ≤ i32Max) ∧
      ∀ k, (partition c topic (some k) n).1 = some (i32Wrapping ((fnv1a32 k % UInt32.ofNat n.toNat).toNat : Int)) := by
  intro r c
  have hr : r.Counts :=
    after_induction RoundRobinPartitioner.counts_new (fun _ _ _ n h => h.partition n) calls
  have hc : c.fallback.Counts :=
    after_induction (P := fun c : ConsistentPartitioner => c.fallback.Counts) RoundRobinPartitioner.counts_new
      (fun _ _ key n h => ConsistentPartitioner.counts_partition h key n) calls
  refine ⟨RoundRobinPartitioner.inRange_iff hr topic key h0 hn, ConsistentPartitioner.inRange_iff hc topic key h0 hn,
    fun k => ?_⟩
  show (c.partition (some k) n).1 = _
  rw [ConsistentPartitioner.partition, if_neg (by omega), ConsistentPartitioner.ofKey_eq_cast k h0 hn]

/-- Two calls, and then one with all the partitions that there can be. -/
theorem counter_in_range_max :
    let r := after RoundRobinPartitioner.new [("t", none, 3), ("t", none, 3)]
    let c := after ConsistentPartitioner.new [("t", none, 3), ("t", none, 3)]
    (InRange r "t" none i32Max ↔ i32Max ≤ r.counter ∨ r.counter + i32Max ≤ i32Max) ∧
      (InRange c "t" none i32Max ↔
        (none : Option Bytes) ≠ none ∨ i32Max ≤ c.fallback.counter ∨ c.fallback.counter + i32Max ≤ i32Max) ∧
      ∀ k, (partition c "t" (some k) i32Max).1 =
        some (i32Wrapping ((fnv1a32 k % UInt32.ofNat i32Max.toNat).toNat : Int)) :=
  counter_in_range_iff _ "t" none (by decide) (by decide)

/-- The second call with `i32::MAX` partitions and no key. -/
theorem counter_overflows :
    (partition (after RoundRobinPartitioner.new [("t", none, i32Max)]) "t" none i32Max).1 = none ∧
      (partition (after ConsistentPartitioner.new [("t", none, i32Max)]) "t" none i32Max).1 = none := by
  decide +kernel

end RMemQueue
