import RMemQueue.Message
import Mathlib.Data.Int.Init

/-!
# Partitioners (`partitioner.rs`)

A partitioner is an object whose counters change with every call; an overflow of its `i32` arithmetic is a panic.
-/

namespace RMemQueue

/-- The trait `Partitioner`: topic, key and number of partitions to a partition and the next state. -/
class Partitioner (π : Type) where
  partition : π → String → Option Bytes → Int → Option Int × π

def i32Max : Int := 2147483647

/-- The result of an `i32` operation, if it is in range. -/
def i32Checked (n : Int) : Option Int := if -i32Max - 1 ≤ n ∧ n ≤ i32Max then some n else none

/-- Addition of `i32` values that wraps around. -/
def i32Wrapping (n : Int) : Int := Int.bmod n 4294967296

theorem i32Wrapping_range (n : Int) : -i32Max - 1 ≤ i32Wrapping n ∧ i32Wrapping n ≤ i32Max := by
  have hlow : -(4294967296 / 2) ≤ Int.bmod n 4294967296 := Int.le_bmod (by decide)
  have hhigh : Int.bmod n 4294967296 < (4294967296 + 1) / 2 := Int.bmod_lt (by decide)
  simp only [i32Wrapping, i32Max]
  omega

theorem i32Checked_eq_some {n m : Int} : i32Checked n = some m ↔ m = n ∧ -i32Max - 1 ≤ n ∧ n ≤ i32Max := by
  unfold i32Checked
  split
  · rename_i h
    simp only [Option.some.injEq, h, and_self, and_true]
    exact eq_comm
  · rename_i h
    exact iff_of_false (fun hn => by cases hn) fun hn => h hn.2

theorem i32Checked_eq_none {n : Int} : i32Checked n = none ↔ n < -i32Max - 1 ∨ i32Max < n := by
  unfold i32Checked
  split
  · rename_i h
    exact iff_of_false (fun hn => by cases hn) (by omega)
  · rename_i h
    exact iff_of_true rfl (by omega)

structure RoundRobinPartitioner where
  counter : Int
  deriving DecidableEq, Repr

namespace RoundRobinPartitioner

def new : RoundRobinPartitioner := ⟨0⟩

def partition (r : RoundRobinPartitioner) (numPartitions : Int) : Option Int × RoundRobinPartitioner :=
  if numPartitions ≤ 0 then (some 0, r)
  else
    let prev := r.counter
    ((i32Checked (prev.tmod numPartitions + numPartitions)).map fun sum => sum.tmod numPartitions,
      ⟨i32Wrapping (prev + 1)⟩)

instance : Partitioner RoundRobinPartitioner where
  partition r _ _ numPartitions := r.partition numPartitions

/-- What is chosen among at least one partition. -/
theorem partition_eq_some {r : RoundRobinPartitioner} {n p : Int} (hn : 1 ≤ n) :
    (r.partition n).1 = some p ↔ p = (r.counter.tmod n + n).tmod n ∧ r.counter.tmod n + n ≤ i32Max := by
  have hlow := Int.lt_tmod_of_pos r.counter (by omega : 0 < n)
  rw [partition, if_neg (by omega)]
  simp only [Option.map_eq_some_iff, i32Checked_eq_some]
  constructor
  · rintro ⟨sum, ⟨rfl, -, hle⟩, rfl⟩
    exact ⟨rfl, hle⟩
  · rintro ⟨rfl, hle⟩
    exact ⟨_, ⟨rfl, by simp only [i32Max]; omega, hle⟩, rfl⟩

end RoundRobinPartitioner

/-- FNV-1a with 32 bits. -/
def fnv1a32 (data : Bytes) : UInt32 := data.foldl (fun hash byte => (hash ^^^ byte.toUInt32) * 16777619) 2166136261

structure ConsistentPartitioner where
  fallback : RoundRobinPartitioner
  deriving DecidableEq, Repr

namespace ConsistentPartitioner

def new : ConsistentPartitioner := ⟨.new⟩

/-- The partition of a key. -/
def ofKey (key : Bytes) (numPartitions : Int) : Int := ((fnv1a32 key).toNat : Int) % numPartitions

def partition (c : ConsistentPartitioner) (key : Option Bytes) (numPartitions : Int) :
    Option Int × ConsistentPartitioner :=
  if numPartitions ≤ 0 then (some 0, c)
  else
    match key with
    | some k => (some (ofKey k numPartitions), c)
    | none => ((c.fallback.partition numPartitions).1, ⟨(c.fallback.partition numPartitions).2⟩)

instance : Partitioner ConsistentPartitioner where
  partition c _ key numPartitions := c.partition key numPartitions

theorem ofKey_range (key : Bytes) {n : Int} (hn : 0 < n) : 0 ≤ ofKey key n ∧ ofKey key n < n :=
  ⟨Int.emod_nonneg _ (by omega), Int.emod_lt_of_pos _ hn⟩

end ConsistentPartitioner

structure RandomPartitioner where
  state : Int
  range : -i32Max - 1 ≤ state ∧ state ≤ i32Max
  deriving DecidableEq, Repr

namespace RandomPartitioner

/-- `new`; `base` is what `RANDOM_SEED` holds before the call, and `nanos` is the time since the epoch, if the clock is
not before it.  A cast to `i32` keeps the low bits. -/
def new (base : Nat) (nanos : Option Nat) : RandomPartitioner :=
  let seed := i32Wrapping (i32Wrapping (i32Wrapping base * 1103515245) + (nanos.map fun d => i32Wrapping d).getD 1)
  if seed = 0 then ⟨1, by decide⟩ else ⟨seed, i32Wrapping_range _⟩

/-- `prev.abs()` overflows for `i32::MIN`. -/
def partition (r : RandomPartitioner) (numPartitions : Int) : Option Int × RandomPartitioner :=
  if numPartitions ≤ 0 then (some 0, r)
  else
    let prev := r.state
    ((i32Checked prev.natAbs).bind fun abs =>
        (i32Checked (abs.tmod numPartitions + numPartitions)).map fun sum => sum.tmod numPartitions,
      ⟨i32Wrapping (i32Wrapping (prev * 1103515245) + 12345), i32Wrapping_range _⟩)

instance : Partitioner RandomPartitioner where
  partition r _ _ numPartitions := r.partition numPartitions

end RandomPartitioner

end RMemQueue
