import Mathlib.Init

/-!
# Errors and messages

The error type of the library (`error.rs`), message headers (`headers.rs`) and stored messages (`message.rs`).

The fixed-width integers of the source are integers; `i64Checked` marks the additions that can overflow, which panic
as in a debug build.
-/

namespace RMemQueue

/-- The errors that the modelled operations return (`RmqError`). -/
inductive RmqError where
  | topicNotFound (topic : String)
  | partitionOutOfRange (topic : String) (partition : Int)
  | offsetOutOfRange (topic : String) (partition : Int) (offset : Int)
  | groupNotFound (group : String)
  | brokerShutdown
  | invalidConfig (text : String)
  | custom (text : String)
  deriving DecidableEq, Repr

abbrev RmqResult (α : Type) := Except RmqError α

theorem RmqResult.bind_eq_ok {α β : Type} {x : RmqResult α} {f : α → RmqResult β} {b : β} :
    x >>= f = .ok b ↔ ∃ a, x = .ok a ∧ f a = .ok b := by
  cases x with
  | error e =>
    refine iff_of_false (fun h => by cases h) ?_
    rintro ⟨a, ha, -⟩
    cases ha
  | ok a =>
    constructor
    · intro h
      exact ⟨a, rfl, h⟩
    · rintro ⟨a', ha, h⟩
      cases ha
      exact h

def i64Min : Int := -9223372036854775808

def i64Max : Int := 9223372036854775807

def u64Max : Nat := 18446744073709551615

/-- The result of a `usize` addition, if it is in range; `usize` has 64 bits. -/
def usizeChecked (n : Nat) : Option Nat := if n ≤ u64Max then some n else none

/-- The result of an `i64` operation, if it is in range. -/
def i64Checked (n : Int) : Option Int := if i64Min ≤ n ∧ n ≤ i64Max then some n else none

theorem i64Checked_eq_some {n m : Int} : i64Checked n = some m ↔ m = n ∧ i64Min ≤ n ∧ n ≤ i64Max := by
  unfold i64Checked
  split
  · rename_i h
    simp only [Option.some.injEq, h, and_self, and_true]
    exact eq_comm
  · rename_i h
    simp [h]

theorem i64Checked_eq_none {n : Int} : i64Checked n = none ↔ n < i64Min ∨ i64Max < n := by
  unfold i64Checked
  split <;> simp <;> omega

abbrev Bytes := List UInt8

structure Header where
  key : String
  value : Option Bytes
  deriving DecidableEq, Repr

structure OwnedHeaders where
  headers : List Header
  deriving DecidableEq, Repr

/-- An `Arc<dyn Any>`: the type of the object behind it and the object's address. -/
structure AnyArc where
  typeId : Nat
  address : Nat
  deriving DecidableEq, Repr

/-- `StoredMessage`; `createdAt` is a monotonic clock reading in nanoseconds. -/
structure StoredMessage where
  key : Option Bytes
  payload : Option Bytes
  typedPayload : Option AnyArc
  typedKey : Option AnyArc
  topic : String
  partition : Int
  offset : Int
  timestamp : Int
  headers : Option OwnedHeaders
  createdAt : Nat
  deriving DecidableEq, Repr

def StoredMessage.new (key payload : Option Bytes) (topic : String) (partition offset timestamp : Int)
    (headers : Option OwnedHeaders) (createdAt : Nat) : StoredMessage :=
  { key, payload, typedPayload := none, typedKey := none, topic, partition, offset, timestamp, headers, createdAt }

def StoredMessage.newTyped (typedPayload : AnyArc) (typedKey : Option AnyArc) (topic : String)
    (partition offset timestamp : Int) (headers : Option OwnedHeaders) (createdAt : Nat) : StoredMessage :=
  { key := none, payload := none, typedPayload := some typedPayload, typedKey, topic, partition, offset, timestamp,
    headers, createdAt }

/-- The partition that a message is stored in. -/
def StoredMessage.place (m : StoredMessage) : String × Int := (m.topic, m.partition)

/-- What a producer hands over: raw bytes (`produce`) or objects (`produce_typed`). -/
inductive Content where
  | raw (key payload : Option Bytes)
  | typed (payload : AnyArc) (key : Option AnyArc)
  deriving DecidableEq, Repr

/-- The message that is stored for a content. -/
def Content.message (c : Content) (topic : String) (partition offset timestamp : Int)
    (headers : Option OwnedHeaders) (createdAt : Nat) : StoredMessage :=
  match c with
  | .raw key payload => StoredMessage.new key payload topic partition offset timestamp headers createdAt
  | .typed payload key => StoredMessage.newTyped payload key topic partition offset timestamp headers createdAt

@[simp] theorem Content.message_topic (c : Content) (t : String) (p o ts : Int) (h : Option OwnedHeaders)
    (n : Nat) : (c.message t p o ts h n).topic = t := by cases c <;> rfl

@[simp] theorem Content.message_partition (c : Content) (t : String) (p o ts : Int) (h : Option OwnedHeaders)
    (n : Nat) : (c.message t p o ts h n).partition = p := by cases c <;> rfl

@[simp] theorem Content.message_offset (c : Content) (t : String) (p o ts : Int) (h : Option OwnedHeaders)
    (n : Nat) : (c.message t p o ts h n).offset = o := by cases c <;> rfl

@[simp] theorem Content.message_createdAt (c : Content) (t : String) (p o ts : Int) (h : Option OwnedHeaders)
    (n : Nat) : (c.message t p o ts h n).createdAt = n := by cases c <;> rfl

end RMemQueue
