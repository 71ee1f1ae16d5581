import RMemQueue.Lib.Scripts
import RMemQueue.Records
import RMemQueue.World

/-!
# What an application calls

The producers (`base_producer.rs`, `future_producer.rs`, `stream_producer.rs`, `typed.rs`) and the calls that wait for a
message (`base_consumer.rs`, `typed.rs`, `stream_consumer.rs`), as scripts of operations.

A call that waits is given the readings of the clock, or what it finds between two passes over the assignment: there it
reads the subscribed topics and waits on the handles of their partitions, which changes no state.
-/

namespace RMemQueue

open Conc

/-! ### Producers -/

/-- `Result<RecordMetadata, (RmqError, OwnedMessage)>`. -/
abbrev DeliveryResult := Except (RmqError × OwnedMessage) RecordMetadata

/-- A call of `delivery`, the callback of the context. -/
structure Delivery where
  result : DeliveryResult
  metadata : RecordMetadata

namespace BaseProducer

variable {K P : Type} [ToBytes K] [ToBytes P]

/-- What `send` returns for a result of `produce`, and the callback that it makes before. -/
def finish (record : BaseRecord K P) :
    RmqResult RecordMetadata → Except (RmqError × BaseRecord K P) RecordMetadata × Delivery
  | .ok metadata => (.ok metadata, ⟨.ok metadata, metadata⟩)
  | .error e => (.error (e, record),
      ⟨.error (e, record.undelivered),
        ⟨record.topic, record.partition.getD (-1), -1, record.timestamp.getD 0⟩⟩)

end BaseProducer

namespace FutureProducer

variable {K P : Type} [ToBytes K] [ToBytes P]

def toDeliveryError (e : RmqError) (record : BaseRecord K P) : RmqError × OwnedMessage := (e, record.undelivered)

/-- `send`, which hands the error of the inner producer on with a copy of the record. -/
def finish (record : BaseRecord K P) (r : RmqResult RecordMetadata) : DeliveryResult :=
  match (BaseProducer.finish record r).1 with
  | .ok metadata => .ok metadata
  | .error (e, record) => .error (toDeliveryError e record)

end FutureProducer

/-- `StreamProducer::send`, and `start_send` of its sink: the record that is handed back is the one that was passed. -/
def StreamProducer.finish (record : OwnedRecord) (r : RmqResult RecordMetadata) :
    Except (RmqError × OwnedRecord) RecordMetadata :=
  (((BaseProducer.finish record.toBaseRecord r).1).mapError Prod.fst).mapError (·, record)

/-- A call of `produce` or `produce_typed`, and what the producer makes of its result. -/
def produceThen {β : Type} (call : ProduceCall) (finish : RmqResult RecordMetadata → β) : Script Op RmqError Reply β :=
  .call (.send call) fun
    | .ok (.record r) => .done (.ok (finish (.ok r)))
    | .err e => .done (.ok (finish (.error e)))
    | _ => .done .panic

/-! ### Waiting for a message -/

/-- What a waiting call returns: a `BorrowedMessage`, an `OwnedMessage` or a `TypedBorrowedMessage`. -/
inductive Receipt where
  | borrowed (m : StoredMessage)
  | owned (m : OwnedMessage)
  | typed (m : StoredMessage)
  deriving DecidableEq, Repr

namespace Receipt

def place : Receipt → String × Int
  | borrowed m => m.place
  | owned m => (m.topic, m.partition)
  | typed m => m.place

def offset : Receipt → Int
  | borrowed m => m.offset
  | owned m => m.offset
  | typed m => m.offset

/-- The receipt is a view of the stored message. -/
def Shows (m : StoredMessage) : Receipt → Prop
  | borrowed m' => m' = m
  | owned m' => m' = m.toOwnedMessage
  | typed m' => m' = m ∧ m.hasTypedPayload = true

theorem Shows.place {m : StoredMessage} {r : Receipt} (h : r.Shows m) : r.place = m.place := by
  cases r with
  | borrowed m' => rw [show m' = m from h]; rfl
  | owned m' => rw [show m' = m.toOwnedMessage from h]; rfl
  | typed m' => rw [show m' = m from h.1]; rfl

theorem Shows.offset {m : StoredMessage} {r : Receipt} (h : r.Shows m) : r.offset = m.offset := by
  cases r with
  | borrowed m' => rw [show m' = m from h]; rfl
  | owned m' => rw [show m' = m.toOwnedMessage from h]; rfl
  | typed m' => rw [show m' = m from h.1]; rfl

/-- A `TypedBorrowedMessage` is no `Message`, and has no bytes. -/
def decodePayload (r : Receipt) (α : Type) [FromBytes α] : Option α :=
  match r with
  | borrowed m => Message.decodePayload m α
  | owned m => Message.decodePayload m α
  | typed _ => none

def decodeKey (r : Receipt) (α : Type) [FromBytes α] : Option α :=
  match r with
  | borrowed m => Message.decodeKey m α
  | owned m => Message.decodeKey m α
  | typed _ => none

end Receipt

/-- A call of `poll`: the readings of the clock in the order in which the call takes them, the last instant that there
is, and the timeout, in nanoseconds.  The clock does not go back, and passes the deadline within `rounds` rounds. -/
structure PollCall where
  now : Nat → Nat
  lastInstant : Nat
  timeout : Nat
  rounds : Nat
  mono : Monotone now
  passes : now 0 + timeout ≤ now (2 * rounds + 1)

/-- The calls that wait for a message: `BaseConsumer::poll`, which is also the `next` of its iterator,
`TypedConsumer::poll`, and `StreamConsumer::recv`.  Between two passes `recv` asks for the handles of the subscribed
topics: `waits` are the results up to the await at which the future is dropped.  With one wait at most this is also
`poll_next` of its stream, which leaves permits at the handles. -/
inductive Receive where
  | poll (call : PollCall)
  | typedPoll (call : PollCall)
  | recv (waits : List (RmqResult Unit))

abbrev ReceiveScript := Script Op RmqError Reply (Option Receipt)

/-- What a call returns whose pass over the assignment has ended so, with what it makes of a message. -/
def polled (ready : StoredMessage → RmqResult Receipt) : Outcome RmqError Reply → Outcome RmqError (Option Receipt)
  | .ok (.message (some m)) =>
    match ready m with
    | .ok receipt => .ok (some receipt)
    | .error e => .err e
  | .err e => .err e
  | _ => .panic

/-- A pass over the assignment; the call goes on if there is no message. -/
def onPolled (i : Nat) (ready : StoredMessage → RmqResult Receipt) (rest : ReceiveScript) : ReceiveScript :=
  .call (.consumer i .pollOnce) fun
    | .ok (.message none) => rest
    | o => .done (polled ready o)

namespace PollCall

def deadline (call : PollCall) : Nat := call.now 0 + call.timeout

/-- The loop of `poll` from round `k` on, in which the clock is read for the `2 * k + 1`st time; `left` rounds later the
deadline has passed. -/
def loopFor (call : PollCall) (i : Nat) (ready : StoredMessage → RmqResult Receipt) : Nat → Nat → ReceiveScript
  | _, 0 => onPolled i ready (.done (.ok none))
  | k, left + 1 => onPolled i ready
    (if call.deadline ≤ call.now (2 * k + 1) then .done (.ok none) else call.loopFor i ready (k + 1) left)

/-- The loop of `poll` from round `k` on. -/
def loop (call : PollCall) (i : Nat) (ready : StoredMessage → RmqResult Receipt) (k : Nat) : ReceiveScript :=
  call.loopFor i ready k (call.rounds - k)

/-- The loop of the source: a pass, the check of the deadline, and so on. -/
theorem loop_eq (call : PollCall) (i : Nat) (ready : StoredMessage → RmqResult Receipt) (k : Nat) :
    call.loop i ready k = onPolled i ready
      (if call.deadline ≤ call.now (2 * k + 1) then .done (.ok none) else call.loop i ready (k + 1)) := by
  unfold loop
  cases h : call.rounds - k with
  | zero =>
    have hpast : call.deadline ≤ call.now (2 * k + 1) := call.passes.trans (call.mono (by omega))
    rw [if_pos hpast]
    rfl
  | succ left =>
    have hleft : call.rounds - (k + 1) = left := by omega
    rw [hleft]
    rfl

/-- A deadline that is not an instant is a panic. -/
def script (call : PollCall) (i : Nat) (ready : StoredMessage → RmqResult Receipt) : ReceiveScript :=
  if call.lastInstant < call.deadline then .done .panic else call.loop i ready 0

end PollCall

/-- `recv`: a pass over the assignment, then a wait, and so on; a dropped future returns nothing. -/
def recvScript (i : Nat) (ready : StoredMessage → RmqResult Receipt) : List (RmqResult Unit) → ReceiveScript
  | [] => onPolled i ready (.done (.ok none))
  | .ok () :: waits => onPolled i ready (recvScript i ready waits)
  | .error e :: _ => onPolled i ready (.done (.err e))

namespace Receive

/-- What the call returns for a message. -/
def ready : Receive → StoredMessage → RmqResult Receipt
  | poll _, m => .ok (.borrowed m)
  | typedPoll _, m =>
    if m.hasTypedPayload then .ok (.typed m) else .error (.custom "message has raw bytes payload, not typed")
  | recv _, m => .ok (.owned m.toOwnedMessage)

def script (i : Nat) : Receive → ReceiveScript
  | poll call => call.script i (ready (.poll call))
  | typedPoll call => call.script i (ready (.typedPoll call))
  | recv waits => recvScript i (ready (.recv waits)) waits

/-- A message that is handed out is shown; only a typed consumer refuses one. -/
theorem ready_cases (r : Receive) (m : StoredMessage) :
    (∃ receipt : Receipt, r.ready m = .ok receipt ∧ receipt.Shows m) ∨
      (∃ call, r = .typedPoll call) ∧ m.hasTypedPayload = false ∧
        r.ready m = .error (.custom "message has raw bytes payload, not typed") := by
  cases r with
  | poll call => exact Or.inl ⟨_, rfl, rfl⟩
  | recv waits => exact Or.inl ⟨_, rfl, rfl⟩
  | typedPoll call =>
    cases hm : m.hasTypedPayload with
    | true => exact Or.inl ⟨.typed m, by simp [ready, hm], rfl, hm⟩
    | false => exact Or.inr ⟨⟨call, rfl⟩, rfl, by simp [ready, hm]⟩

end Receive

/-! ### The calls -/

/-- The calls of an application; `El` gives the types of keys and payloads that it uses.  A single pass is not one of
them: `poll_once` is private. -/
inductive ClientCall {τ : Type} (El : τ → Type) where
  | send (k p : τ) (record : BaseRecord (El k) (El p)) (clock : Clock)
  | future (k p : τ) (record : BaseRecord (El k) (El p)) (clock : Clock)
  | stream (record : OwnedRecord) (clock : Clock)
  | typed (topic : String) (partition : Option Int) (payload : AnyArc) (key : Option AnyArc)
    (headers : Option OwnedHeaders) (clock : Clock)
  | receive (i : Nat) (r : Receive)
  | request (i : Nat) (r : Request) (hr : r ≠ .pollOnce)
  | shutdown

/-- What a call returns. -/
inductive Returned {τ : Type} (El : τ → Type) where
  | sent (k p : τ) (result : Except (RmqError × BaseRecord (El k) (El p)) RecordMetadata) (delivery : Delivery)
  | future (result : DeliveryResult)
  | stream (result : Except (RmqError × OwnedRecord) RecordMetadata)
  | typed (result : RmqResult RecordMetadata)
  | received (receipt : Option Receipt)
  | reply (r : Reply)

namespace ClientCall

variable {τ : Type} {El : τ → Type} [∀ a, ToBytes (El a)]

/-- The produce call that a call of a producer makes. -/
def produceCall? : ClientCall El → Option ProduceCall
  | send _ _ record clock => some (record.produceCall clock)
  | future _ _ record clock => some (record.produceCall clock)
  | stream record clock => some (record.toBaseRecord.produceCall clock)
  | typed topic partition payload key headers clock => some ⟨topic, partition, .typed payload key, headers, none, clock⟩
  | _ => none

/-- The consumer that the call works on. -/
def actor : ClientCall El → Option Nat
  | receive i _ => some i
  | request i _ _ => some i
  | _ => none

def script : ClientCall El → Script Op RmqError Reply (Returned El)
  | send k p record clock => produceThen (record.produceCall clock) fun r =>
      let (result, delivery) := BaseProducer.finish record r
      .sent k p result delivery
  | future _ _ record clock => produceThen (record.produceCall clock) fun r => .future (FutureProducer.finish record r)
  | stream record clock => produceThen (record.toBaseRecord.produceCall clock) fun r =>
      .stream (StreamProducer.finish record r)
  | typed topic partition payload key headers clock =>
      produceThen ⟨topic, partition, .typed payload key, headers, none, clock⟩ .typed
  | receive i r => (r.script i).map .received
  | request i r _ => .call (.consumer i r) fun o => .done (o.map .reply)
  | shutdown => .call .shutdown fun o => .done (o.map .reply)

/-- The atomic steps of a call. -/
def body {π : Type} [Partitioner π] (ids : Nat → BaseConsumer) (c : ClientCall El) :
    Act (World π) RmqError (Returned El) :=
  c.script.body (Op.body ids)

end ClientCall

end RMemQueue
