import RMemQueue.ConsumerRun
import RMemQueue.LogContract

/-!
# A broker with its clients

The world of one broker: the broker and the states of its consumers.  An operation is a call of a producer, a call of
one consumer, or the shutdown; `Op.body` gives its atomic steps.  Producers have no state of their own, so that the
`send` of any of them is a `ProduceCall`.
-/

namespace RMemQueue

open Conc

structure World (π : Type) where
  broker : Broker π
  consumers : Nat → ConsumerState

/-- The operations of a consumer. -/
inductive Request where
  | pollOnce
  | subscribe (order : HashOrder) (topics : List String)
  | unsubscribe (order : HashOrder)
  | assignment
  | assign (partitions : TopicPartitionList)
  | seek (topic : String) (partition : Int) (offset : Offset)
  | commit (tpl : TopicPartitionList)
  | commitMessage (msg : StoredMessage)
  | storeOffset (topic : String) (partition offset : Int)
  | committed
  | positions
  | pause (partitions : TopicPartitionList)
  | resume (partitions : TopicPartitionList)
  | metadata (topic : Option String)
  | watermarks (topic : String) (partition : Int)

inductive Op where
  | send (call : ProduceCall)
  | consumer (i : Nat) (request : Request)
  | shutdown

/-- What an operation returns. -/
inductive Reply where
  | unit
  | record (r : RecordMetadata)
  | message (m : Option StoredMessage)
  | partitions (l : TopicPartitionList)
  | metadata (m : Metadata)
  | watermarks (w : Int × Int)
  deriving DecidableEq, Repr

/-- A call with its result wrapped. -/
def reply {σ ε α : Type} (x : Act σ ε α) (f : α → Reply) : Act σ ε Reply := x >>= fun a => pure (f a)

theorem run_reply {σ ε α : Type} (x : Act σ ε α) (f : α → Reply) (s : σ) :
    (reply x f).run s = ((x.run s).1.map f, (x.run s).2) := by
  rw [reply, Act.run_bind]
  rcases x.run s with ⟨_ | _ | _, t⟩ <;> rfl

@[simp] theorem snd_run_reply {σ ε α : Type} (x : Act σ ε α) (f : α → Reply) (s : σ) :
    ((reply x f).run s).2 = (x.run s).2 := by
  rw [run_reply]

variable {π : Type}

namespace Request

def body (c : BaseConsumer) : Request → ConsumerM π Reply
  | .pollOnce => reply c.pollOnce .message
  | .subscribe order topics => reply (c.subscribe order topics) fun _ => .unit
  | .unsubscribe order => reply (c.unsubscribe order) fun _ => .unit
  | .assignment => reply BaseConsumer.assignment .partitions
  | .assign partitions => reply (BaseConsumer.assign partitions) fun _ => .unit
  | .seek topic partition offset => reply (c.seek topic partition offset) fun _ => .unit
  | .commit tpl => reply (c.commit tpl) fun _ => .unit
  | .commitMessage msg => reply (c.commitMessage msg) fun _ => .unit
  | .storeOffset topic partition offset => reply (BaseConsumer.storeOffset topic partition offset) fun _ => .unit
  | .committed => reply c.committed .partitions
  | .positions => reply BaseConsumer.positions .partitions
  | .pause partitions => reply (BaseConsumer.pause partitions) fun _ => .unit
  | .resume partitions => reply (BaseConsumer.resume partitions) fun _ => .unit
  | .metadata topic => reply (BaseConsumer.metadata topic) .metadata
  | .watermarks topic partition => reply (BaseConsumer.watermarks topic partition) .watermarks

end Request

namespace World

def brokerLens : Lens (World π) (Broker π) where
  get w := w.broker
  put w broker := { w with broker }
  get_put _ _ := rfl
  put_get _ := rfl
  put_put _ _ _ := rfl

/-- The part of the world that consumer `i` works on. -/
def sessionLens (i : Nat) : Lens (World π) (Session π) where
  get w := ⟨w.broker, w.consumers i⟩
  put w s := ⟨s.broker, Function.update w.consumers i s.state⟩
  get_put w s := by simp
  put_get w := by simp
  put_put w s s' := by simp

/-- A broker whose consumers have done nothing yet. -/
def init (broker : Broker π) : World π := ⟨broker, fun _ => .new⟩

end World

namespace Op

/-- The consumer whose operation it is. -/
def actor : Op → Option Nat
  | consumer i _ => some i
  | _ => none

/-- The atomic steps of an operation; `ids` gives the identity of each consumer. -/
def body [Partitioner π] (ids : Nat → BaseConsumer) : Op → Act (World π) RmqError Reply
  | .send call => (reply call.body .record).zoom World.brokerLens
  | .consumer i request => (request.body (ids i)).zoom (World.sessionLens i)
  | .shutdown => (reply Broker.shutdownBroker fun _ => .unit).zoom World.brokerLens

variable [Partitioner π] (ids : Nat → BaseConsumer)

theorem run_consumer (i : Nat) (request : Request) (w : World π) :
    (body ids (.consumer i request)).run w =
      (((request.body (ids i)).run ⟨w.broker, w.consumers i⟩).1,
        { broker := ((request.body (ids i)).run ⟨w.broker, w.consumers i⟩).2.broker
          consumers := Function.update w.consumers i ((request.body (ids i)).run ⟨w.broker, w.consumers i⟩).2.state }) :=
  Act.run_zoom ..

theorem snd_run_consumer (i : Nat) (request : Request) (w : World π) :
    ((body ids (.consumer i request)).run w).2 =
      { broker := ((request.body (ids i)).run ⟨w.broker, w.consumers i⟩).2.broker
        consumers := Function.update w.consumers i ((request.body (ids i)).run ⟨w.broker, w.consumers i⟩).2.state } := by
  rw [run_consumer]

end Op

/-- The world after operations that are executed one after the other. -/
def World.after [Partitioner π] (ids : Nat → BaseConsumer) (w : World π) (ops : List Op) : World π :=
  ops.foldl (fun w op => ((op.body ids).run w).2) w

/-- A message for the only partition of the topic `t`. -/
def sendOne : Op := .send ⟨"t", some 0, .raw none none, none, none, ⟨7, 0, fun _ => 0⟩⟩

/-- A thread that executes operations of at most 20 steps one after the other. -/
def oneByOne (ops : List Op) : List (Choice Nat Op) :=
  ops.flatMap fun op => .call 0 op :: List.replicate 20 (.step 0)

end RMemQueue
