import RMemQueue.Lib.Points
import RMemQueue.World

/-!
# Where an operation on a consumer is (`base_consumer.rs`)

The places in `poll_once`, `seek`, `store_offset`, `assign` and `unsubscribe`: a poll keeps the bounds that it has read
and the entries that it has gone through; each of the others asks the broker first, if it has to, and then updates the
state in one critical section.

`StateUpdate.Spares` says when an update does not get in the way of a poll that is in flight: it stores no position that
the poll has read, and changes neither the entries that the poll has read nor where a poll starts.
-/

namespace RMemQueue

open Conc Session

/-! ### Updates of the consumer's state -/

/-- What a critical section does to the state of a consumer. -/
inductive StateUpdate where
  | position (key : String × Int) (offset : Int)
  | deliver (key : String × Int) (offset : Int) (idx : Nat)
  | assign (partitions : TopicPartitionList)
  | clear

namespace StateUpdate

def apply : StateUpdate → ConsumerState → ConsumerState
  | position key offset, s => s.setPosition key offset
  | deliver key offset idx, s => s.delivered key offset idx
  | assign partitions, s => { s with assignedPartitions := partitions, position := ∅ }
  | clear, s => s.cleared

/-- The last critical section of an operation that is not a poll. -/
def last {π : Type} (u : StateUpdate) : ConsumerM π Reply := reply (updateState u.apply) fun _ => .unit

end StateUpdate

namespace ConsumerState

/-- The partition that a poll asks for at an index: none if the entry is paused. -/
def polled (s : ConsumerState) (idx : Nat) : Option (String × Int) :=
  (s.assignedPartitions.elements[idx]?).bind fun elem => if elem.key ∈ s.paused then none else some elem.key

end ConsumerState

variable {π : Type}

/-- What an operation does before it updates the state, and the update. -/
def Request.ask (c : BaseConsumer) : Request → Option (ConsumerM π StateUpdate)
  | unsubscribe order => some do
    let _ ← readState (·.assignedPartitions)
    c.leave order
    pure .clear
  | assign partitions => some (pure (.assign partitions))
  | seek topic partition offset => some do
    let target ← c.seekTarget topic partition offset
    pure (.position (topic, partition) target)
  | storeOffset topic partition offset => some (pure (.position (topic, partition) offset))
  | _ => none

theorem Request.body_ask {c : BaseConsumer} {r : Request} {x : ConsumerM π StateUpdate} (h : r.ask c = some x) :
    r.body c = x >>= StateUpdate.last := by
  cases r with
  | unsubscribe order =>
    obtain rfl := Option.some.inj h
    simp only [Request.body, reply, BaseConsumer.unsubscribe, Act.bind_assoc]
    rfl
  | assign partitions =>
    obtain rfl := Option.some.inj h
    rfl
  | seek topic partition offset =>
    obtain rfl := Option.some.inj h
    simp only [Request.body, reply, BaseConsumer.seek, Act.bind_assoc]
    rfl
  | storeOffset topic partition offset =>
    obtain rfl := Option.some.inj h
    rfl
  | _ => cases h

/-! ### The places of a poll -/

/-- A pass over the entries: where it has begun, and the entries that it has gone through, the one that it has come to
and those that are left. -/
structure Pass where
  start : Nat
  len : Nat
  passed : List Nat
  i : Nat
  todo : List Nat

namespace Pass

def idx (x : Pass) : Nat := (x.start + x.i) % x.len

/-- The partitions of entries that the poll has read. -/
def keys (x : Pass) (s : ConsumerState) (entries : List Nat) : List (String × Int) :=
  entries.filterMap fun i => s.polled ((x.start + i) % x.len)

/-- What is left of the poll after the present entry. -/
def rest (c : BaseConsumer) (x : Pass) : ConsumerM π (Option StoredMessage) := c.pollFrom x.start x.len x.todo

end Pass

/-- What is left of a fetch, which only reads. -/
structure Fetching (π : Type) where
  f : Broker π → Broker π
  k : Broker π → BrokerM π (Option StoredMessage)
  readOnly : (Act.atomic f k).ReadOnly

def Fetching.call (y : Fetching π) : BrokerM π (Option StoredMessage) := .atomic y.f y.k

/-- The critical sections of a poll: the first, those that read an entry, that belong to a fetch, and that store. -/
inductive PollPoint (π : Type) where
  | start
  | look (x : Pass)
  | fetch (x : Pass) (key : String × Int) (y : Fetching π)
  | deliver (x : Pass) (key : String × Int) (msg : StoredMessage)
  | reset (x : Pass) (key : String × Int) (offset : Int)

namespace PollPoint

variable (c : BaseConsumer)

/-- `poll_once` from a critical section on. -/
def code : PollPoint π → ConsumerM π (Option StoredMessage)
  | start => c.pollOnce
  | look x => c.pollFrom x.start x.len (x.i :: x.todo)
  | fetch x key y => do
    let result ← (onBroker y.call).attempt
    BaseConsumer.onFetched key x.idx (x.rest c) result
  | deliver x key msg => do
    updateState (·.delivered key msg.offset x.idx)
    pure (some msg)
  | reset x key offset => do
    updateState (·.setPosition key offset)
    x.rest c

/-- The place where entries are left. -/
def lookFrom (start len : Nat) (passed : List Nat) : List Nat → PollPoint π
  | [] => .start
  | i :: todo => look ⟨start, len, passed, i, todo⟩

/-- The next entry comes. -/
def onward (x : Pass) : PollPoint π := lookFrom x.start x.len (x.passed ++ [x.i]) x.todo

/-- A fetch begins. -/
def ask (x : Pass) (key : String × Int) (position : Option Int) : PollPoint π :=
  fetch x key ⟨_, _, Broker.readOnly_fetchOneFromPosition key.1 key.2 position c.groupId⟩

/-- The place after the next critical section, if that is not the last. -/
def next (s : Session π) : PollPoint π → PollPoint π
  | start => lookFrom s.state.pollBounds.1 s.state.pollBounds.2 [] (List.range s.state.pollBounds.2)
  | look x =>
    match s.state.pollEntry x.idx with
    | some (key, position, false) => ask c x key position
    | _ => onward x
  | fetch x key y =>
    match h : y.k s.broker with
    | .atomic f k => fetch x key ⟨f, k, h ▸ (y.readOnly s.broker).2⟩
    | .ret (.ok (some msg)) => deliver x key msg
    | .ret (.err (.offsetOutOfRange _ _ offset)) => reset x key offset
    | .ret _ => onward x
  | deliver x key msg => deliver x key msg
  | reset x _ _ => onward x

theorem goes_code (p : PollPoint π) : (p.code c).Goes := by
  cases p <;> exact ⟨_, _, rfl⟩

private theorem code_lookFrom {start len : Nat} {todo : List Nat}
    (h : (c.pollFrom start len todo : ConsumerM π _).Goes) (passed : List Nat) :
    (lookFrom start len passed todo : PollPoint π).code c = c.pollFrom start len todo := by
  cases todo with
  | nil =>
    obtain ⟨f, k, h⟩ := h
    cases h
  | cons i todo => rfl

theorem code_next (s : Session π) (p : PollPoint π) (h : ((p.code c).rest s).Goes) :
    (p.next c s).code c = (p.code c).rest s := by
  cases p with
  | start =>
    have hrest : ((start : PollPoint π).code c).rest s = if s.state.pollBounds.2 = 0 then pure none
        else c.pollFrom s.state.pollBounds.1 s.state.pollBounds.2 (List.range s.state.pollBounds.2) := rfl
    rw [hrest] at h ⊢
    split
    · rename_i hlen
      rw [if_pos hlen] at h
      obtain ⟨f, k, h⟩ := h
      cases h
    · rename_i hlen
      rw [if_neg hlen] at h
      exact code_lookFrom c h []
  | look x =>
    have hrest : ((look x : PollPoint π).code c).rest s = c.onEntry x.idx (x.rest c) (s.state.pollEntry x.idx) := rfl
    rw [hrest] at h ⊢
    rw [next]
    rcases he : s.state.pollEntry x.idx with _ | ⟨key, position, _ | _⟩
    · rw [he] at h
      exact code_lookFrom c h _
    · rfl
    · rw [he] at h
      exact code_lookFrom c h _
  | fetch x key y =>
    have hrest : ((fetch x key y).code c).rest s =
        (onBroker (y.k s.broker)).attempt >>= BaseConsumer.onFetched key x.idx (x.rest c) := rfl
    rw [hrest] at h ⊢
    rw [next]
    split
    · rename_i f k hk
      show (onBroker (Act.atomic f k)).attempt >>= _ = _
      rw [hk]
    · rename_i msg hk
      rw [hk]
      rfl
    · rename_i offset hk
      rw [hk]
      rfl
    · rename_i o hmsg hreset hk
      rw [hk] at h ⊢
      rcases o with (_ | msg) | e | _
      · exact code_lookFrom c h _
      · exact (hmsg msg rfl).elim
      · cases e with
        | offsetOutOfRange topic partition offset => exact (hreset topic partition offset rfl).elim
        | topicNotFound => exact code_lookFrom c h _
        | partitionOutOfRange => exact code_lookFrom c h _
        | groupNotFound =>
          obtain ⟨f, k, h⟩ := h
          cases h
        | brokerShutdown =>
          obtain ⟨f, k, h⟩ := h
          cases h
        | invalidConfig =>
          obtain ⟨f, k, h⟩ := h
          cases h
        | custom =>
          obtain ⟨f, k, h⟩ := h
          cases h
      · obtain ⟨f, k, h⟩ := h
        cases h
  | deliver x key msg =>
    obtain ⟨f, k, h⟩ := h
    cases h
  | reset x key offset => exact code_lookFrom c h _

/-- The pass of a poll that has read where it starts, and the entries that it has read. -/
def entries : PollPoint π → Option (Pass × List Nat)
  | start => none
  | look x => some (x, x.passed)
  | fetch x _ _ => some (x, x.passed ++ [x.i])
  | deliver x _ _ => some (x, x.passed ++ [x.i])
  | reset x _ _ => some (x, x.passed ++ [x.i])

/-- The update that the next critical section makes. -/
def update : PollPoint π → Option StateUpdate
  | deliver x key msg => some (.deliver key msg.offset x.idx)
  | reset _ key offset => some (.position key offset)
  | _ => none

end PollPoint

/-! ### All operations -/

/-- A place in an operation on a consumer. -/
inductive SharedPoint (π : Type) where
  | poll (p : PollPoint π)
  | ask (f : Session π → Session π) (k : Session π → ConsumerM π StateUpdate)
  | update (u : StateUpdate)
  | other (x : ConsumerM π Reply)

namespace SharedPoint

variable (c : BaseConsumer)

/-- What is left of the operation. -/
def code : SharedPoint π → ConsumerM π Reply
  | poll p => reply (p.code c) .message
  | ask f k => .atomic f k >>= StateUpdate.last
  | update u => u.last
  | other x => x

/-- The place where an operation has to find out its update. -/
def asking : ConsumerM π StateUpdate → SharedPoint π
  | .ret (.ok u) => update u
  | .ret (.err e) => other (.ret (.err e))
  | .ret .panic => other (.ret .panic)
  | .atomic f k => ask f k

theorem code_asking (x : ConsumerM π StateUpdate) : (asking x).code c = x >>= StateUpdate.last := by
  rcases x with (u | e | _) | ⟨f, k⟩ <;> rfl

def start (r : Request) : SharedPoint π :=
  match r with
  | .pollOnce => poll .start
  | r => (r.ask c).elim (other (r.body c)) asking

/-- The place after the next critical section, if that is not the last. -/
def next (s : Session π) : SharedPoint π → SharedPoint π
  | poll p => poll (p.next c s)
  | ask _ k => asking (k s)
  | update u => update u
  | other x => other (x.rest s)

private theorem code_start (r : Request) : (start c r : SharedPoint π).code c = r.body c := by
  have hask : ((r.ask c).elim (other (r.body c)) asking : SharedPoint π).code c = r.body c := by
    cases h : (r.ask c : Option (ConsumerM π StateUpdate)) with
    | none => rfl
    | some x => exact (code_asking c x).trans (Request.body_ask h).symm
  cases r with
  | pollOnce => rfl
  | _ => exact hask

private theorem code_next (p : SharedPoint π) (s : Session π) (h : ((p.code c).rest s).Goes) :
    (p.next c s).code c = (p.code c).rest s := by
  cases p with
  | poll p =>
    have hrest : ((poll p).code c).rest s = reply ((p.code c).rest s) .message := (p.goes_code c).rest_bind _ s
    rw [hrest] at h ⊢
    exact congrArg (reply · .message) (p.code_next c s h.of_bind_pure)
  | ask f k => exact code_asking c (k s)
  | update u =>
    obtain ⟨f, k, h⟩ := h
    cases h
  | other x => rfl

/-- The update that the next critical section makes. -/
def stores : SharedPoint π → Option StateUpdate
  | poll p => p.update
  | update u => some u
  | _ => none

/-- The pass of a poll in flight, and the entries that it has read. -/
def entries : SharedPoint π → Option (Pass × List Nat)
  | poll p => p.entries
  | _ => none

end SharedPoint

/-- The places of the operations on a consumer. -/
def sharedPoints (c : BaseConsumer) : Points (Request.body c : Request → ConsumerM π Reply) (SharedPoint π) where
  code := SharedPoint.code c
  start := SharedPoint.start c
  advance p s := p.next c s
  code_start := SharedPoint.code_start c
  code_advance := SharedPoint.code_next c

/-! ### Updates that get in the way of a poll -/

namespace StateUpdate

/-- The update does not get in the way of a poll that has read the entries. -/
def Spares (u : StateUpdate) (s : ConsumerState) (x : Pass) (entries : List Nat) : Prop :=
  (u.apply s).pollBounds = s.pollBounds ∧
    match u with
    | position key _ => key ∉ x.keys s entries
    | deliver key _ _ => key ∉ x.keys s entries
    | assign _ => entries = []
    | clear => entries = []

instance (u : StateUpdate) (s : ConsumerState) (x : Pass) (entries : List Nat) : Decidable (u.Spares s x entries) :=
  match u with
  | position _ _ => inferInstanceAs (Decidable (_ ∧ _ ∉ _))
  | deliver _ _ _ => inferInstanceAs (Decidable (_ ∧ _ ∉ _))
  | assign _ => inferInstanceAs (Decidable (_ ∧ entries = []))
  | clear => inferInstanceAs (Decidable (_ ∧ entries = []))

end StateUpdate

end RMemQueue
