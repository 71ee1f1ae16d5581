import RMemQueue.World

/-!
# What the steps of an operation do to the world

Every step of every operation leads to a later state of the broker, and a step of one consumer's operation leaves the
other consumers as they are (`Op.always_stepOf`).  Only `subscribe`, `unsubscribe` and `assign` touch an assignment.
-/

namespace RMemQueue

open Conc

variable {π : Type}

/-! ### Consumers -/

/-- Every step of the broker's operations that a consumer calls, apart from commits, is a `B`-step. -/
structure Broker.Covers (B : Broker π → Broker π → Prop) : Prop where
  refl : ∀ b, B b b
  joinGroup : ∀ order gid memberId topics, (Broker.joinGroup order gid memberId topics : BrokerM π _).Always B
  leaveGroup : ∀ order gid memberId, (Broker.leaveGroup order gid memberId : BrokerM π _).Always B

theorem Broker.Updates.covers {S : InMemoryBackend → InMemoryBackend → Prop} {R : Broker π → Broker π → Prop}
    (h : Broker.Updates S R) : Broker.Covers R :=
  ⟨h.refl, h.always_joinGroup, h.always_leaveGroup⟩

/-- The steps of joins and leaves are `B`-steps, where a group changes by its own operations. -/
structure Broker.GroupSteps (B : Broker π → Broker π → Prop) : Prop where
  refl : ∀ b, B b b
  ensureTopic : ∀ topic n, (Broker.ensureTopic topic n : BrokerM π Unit).Always B
  create : ∀ (b : Broker π) gid, B b { b with consumerGroups := b.consumerGroups.insert gid (.new gid) }
  join : ∀ (b : Broker π) gid g order memberId topics counts, b.consumerGroups.lookup gid = some g →
    B b { b with consumerGroups := b.consumerGroups.insert gid (g.join order memberId topics counts).2 }
  leave : ∀ (b : Broker π) gid g order memberId counts, b.consumerGroups.lookup gid = some g →
    B b { b with consumerGroups := b.consumerGroups.insert gid (g.leave order memberId counts) }

theorem Broker.GroupSteps.covers {B : Broker π → Broker π → Prop} (h : Broker.GroupSteps B) : Broker.Covers B where
  refl := h.refl
  joinGroup order gid memberId topics := by
    have hread : ∀ {α : Type} (g : Broker π → Outcome RmqError α), (Act.read g : BrokerM π α).Always B :=
      Act.always_read h.refl
    have hro : ∀ {α : Type} {x : BackendM α}, x.ReadOnly → (Broker.onBackend x : BrokerM π α).Always B :=
      fun hx => Act.Always.zoom hx fun b s hs => by rw [hs]; exact h.refl b
    refine (hread _).bind fun _ => (hread _).bind fun config => ?_
    refine (Act.Always.forEach (fun topic => h.ensureTopic topic _) topics).bind fun _ => ?_
    refine (Act.always_modify fun b => ?_).bind fun _ => ?_
    · split
      · exact h.refl b
      · exact h.create b gid
    · refine (hro (InMemoryBackend.readOnly_getPartitionNotifies topics)).bind fun _ => ?_
      refine (hro (InMemoryBackend.readOnly_metadata _ _)).bind fun _ => Act.always_step fun b => ?_
      cases hg : b.consumerGroups.lookup gid with
      | some g => exact h.join b gid g order memberId topics _ hg
      | none => exact h.refl b
  leaveGroup order gid memberId := by
    have hread : ∀ {α : Type} (g : Broker π → Outcome RmqError α), (Act.read g : BrokerM π α).Always B :=
      Act.always_read h.refl
    refine (hread _).bind fun _ => (hread _).bind fun _ => (hread _).bind fun config => ?_
    refine Act.Always.bind ?_ fun _ => Act.always_step fun b => ?_
    · exact Act.Always.zoom (InMemoryBackend.readOnly_metadata _ _) fun b s hs => by rw [hs]; exact h.refl b
    · cases hg : b.consumerGroups.lookup gid with
      | some g => exact h.leave b gid g order memberId _ hg
      | none => exact h.refl b

namespace Session

/-- A step of an operation: the broker changes as `B` allows, and the consumer's state as `P` allows. -/
def StepOf (B : Broker π → Broker π → Prop) (P : ConsumerState → ConsumerState → Prop) (s s' : Session π) : Prop :=
  B s.broker s'.broker ∧ P s.state s'.state

/-- A step of an operation: the broker gets later, and the consumer's state changes as `P` allows. -/
abbrev Step (P : ConsumerState → ConsumerState → Prop) : Session π → Session π → Prop := StepOf Broker.Later P

variable {B : Broker π → Broker π → Prop} {P : ConsumerState → ConsumerState → Prop} {α : Type}

theorem always_onBroker {x : BrokerM π α} (hP : ∀ s, P s s) (hx : x.Always B) : (onBroker x).Always (StepOf B P) :=
  Act.Always.zoom hx fun s _ h => ⟨h, hP s.state⟩

theorem always_readState (hB : ∀ b, B b b) (hP : ∀ s, P s s) (g : ConsumerState → α) :
    (readState g : ConsumerM π α).Always (StepOf B P) :=
  Act.always_read (fun s => ⟨hB s.broker, hP s.state⟩) _

theorem always_updateState (hB : ∀ b, B b b) {f : ConsumerState → ConsumerState} (h : ∀ s, P s (f s)) :
    (updateState f : ConsumerM π Unit).Always (StepOf B P) :=
  Act.always_modify fun s => ⟨hB s.broker, h s.state⟩

end Session

theorem always_reply {σ ε α : Type} {R : σ → σ → Prop} {x : Act σ ε α} (hx : x.Always R) (f : α → Reply) :
    (reply x f).Always R :=
  hx.bind fun _ => trivial

theorem after_reply {σ ε α : Type} {R N : σ → σ → Prop} {F : σ → Outcome ε Reply → σ → Prop} {x : Act σ ε α}
    {f : α → Reply} {s s' : σ} (hx : x.After R N (fun s o s' => F s (o.map f) s') s s') :
    (reply x f).After R N F s s' :=
  hx.bind (fun _ _ _ h => h) (fun _ _ _ h => h) fun _ _ h => h

namespace BaseConsumer

open Session

/-- What a consumer's operation relies on: the broker gets later, and nobody else works on the consumer. -/
abbrev Alone : Session π → Session π → Prop := Step fun s s' => s' = s

variable (c : BaseConsumer) {B : Broker π → Broker π → Prop} {P : ConsumerState → ConsumerState → Prop}

private theorem always_onFetched (hB : Broker.Covers B)
    (hset : ∀ (s : ConsumerState) key o, P s (s.setPosition key o))
    (hdel : ∀ (s : ConsumerState) key o idx, P s (s.delivered key o idx)) {rest : ConsumerM π (Option StoredMessage)}
    (hrest : rest.Always (StepOf B P)) (key : String × Int) (idx : Nat) (r : RmqResult (Option StoredMessage)) :
    (onFetched key idx rest r).Always (StepOf B P) := by
  rcases r with e | (_ | msg)
  · cases e with
    | offsetOutOfRange _ _ offset => exact (always_updateState hB.refl fun s => hset s key offset).bind fun _ => hrest
    | topicNotFound => exact hrest
    | partitionOutOfRange => exact hrest
    | groupNotFound => trivial
    | brokerShutdown => trivial
    | invalidConfig => trivial
    | custom => trivial
  · exact hrest
  · exact (always_updateState hB.refl fun s => hdel s key msg.offset _).bind fun _ => trivial

theorem always_pollFrom (hB : Broker.Covers B) (hP : ∀ s, P s s)
    (hset : ∀ (s : ConsumerState) key o, P s (s.setPosition key o))
    (hdel : ∀ (s : ConsumerState) key o idx, P s (s.delivered key o idx)) (first len : Nat) (l : List Nat) :
    (c.pollFrom first len l : ConsumerM π _).Always (StepOf B P) := by
  induction l with
  | nil => trivial
  | cons i l ih =>
    refine (always_readState hB.refl hP _).bind fun entry => ?_
    match entry with
    | none => exact ih
    | some (_, _, true) => exact ih
    | some (key, position, false) =>
      refine Act.Always.bind (Act.Always.attempt (always_onBroker hP ?_)) fun result => ?_
      · exact (Broker.readOnly_fetchOneFromPosition key.1 key.2 position c.groupId).always hB.refl
      · exact always_onFetched hB hset hdel ih key _ result

theorem always_newAssignment (hB : Broker.Covers B) (hP : ∀ s, P s s) (order : HashOrder) (topics : List String) :
    (c.newAssignment order topics : ConsumerM π _).Always (StepOf B P) := by
  unfold newAssignment
  split
  · exact always_onBroker hP (hB.joinGroup order _ c.memberId topics)
  · refine Act.Always.bind (Act.Always.forEach (fun topic => Act.Always.attempt ?_) topics) fun _ => trivial
    exact always_onBroker hP ((Broker.readOnly_metadata (some topic)).always hB.refl)

theorem always_leave (hB : Broker.Covers B) (hP : ∀ s, P s s) (order : HashOrder) :
    (c.leave order : ConsumerM π Unit).Always (StepOf B P) := by
  unfold leave
  split
  · exact always_onBroker hP (hB.leaveGroup order _ c.memberId)
  · trivial

theorem always_commit (hP : ∀ s, P s s)
    (hcommit : ∀ gid topic partition offset, (Broker.commitOffset gid topic partition offset : BrokerM π _).Always B)
    (tpl : TopicPartitionList) : (c.commit tpl : ConsumerM π Unit).Always (StepOf B P) := by
  unfold commit
  split
  · refine Act.Always.bind (Act.Always.forEach (fun elem => ?_) _) fun _ => trivial
    unfold commitElem
    split
    · exact always_onBroker hP (hcommit _ elem.topic elem.partition _)
    · trivial
  · trivial

end BaseConsumer

namespace Request

/-- The operations that set the assignment of a consumer. -/
def Assigns : Request → Prop
  | subscribe _ _ => True
  | unsubscribe _ => True
  | assign _ => True
  | _ => False

/-- The operations that commit offsets. -/
def Commits : Request → Prop
  | commit _ => True
  | commitMessage _ => True
  | _ => False

/-- The operation may store a position for the partition. -/
def Moves (key : String × Int) : Request → Prop
  | pollOnce => True
  | seek topic partition _ => key = (topic, partition)
  | storeOffset topic partition _ => key = (topic, partition)
  | _ => False

/-- The updates that the operation may make to the state of its consumer are `P`-steps. -/
structure Updates (r : Request) (P : ConsumerState → ConsumerState → Prop) : Prop where
  refl : ∀ s, P s s
  setPosition : ∀ key, r.Moves key → ∀ (s : ConsumerState) o, P s (s.setPosition key o)
  delivered : r = .pollOnce → ∀ (s : ConsumerState) key o idx, P s (s.delivered key o idx)
  pause : ∀ (s : ConsumerState) l, P s (s.pause l)
  resume : ∀ (s : ConsumerState) l, P s (s.resume l)
  subscribe : r.Assigns → ∀ (s : ConsumerState) topics l,
    P s { s with subscribedTopics := topics, assignedPartitions := l }
  assign : r.Assigns → ∀ (s : ConsumerState) l, P s { s with assignedPartitions := l, position := ∅ }
  cleared : r.Assigns → ∀ s : ConsumerState, P s s.cleared

open Session

/-- What the steps of a consumer's operation do to the broker and to the consumer's own state. -/
theorem always_stepOf (c : BaseConsumer) (r : Request) {B : Broker π → Broker π → Prop} (hB : Broker.Covers B)
    (hcommit : r.Commits → ∀ gid topic partition offset,
      (Broker.commitOffset gid topic partition offset : BrokerM π _).Always B)
    {P : ConsumerState → ConsumerState → Prop} (h : r.Updates P) :
    (r.body c : ConsumerM π Reply).Always (StepOf B P) := by
  have hro : ∀ {α : Type} {x : ConsumerM π α}, x.ReadOnly → x.Always (StepOf B P) :=
    fun hx => hx.always fun s => ⟨hB.refl s.broker, h.refl s.state⟩
  have hread : ∀ {α : Type} (g : ConsumerState → α), (readState g : ConsumerM π α).Always (StepOf B P) :=
    always_readState hB.refl h.refl
  cases r with
  | pollOnce =>
    refine always_reply ((hread _).bind fun r => ?_) _
    show Act.Always _ (if r.2 = 0 then _ else _)
    split
    · trivial
    -- a poll resets positions, and stores the one after its message
    · exact c.always_pollFrom hB h.refl (fun s key => h.setPosition key trivial s) (h.delivered rfl) _ _ _
  | subscribe order topics =>
    refine always_reply ((c.always_newAssignment hB h.refl order topics).bind fun l => ?_) _
    exact always_updateState hB.refl fun s => h.subscribe trivial s topics l
  | unsubscribe order =>
    refine always_reply ((hread _).bind fun _ => (c.always_leave hB h.refl order).bind fun _ => ?_) _
    exact always_updateState hB.refl fun s => h.cleared trivial s
  | assignment => exact always_reply (hread _) _
  | assign partitions => exact always_reply (always_updateState hB.refl fun s => h.assign trivial s partitions) _
  | seek topic partition offset =>
    refine always_reply ((hro (c.readOnly_seekTarget topic partition offset)).bind fun target => ?_) _
    exact always_updateState hB.refl fun s => h.setPosition _ rfl s target
  | commit tpl => exact always_reply (c.always_commit h.refl (hcommit trivial) tpl) _
  | commitMessage msg => exact always_reply (c.always_commit h.refl (hcommit trivial) _) _
  | storeOffset topic partition offset =>
    exact always_reply (always_updateState hB.refl fun s => h.setPosition _ rfl s offset) _
  | committed => exact always_reply (hro c.readOnly_committed) _
  | positions => exact always_reply (hread _) _
  | pause partitions => exact always_reply (always_updateState hB.refl fun s => h.pause s partitions) _
  | resume partitions => exact always_reply (always_updateState hB.refl fun s => h.resume s partitions) _
  | metadata topic => exact always_reply (always_onBroker h.refl ((Broker.readOnly_metadata topic).always hB.refl)) _
  | watermarks topic partition =>
    exact always_reply (always_onBroker h.refl ((Broker.readOnly_watermarks topic partition).always hB.refl)) _

/-- What the steps of a consumer's operation do to its own state. -/
theorem always_body (c : BaseConsumer) (r : Request) {P : ConsumerState → ConsumerState → Prop} (h : r.Updates P) :
    (r.body c : ConsumerM π Reply).Always (Step P) :=
  r.always_stepOf c Broker.updates_later.covers (fun _ => Broker.always_commitOffset) h

end Request

/-! ### The world -/

/-- A step of the operation: the broker gets later, other consumers stay as they are, and so does the assignment of
the consumer itself unless the operation sets it. -/
def Op.StepOf (op : Op) (w w' : World π) : Prop :=
  w.broker.Later w'.broker ∧ ∀ i, w'.consumers i = w.consumers i ∨
    ∃ request, op = .consumer i request ∧
      (¬request.Assigns → (w'.consumers i).assignedPartitions = (w.consumers i).assignedPartitions)

theorem Op.always_stepOf [Partitioner π] (ids : Nat → BaseConsumer) (op : Op) :
    (op.body ids : Act (World π) RmqError Reply).Always op.StepOf := by
  cases op with
  | send call =>
    have hbody : (call.body : BrokerM π RecordMetadata).Always Broker.Later := by
      unfold ProduceCall.body
      exact Broker.updates_later.always_produce _ _ _ _ _ _
    exact Act.Always.zoom (always_reply hbody _) fun w b h => ⟨h, fun i => Or.inl rfl⟩
  | consumer i request =>
    have hbody : (request.body (ids i) : ConsumerM π Reply).Always (Session.Step fun s s' =>
        ¬request.Assigns → s'.assignedPartitions = s.assignedPartitions) :=
      request.always_body (ids i)
        { refl := fun _ _ => rfl
          setPosition := fun _ _ _ _ _ => rfl
          delivered := fun _ _ _ _ _ _ => rfl
          pause := fun _ _ _ => rfl
          resume := fun _ _ _ => rfl
          subscribe := fun h _ _ _ hn => absurd h hn
          assign := fun h _ _ hn => absurd h hn
          cleared := fun h _ hn => absurd h hn }
    refine Act.Always.zoom hbody fun w s h => ⟨h.1, fun j => ?_⟩
    -- the other consumers are not in the session of the operation
    by_cases hj : j = i
    · subst hj
      refine Or.inr ⟨request, rfl, ?_⟩
      have hself : ((World.sessionLens j).put w s).consumers j = s.state := Function.update_self ..
      rw [hself]
      exact h.2
    · exact Or.inl (Function.update_of_ne hj ..)
  | shutdown =>
    exact Act.Always.zoom (always_reply Broker.always_shutdownBroker _) fun w b h => ⟨h, fun i => Or.inl rfl⟩

/-- What the steps of an operation other than the shutdown do to the broker. -/
theorem Op.always_updates [Partitioner π] (ids : Nat → BaseConsumer) {op : Op} (hop : op ≠ .shutdown)
    {S : InMemoryBackend → InMemoryBackend → Prop} {R : Broker π → Broker π → Prop} (h : Broker.Updates S R)
    (hcommit : ∀ i request, op = .consumer i request → request.Commits → ∀ gid topic partition offset,
      (Broker.commitOffset gid topic partition offset : BrokerM π _).Always R) :
    (op.body ids : Act (World π) RmqError Reply).Always fun w w' => R w.broker w'.broker := by
  cases op with
  | send call =>
    have hbody : (call.body : BrokerM π RecordMetadata).Always R := by
      unfold ProduceCall.body
      exact h.always_produce _ _ _ _ _ _
    exact Act.Always.zoom (always_reply hbody _) fun _ _ h => h
  | consumer i request =>
    have hany : request.Updates fun _ _ => True := by
      constructor <;> intros <;> trivial
    exact Act.Always.zoom (request.always_stepOf (ids i) h.covers (hcommit i request rfl) hany) fun _ _ h => h.1
  | shutdown => exact absurd rfl hop

/-- A step of an operation that works on another consumer or on none. -/
theorem Op.StepOf.frame {op : Op} {w w' : World π} (hs : op.StepOf w w') {i : Nat} (h : op.actor ≠ some i) :
    w'.consumers i = w.consumers i := by
  refine (hs.2 i).elim id ?_
  rintro ⟨request, rfl, -⟩
  exact absurd rfl h

end RMemQueue
