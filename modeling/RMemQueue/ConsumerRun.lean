import RMemQueue.BrokerRun
import RMemQueue.Consumer
import RMemQueue.Lib.WriteLog
import Mathlib.Data.List.Rotate

/-!
# What the consumer's operations compute

The sequential reading of the consumer: what one round of `poll_once` does, and what a poll of a consumer with a
single assigned partition returns.
-/

namespace RMemQueue

open Conc

namespace Session

variable {π α : Type}

@[simp] theorem run_onBroker (x : BrokerM π α) (s : Session π) :
    (onBroker x).run s = ((x.run s.broker).1, { s with broker := (x.run s.broker).2 }) :=
  Act.run_zoom brokerLens x s

@[simp] theorem run_readState (g : ConsumerState → α) (s : Session π) : (readState g).run s = (.ok (g s.state), s) := rfl

@[simp] theorem run_updateState (f : ConsumerState → ConsumerState) (s : Session π) :
    (updateState f).run s = (.ok (), { s with state := f s.state }) := rfl

theorem readOnly_onBroker {α : Type} {x : BrokerM π α} (hx : x.ReadOnly) : (onBroker x).ReadOnly :=
  Act.Always.zoom hx fun s b h => by rw [h]; rfl

end Session

namespace BaseConsumer

variable {π : Type} (c : BaseConsumer)

open Session WriteLog

/-- What a poll does with the result of a fetch: it ends, or goes on with a new state. -/
def afterFetch (key : String × Int) (idx : Nat) (s : Session π) :
    Outcome RmqError (Option StoredMessage) → Outcome RmqError (Option StoredMessage) × Session π ⊕ Session π
  | .ok (some msg) => .inl (.ok (some msg), { s with state := s.state.delivered key msg.offset idx })
  | .ok none => .inr s
  | .err (.offsetOutOfRange _ _ offset) => .inr { s with state := s.state.setPosition key offset }
  | .err (.topicNotFound _) => .inr s
  | .err (.partitionOutOfRange _ _) => .inr s
  | .err e => .inl (.err e, s)
  | .panic => .inl (.panic, s)

/-- One round of `poll_once` on the entry at an index. -/
def pollRound (s : Session π) (idx : Nat) : Outcome RmqError (Option StoredMessage) × Session π ⊕ Session π :=
  match s.state.pollEntry idx with
  | none => .inr s
  | some (_, _, true) => .inr s
  | some (key, position, false) =>
    afterFetch key idx s ((Broker.fetchOneFromPosition key.1 key.2 position c.groupId).run s.broker).1

/-- A round passes by, or asks the broker about an entry that is not paused. -/
theorem pollRound_passes_or (s : Session π) (idx : Nat) : c.pollRound s idx = .inr s ∨
    ∃ key position, s.state.pollEntry idx = some (key, position, false) := by
  rcases he : s.state.pollEntry idx with _ | ⟨key, position, _ | _⟩
  · exact Or.inl (by rw [pollRound, he])
  · exact Or.inr ⟨key, position, rfl⟩
  · exact Or.inl (by rw [pollRound, he])

/-- A paused entry is passed by. -/
theorem pollRound_of_paused {s : Session π} {idx : Nat} {elem : TopicPartitionElem}
    (h : s.state.assignedPartitions.elements[idx]? = some elem) (hp : elem.key ∈ s.state.paused) :
    c.pollRound s idx = .inr s := by
  rw [pollRound, ConsumerState.pollEntry_of_getElem? h, decide_eq_true hp]

theorem run_pollFrom_nil (start len : Nat) (s : Session π) : (c.pollFrom start len []).run s = (.ok none, s) := rfl

/-- A poll goes on after a round that does not end it. -/
theorem run_pollFrom_cons (start len i : Nat) (rest : List Nat) (s : Session π) :
    (c.pollFrom start len (i :: rest)).run s =
      (c.pollRound s ((start + i) % len)).elim id fun s' => (c.pollFrom start len rest).run s' := by
  rw [pollFrom, Act.run_bind, run_readState, Outcome.andThen_ok, pollRound]
  rcases s.state.pollEntry ((start + i) % len) with _ | ⟨key, position, paused⟩
  · rfl
  cases paused with
  | true => rfl
  | false =>
    dsimp only
    rw [onEntry, Act.run_bind, Act.run_attempt, run_onBroker,
      (Broker.readOnly_fetchOneFromPosition key.1 key.2 position c.groupId).run s.broker]
    rcases ((Broker.fetchOneFromPosition key.1 key.2 position c.groupId).run s.broker).1 with (_ | msg) | e | _
    · rfl
    · rfl
    · cases e <;> rfl
    · rfl

theorem run_pollOnce (s : Session π) :
    c.pollOnce.run s =
      if s.state.pollBounds.2 = 0 then (.ok none, s)
      else (c.pollFrom s.state.pollBounds.1 s.state.pollBounds.2 (List.range s.state.pollBounds.2)).run s := by
  rw [pollOnce, Act.run_bind, run_readState, Outcome.andThen_ok]
  show Act.run (if s.state.pollBounds.2 = 0 then _ else _) s = _
  split <;> rfl

/-- The indices that a poll goes through are those of the rotated list. -/
theorem forall₂_rotate {α : Type} (l : List α) (start : Nat) :
    List.Forall₂ (fun i e => l[(start + i) % l.length]? = some e) (List.range l.length) (l.rotate start) := by
  rw [List.forall₂_iff_get]
  refine ⟨by simp, fun i hi hi' => ?_⟩
  have hlt : i < l.length := by simpa using hi
  simp only [List.get_eq_getElem, List.getElem_range]
  rw [Nat.add_comm, ← List.getElem?_rotate hlt]
  exact List.getElem?_eq_getElem _

/-- A poll comes to every entry. -/
theorem exists_polled {α : Type} {l : List α} {e : α} (he : e ∈ l) (start : Nat) :
    ∃ i ∈ List.range l.length, l[(start + i) % l.length]? = some e := by
  obtain ⟨j, hj, hje⟩ := List.getElem_of_mem (List.mem_rotate.2 he : e ∈ l.rotate start)
  have hall := List.forall₂_iff_get.1 (forall₂_rotate l start)
  have hlt : j < l.length := by simpa using hj
  refine ⟨j, List.mem_range.2 hlt, ?_⟩
  have hentry := hall.2 j (by simpa using hlt) hj
  simpa [hje] using hentry

/-- A poll of a consumer with a single assigned partition. -/
theorem run_pollOnce_single {s : Session π} {elem : TopicPartitionElem}
    (h : s.state.assignedPartitions.elements = [elem]) :
    c.pollOnce.run s = (c.pollRound s 0).elim id fun s' => (.ok none, s') := by
  have hbounds : s.state.pollBounds = (s.state.pollStart % 1, 1) := by simp [ConsumerState.pollBounds, h]
  rw [run_pollOnce, hbounds, if_neg Nat.one_ne_zero]
  show (c.pollFrom _ 1 [0]).run s = _
  rw [run_pollFrom_cons]
  simp only [Nat.mod_one]
  rfl

/-- A subscription of a group member. -/
theorem run_subscribe_group {gid : String} (hc : c.groupId = some gid) (order : HashOrder) (topics : List String)
    (s : Session π) : (c.subscribe order topics).run s =
      ((Broker.joinGroup order gid c.memberId topics).run s.broker).1.andThen
        ⟨((Broker.joinGroup order gid c.memberId topics).run s.broker).2, s.state⟩ fun assignment s' =>
          (.ok (), { s' with state := { s'.state with
            subscribedTopics := topics, assignedPartitions := assignment } }) := by
  rw [subscribe, Act.run_bind, newAssignment, hc]
  dsimp only
  rw [run_onBroker]
  simp only [run_updateState]

/-- The end of a subscription of a group member. -/
theorem run_unsubscribe_group {gid : String} (hc : c.groupId = some gid) (order : HashOrder) (s : Session π) :
    (c.unsubscribe order).run s =
      ((Broker.leaveGroup order gid c.memberId).run s.broker).1.andThen
        ⟨((Broker.leaveGroup order gid c.memberId).run s.broker).2, s.state⟩ fun _ s' =>
          (.ok (), { s' with state := s'.state.cleared }) := by
  rw [unsubscribe, Act.run_bind, run_readState, Outcome.andThen_ok, Act.run_bind, leave, hc]
  dsimp only
  rw [run_onBroker]
  simp only [run_updateState]

theorem readOnly_seekTarget (topic : String) (partition : Int) (offset : Offset) :
    (c.seekTarget topic partition offset : ConsumerM π Int).ReadOnly := by
  have hw : (onBroker (Broker.watermarks topic partition) : ConsumerM π _).ReadOnly :=
    readOnly_onBroker (Broker.readOnly_watermarks topic partition)
  cases offset with
  | beginning => exact hw.bind fun _ => trivial
  | end_ => exact hw.bind fun _ => trivial
  | offset o => trivial
  | stored =>
    unfold seekTarget
    dsimp only
    split
    · exact (readOnly_onBroker (Broker.readOnly_committedOffset _ topic partition)).bind fun _ => trivial
    · trivial
  | offsetTail tail =>
    refine hw.bind fun r => ?_
    obtain ⟨oldest, newest⟩ := r
    dsimp only
    split <;> trivial

theorem readOnly_committed : (c.committed : ConsumerM π _).ReadOnly := by
  refine (Act.readOnly_read _).bind fun assigned => ?_
  cases c.groupId with
  | none => trivial
  | some gid =>
    refine Act.ReadOnly.bind (Act.Always.forEach (fun elem => ?_) _) fun _ => trivial
    exact (readOnly_onBroker (Broker.readOnly_committedOffset _ elem.topic elem.partition)).bind fun _ => trivial

/-! ### Commits -/

/-- What the commit of a list entry writes to the store. -/
def elemWrites (gid : String) (elem : TopicPartitionElem) : List ((String × String × Int) × Int) :=
  match elem.offset with
  | .offset o => [((gid, elem.topic, elem.partition), o)]
  | _ => []

/-- What the commit of a list writes to the store, entry by entry. -/
def writes (gid : String) (tpl : TopicPartitionList) : List ((String × String × Int) × Int) :=
  tpl.elements.flatMap (elemWrites gid)

/-- The session after writes to the store. -/
def written (s : Session π) (log : List ((String × String × Int) × Int)) : Session π :=
  { s with broker := { s.broker with offsetStore := writeAll s.broker.offsetStore log } }

private theorem written_append (s : Session π) (log log' : List ((String × String × Int) × Int)) :
    written s (log ++ log') = written (written s log) log' := by
  rw [written, writeAll_append]
  rfl

private theorem run_commitElem {s : Session π} {gid : String} (h : s.broker.Commits gid) (elem : TopicPartitionElem) :
    (commitElem gid elem).run s = (.ok (), written s (elemWrites gid elem)) := by
  unfold commitElem elemWrites
  cases elem.offset with
  | offset o =>
    dsimp only
    rw [run_onBroker, Broker.run_commitOffset h]
    rfl
  | _ => rfl

private theorem run_commitElems {s : Session π} {gid : String} (h : s.broker.Commits gid)
    (elems : List TopicPartitionElem) :
    ∃ us, (Act.forEach (commitElem gid) elems).run s = (.ok us, written s (elems.flatMap (elemWrites gid))) := by
  induction elems generalizing s with
  | nil => exact ⟨[], rfl⟩
  | cons elem elems ih =>
    obtain ⟨us, hrest⟩ := ih (s := written s (elemWrites gid elem)) h
    refine ⟨() :: us, ?_⟩
    rw [Act.forEach, Act.run_bind, run_commitElem h, Outcome.andThen_ok, Act.run_bind, hrest, List.flatMap_cons,
      written_append]
    rfl

private theorem run_commitElem_of_not {s : Session π} {gid : String} (h : ¬s.broker.Commits gid)
    (elem : TopicPartitionElem) :
    (elemWrites gid elem = [] ∧ (commitElem gid elem).run s = (.ok (), s)) ∨
      ∃ e, (commitElem gid elem).run s = (.err e, s) := by
  unfold commitElem elemWrites
  cases elem.offset with
  | offset o =>
    obtain ⟨e, he⟩ := Broker.run_requireGroup_of_not h fun _ => .modify fun b =>
      { b with offsetStore := b.offsetStore.insert (gid, elem.topic, elem.partition) o }
    refine Or.inr ⟨e, ?_⟩
    dsimp only
    rw [run_onBroker, Broker.commitOffset, he]
  | _ => exact Or.inl ⟨rfl, rfl⟩

/-- Without a group that takes commits, the first absolute offset of a list fails. -/
private theorem run_commitElems_of_not {s : Session π} {gid : String} (h : ¬s.broker.Commits gid)
    (elems : List TopicPartitionElem) :
    (elems.flatMap (elemWrites gid) = [] ∧ ∃ us, (Act.forEach (commitElem gid) elems).run s = (.ok us, s)) ∨
      ∃ e, (Act.forEach (commitElem gid) elems).run s = (.err e, s) := by
  induction elems with
  | nil => exact Or.inl ⟨rfl, [], rfl⟩
  | cons elem elems ih =>
    rw [List.flatMap_cons, Act.forEach, Act.run_bind]
    rcases run_commitElem_of_not h elem with ⟨hnone, hrun⟩ | ⟨e, hrun⟩
    · rw [hnone, hrun, List.nil_append, Outcome.andThen_ok, Act.run_bind]
      rcases ih with ⟨hnil, us, hrest⟩ | ⟨e, hrest⟩
      · exact Or.inl ⟨hnil, () :: us, by rw [hrest]; rfl⟩
      · exact Or.inr ⟨e, by rw [hrest]; rfl⟩
    · exact Or.inr ⟨e, by rw [hrun]; rfl⟩

/-- A commit for a group that takes commits writes the absolute offsets of the list, in the order of the list. -/
theorem run_commit {s : Session π} {gid : String} (hc : c.groupId = some gid) (h : s.broker.Commits gid)
    (tpl : TopicPartitionList) : (c.commit tpl).run s = (.ok (), written s (writes gid tpl)) := by
  obtain ⟨us, hrun⟩ := run_commitElems h tpl.elements
  rw [commit, hc]
  dsimp only
  rw [Act.run_bind, hrun]
  rfl

/-- Any other commit of a group fails, if there is anything to be written. -/
theorem run_commit_of_not {s : Session π} {gid : String} (hc : c.groupId = some gid) (h : ¬s.broker.Commits gid)
    (tpl : TopicPartitionList) :
    (writes gid tpl = [] ∧ (c.commit tpl).run s = (.ok (), s)) ∨ ∃ e, (c.commit tpl).run s = (.err e, s) := by
  rw [commit, hc]
  dsimp only
  rw [Act.run_bind]
  rcases run_commitElems_of_not h tpl.elements with ⟨hnil, us, hrun⟩ | ⟨e, hrun⟩
  · exact Or.inl ⟨hnil, by rw [hrun]; rfl⟩
  · exact Or.inr ⟨e, by rw [hrun]; rfl⟩

/-- `commit_message` stores the offset after the message's. -/
theorem run_commitMessage {s : Session π} {gid : String} (hc : c.groupId = some gid) (h : s.broker.Commits gid)
    (msg : StoredMessage) : (c.commitMessage msg).run s = (.ok (), { s with broker := { s.broker with
      offsetStore := s.broker.offsetStore.insert (gid, msg.topic, msg.partition) (msg.offset + 1) } }) :=
  c.run_commit hc h _

/-- What `committed` lists: the offsets in the store, with `-1` where there is none. -/
def committedList (s : Session π) (gid : String) : TopicPartitionList :=
  ⟨s.state.assignedPartitions.elements.map fun elem =>
    ⟨elem.topic, elem.partition, .offset ((s.broker.offsetStore.lookup (gid, elem.topic, elem.partition)).getD (-1))⟩⟩

theorem run_committed {s : Session π} {gid : String} (hc : c.groupId = some gid) (h : s.broker.Commits gid) :
    c.committed.run s = (.ok (committedList s gid), s) := by
  rw [committed, Act.run_bind, run_readState, Outcome.andThen_ok, hc]
  dsimp only
  rw [Act.run_bind, Act.run_forEach (s := s) (g := fun elem => (⟨elem.topic, elem.partition,
    .offset ((s.broker.offsetStore.lookup (gid, elem.topic, elem.partition)).getD (-1))⟩ : TopicPartitionElem))]
  · rfl
  · intro elem _
    rw [Act.run_bind, run_onBroker, Broker.run_committedOffset h]
    rfl

/-- A consumer of any other group can list nothing. -/
theorem run_committed_of_not {s : Session π} {gid : String} (hc : c.groupId = some gid) (h : ¬s.broker.Commits gid) :
    (s.state.assignedPartitions.elements = [] ∧ c.committed.run s = (.ok .new, s)) ∨
      ∃ e, c.committed.run s = (.err e, s) := by
  rw [committed, Act.run_bind, run_readState, Outcome.andThen_ok, hc]
  dsimp only
  cases s.state.assignedPartitions.elements with
  | nil => exact Or.inl ⟨rfl, rfl⟩
  | cons elem elems =>
    obtain ⟨e, he⟩ := Broker.run_requireGroup_of_not h fun _ => .read fun b =>
      .ok (b.offsetStore.lookup (gid, elem.topic, elem.partition))
    refine Or.inr ⟨e, ?_⟩
    rw [Act.run_bind, Act.forEach, Act.run_bind, Act.run_bind, run_onBroker, Broker.committedOffset, he]
    rfl

/-! ### What makes a round do what it does -/

/-- What a round does, and the fetch that makes it do so. -/
inductive RoundOn (c : BaseConsumer) (s : Session π) (idx : Nat) :
    Outcome RmqError (Option StoredMessage) × Session π ⊕ Session π → Prop
  | passed : RoundOn c s idx (.inr s)
  | moved {key : String × Int} {position : Option Int} {topic : String} {partition o : Int}
    (he : s.state.pollEntry idx = some (key, position, false))
    (hf : ((Broker.fetchOneFromPosition key.1 key.2 position c.groupId).run s.broker).1 =
      .err (.offsetOutOfRange topic partition o)) :
    RoundOn c s idx (.inr { s with state := s.state.setPosition key o })
  | returned {key : String × Int} {position : Option Int} {m : StoredMessage}
    (he : s.state.pollEntry idx = some (key, position, false))
    (hf : ((Broker.fetchOneFromPosition key.1 key.2 position c.groupId).run s.broker).1 = .ok (some m)) :
    RoundOn c s idx (.inl (.ok (some m), { s with state := s.state.delivered key m.offset idx }))
  | failed {o : Outcome RmqError (Option StoredMessage)} (ho : ∀ r, o ≠ .ok r) : RoundOn c s idx (.inl (o, s))

theorem roundOn_pollRound (s : Session π) (idx : Nat) : RoundOn c s idx (c.pollRound s idx) := by
  rcases he : s.state.pollEntry idx with _ | ⟨key, position, _ | _⟩
  · rw [pollRound, he]
    exact .passed
  · rw [pollRound, he]
    dsimp only
    rcases hf : ((Broker.fetchOneFromPosition key.1 key.2 position c.groupId).run s.broker).1 with (_ | m) | e | _
    · exact .passed
    · exact .returned he hf
    · cases e with
      | offsetOutOfRange _ _ o => exact .moved he hf
      | topicNotFound => exact .passed
      | partitionOutOfRange => exact .passed
      | groupNotFound => exact .failed (by simp)
      | brokerShutdown => exact .failed (by simp)
      | invalidConfig => exact .failed (by simp)
      | custom => exact .failed (by simp)
    · exact .failed (by simp)
  · rw [pollRound, he]
    exact .passed

end BaseConsumer

end RMemQueue
