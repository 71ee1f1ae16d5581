import RMemQueue.ConsumerRun
import RMemQueue.LogContract

/-!
# Restarting a consumer of a group

`commit_message` stores the offset of the next message, and a fetch without a position begins one after the committed
offset.  So a consumer that restarts from a commit never reads the message that follows the committed one; and when
all messages were committed its first fetch is out of range, so that it reads all of them again.
-/

namespace RMemQueue

open Conc

variable {π : Type}

namespace BaseConsumer

variable (c : BaseConsumer)

/-- What `n` polls return, when all of them return. -/
def deliveries : Nat → Session π → Option (List StoredMessage × Session π)
  | 0, s => some ([], s)
  | n + 1, s =>
    match c.pollOnce.run s with
    | (.ok msg, s') => (deliveries n s').map fun r => (msg.toList ++ r.1, r.2)
    | _ => none

/-- Poll `n` messages and commit each of them. -/
def readAndCommit : Nat → Session π → Option (List StoredMessage × Session π)
  | 0, s => some ([], s)
  | n + 1, s =>
    match c.pollOnce.run s with
    | (.ok (some msg), s') =>
      match (c.commitMessage msg).run s' with
      | (.ok (), s'') => (readAndCommit n s'').map fun r => (msg :: r.1, r.2)
      | _ => none
    | _ => none

end BaseConsumer

/-- Produce calls that all succeed. -/
def produceAll [Partitioner π] : List ProduceCall → Broker π → Option (Broker π)
  | [], b => some b
  | call :: calls, b =>
    match call.body.run b with
    | (.ok _, b') => produceAll calls b'
    | _ => none

/-- From some number of polls on, the consumer has delivered exactly the messages `rest`; and after any further
produce calls that evict nothing from the partition, exactly the messages that they have appended to it. -/
def Resumes [Partitioner π] (c : BaseConsumer) (s : Session π) (topic : String) (partition : Int)
    (rest : List StoredMessage) : Prop :=
  ∃ n, ∀ n₁ ≥ n, ∃ s', c.deliveries n₁ s = some (rest, s') ∧
    ∀ calls b, produceAll calls s'.broker = some b →
      (b.backend.log topic partition).dropped = (s'.broker.backend.log topic partition).dropped →
      ∃ m, ∀ m₁ ≥ m, ∃ s'', c.deliveries m₁ { s' with broker := b } =
        some ((b.backend.log topic partition).history.drop (s'.broker.backend.log topic partition).next, s'')

/-- A consumer of the group that is assigned the partition and reads it without a stored position. -/
structure ReadsFresh (c : BaseConsumer) (state : ConsumerState) (gid topic : String) (partition : Int) : Prop where
  group : c.groupId = some gid
  assigned : state.assignedPartitions.keys = [(topic, partition)]
  unpaused : (topic, partition) ∉ state.paused
  position : state.position.lookup (topic, partition) = none

/-! ### Polling one partition -/

/-- The consumer is assigned one existing partition, unpaused, on a running broker, and its next read there begins
with the `j`-th retained message. -/
structure At (c : BaseConsumer) (s : Session π) (topic : String) (partition : Int) (p : Partition) (j : Nat) :
    Prop where
  running : s.broker.Running
  exists_ : s.broker.backend.partition? topic partition = some p
  assigned : s.state.assignedPartitions.keys = [(topic, partition)]
  unpaused : (topic, partition) ∉ s.state.paused
  start : s.broker.start? p.watermarks.1 topic partition (s.state.position.lookup (topic, partition)) c.groupId =
    some ((p.abs.dropped : Int) + j)

variable {c : BaseConsumer} {s : Session π} {topic : String} {partition : Int} {p : Partition} {j : Nat}

theorem run_pollOnce_one (ha : s.state.assignedPartitions.keys = [(topic, partition)])
    (hu : (topic, partition) ∉ s.state.paused) (hr : s.broker.Running)
    (hp : s.broker.backend.partition? topic partition = some p) :
    c.pollOnce.run s = (BaseConsumer.afterFetch (topic, partition) 0 s
      ((s.broker.start? p.watermarks.1 topic partition (s.state.position.lookup (topic, partition)) c.groupId).elim
        .panic fun o =>
          match p.readOne o with
          | .ok r => .ok r
          | .error _ => .err (.offsetOutOfRange topic partition p.watermarks.1))).elim id fun s' => (.ok none, s') := by
  obtain ⟨elem, helems, hkey⟩ := List.map_eq_singleton_iff.1 ha
  have hentry : s.state.pollEntry 0 = some ((topic, partition), s.state.position.lookup (topic, partition), false) := by
    have helem : s.state.assignedPartitions.elements[0]? = some elem := by rw [helems]; rfl
    rw [ConsumerState.pollEntry_of_getElem? helem, hkey, decide_eq_false hu]
  rw [c.run_pollOnce_single helems, BaseConsumer.pollRound, hentry]
  have hfetch := Broker.run_fetchOneFromPosition hr hp (s.state.position.lookup (topic, partition)) c.groupId
  exact congrArg (fun r => (BaseConsumer.afterFetch (topic, partition) 0 s r).elim id fun s' => (.ok none, s'))
    (congrArg Prod.fst hfetch)

/-- A poll returns the message it is at and moves on to the next one. -/
private theorem At.poll (h : At c s topic partition p j) (hj : j < p.buffer.log.length) :
    ∃ m state, p.buffer.log[j]? = some m ∧ m.offset = p.abs.dropped + j ∧ m.topic = topic ∧ m.partition = partition ∧
      c.pollOnce.run s = (.ok (some m), { s with state }) ∧
      state.position.lookup (topic, partition) = some ((p.abs.dropped : Int) + j + 1) ∧
      At c { s with state } topic partition p (j + 1) := by
  have hg : p.abs.get? (p.abs.dropped + j) = some p.buffer.log[j] := by
    rw [TrimmedLog.get?_add, p.abs_retained, List.getElem?_eq_getElem hj]
  obtain ⟨hoff, ht, hi⟩ := p.stamped_of_get? hg
  obtain ⟨hname, hid⟩ := InMemoryBackend.named_of_partition? h.exists_
  have hpos : (s.state.delivered (topic, partition) p.buffer.log[j].offset 0).position.lookup (topic, partition) =
      some ((p.abs.dropped : Int) + j + 1) := by
    rw [ConsumerState.delivered, AList.lookup_insert, hoff]
    simp
  refine ⟨_, s.state.delivered (topic, partition) p.buffer.log[j].offset 0, List.getElem?_eq_getElem hj, by
    rw [hoff]; simp, ht.trans hname, hi.trans hid, ?_, hpos, h.running, h.exists_, h.assigned, h.unpaused, ?_⟩
  · rw [run_pollOnce_one h.assigned h.unpaused h.running h.exists_, h.start]
    rw [Option.elim_some, p.readOne_dropped_add (Nat.le_of_lt hj), List.getElem?_eq_getElem hj]
    rfl
  · dsimp only
    rw [hpos]
    simp [Broker.start?]
    omega

/-- A poll at the end of the log returns nothing and changes nothing. -/
private theorem At.poll_end (h : At c s topic partition p j) (hj : j = p.buffer.log.length) :
    c.pollOnce.run s = (.ok none, s) := by
  rw [run_pollOnce_one h.assigned h.unpaused h.running h.exists_, h.start]
  rw [Option.elim_some, p.readOne_dropped_add (Nat.le_of_eq hj), List.getElem?_eq_none (Nat.le_of_eq hj.symm)]
  rfl

/-- What polling one partition delivers. -/
theorem At.deliveries (h : At c s topic partition p j) (hj : j ≤ p.buffer.log.length) (n : Nat) :
    ∃ s', c.deliveries n s = some ((p.buffer.log.drop j).take n, s') := by
  induction n generalizing j s with
  | zero => exact ⟨s, rfl⟩
  | succ n ih =>
    rcases Nat.lt_or_eq_of_le hj with hlt | heq
    · obtain ⟨m, state, hm, -, -, -, hrun, -, hat⟩ := h.poll hlt
      obtain ⟨s', hs'⟩ := ih hat hlt
      refine ⟨s', ?_⟩
      rw [BaseConsumer.deliveries, hrun]
      dsimp only
      obtain ⟨_, hm⟩ := List.getElem?_eq_some_iff.1 hm
      rw [hs', List.drop_eq_getElem_cons hlt, hm]
      rfl
    · obtain ⟨s', hs'⟩ := ih h hj
      refine ⟨s', ?_⟩
      rw [BaseConsumer.deliveries, h.poll_end heq]
      dsimp only
      rw [hs', heq]
      simp

/-! ### The restart -/

private theorem At.readAndCommit {gid : String} (h : At c s topic partition p j) (hc : c.groupId = some gid)
    (hg : (s.broker.consumerGroups.lookup gid).isSome) (n : Nat) (hn : j + n ≤ p.buffer.log.length) :
    ∃ s', c.readAndCommit n s = some ((p.buffer.log.drop j).take n, s') ∧ s'.broker.Running ∧
      s'.broker.backend = s.broker.backend ∧ s'.broker.consumerGroups = s.broker.consumerGroups ∧
      (0 < n → s'.broker.offsetStore.lookup (gid, topic, partition) = some ((p.abs.dropped : Int) + j + n)) := by
  induction n generalizing j s with
  | zero => exact ⟨s, rfl, h.running, rfl, rfl, fun h0 => absurd h0 (Nat.lt_irrefl 0)⟩
  | succ n ih =>
    have hlt : j < p.buffer.log.length := by omega
    obtain ⟨m, state, hm, hoff, ht, hi, hrun, hpos, hat⟩ := h.poll hlt
    obtain ⟨_, hm⟩ := List.getElem?_eq_some_iff.1 hm
    have hcommit := c.run_commitMessage hc ⟨hat.running.broker, hg⟩ m
    rw [BaseConsumer.readAndCommit, hrun]
    dsimp only
    rw [hcommit]
    dsimp only
    rw [ht, hi, hoff]
    -- the next read is at the position, so that the commit has no influence on it
    have hat' : At c ⟨{ s.broker with
        offsetStore := s.broker.offsetStore.insert (gid, topic, partition) ((p.abs.dropped : Int) + j + 1) }, state⟩
        topic partition p (j + 1) := by
      refine ⟨⟨h.running.broker, h.running.backend⟩, h.exists_, hat.assigned, hat.unpaused, ?_⟩
      dsimp only
      rw [hpos, Broker.start?]
      simp
      omega
    obtain ⟨s', hs', hr, hb, hgs, hst⟩ := ih hat' hg (by omega)
    refine ⟨s', ?_, hr, hb, hgs, fun _ => ?_⟩
    · rw [hs', List.drop_eq_getElem_cons hlt, hm]
      rfl
    · rcases Nat.eq_zero_or_pos n with rfl | hn0
      · obtain ⟨-, rfl⟩ := Prod.mk.inj (Option.some.inj hs')
        dsimp only
        rw [AList.lookup_insert]
        simp
      · rw [hst hn0]
        simp
        omega

/-- After a commit of the first `k` retained messages a consumer of the group does not resume with the others. -/
private theorem not_resumes [Partitioner π] {gid : String} {k : Nat} (hf : ReadsFresh c s.state gid topic partition)
    (hr : s.broker.Running) (hp : s.broker.backend.partition? topic partition = some p)
    (hg : (s.broker.consumerGroups.lookup gid).isSome) (hk : 1 ≤ k) (hkn : k ≤ p.buffer.log.length)
    (hst : s.broker.offsetStore.lookup (gid, topic, partition) = some ((p.abs.dropped : Int) + k)) :
    ¬Resumes c s topic partition (p.buffer.log.drop k) := by
  rintro ⟨n, hn⟩
  have hnext := p.abs_next
  have hdropped := p.abs_dropped
  have hmax := p.next_le_i64Max
  have hstart : s.broker.start? p.watermarks.1 topic partition (s.state.position.lookup (topic, partition))
      c.groupId = i64Checked ((p.abs.dropped : Int) + k + 1) := by
    rw [hf.position, hf.group, Broker.start?, Broker.committed?]
    simp [hg, hst]
  rcases Nat.lt_or_eq_of_le hkn with hlt | heq
  · -- in the middle of the log the message after the committed offset is skipped
    have hchecked : i64Checked ((p.abs.dropped : Int) + k + 1) = some ((p.abs.dropped : Int) + (k + 1 : Nat)) := by
      rw [i64Checked_eq_some]
      simp only [i64Min, i64Max] at *
      omega
    have hat : At c s topic partition p (k + 1) :=
      ⟨hr, hp, hf.assigned, hf.unpaused, hstart.trans hchecked⟩
    obtain ⟨s', hs', -⟩ := hn n (Nat.le_refl n)
    obtain ⟨s'', hs''⟩ := hat.deliveries hlt n
    have hlen := congrArg List.length (Prod.mk.inj (Option.some.inj (hs'.symm.trans hs''))).1
    simp only [List.length_drop, List.length_take] at hlen
    omega
  · -- at its end the fetch overflows, or is out of range and begins again with the oldest message
    have hrun := run_pollOnce_one hf.assigned hf.unpaused hr hp (c := c)
    obtain ⟨s', hs', -⟩ := hn (n + 2) (by omega)
    rw [heq, List.drop_length] at hs'
    rw [BaseConsumer.deliveries, hrun, hstart] at hs'
    cases hc : i64Checked ((p.abs.dropped : Int) + k + 1) with
    | none =>
      rw [hc] at hs'
      cases hs'
    | some o =>
      obtain ⟨rfl, -⟩ := i64Checked_eq_some.1 hc
      have herr : p.readOne ((p.abs.dropped : Int) + k + 1) = .error (p.outOfRange ((p.abs.dropped : Int) + k + 1)) := by
        rw [p.readOne_eq_error_iff]
        exact ⟨rfl, by omega, by omega⟩
      have hne : p.abs.retained ≠ [] := by
        rw [p.abs_retained]
        exact List.ne_nil_of_length_pos (by omega)
      have hw : p.watermarks.1 = p.abs.dropped := by rw [p.watermarks_eq, if_neg hne]
      have hat : At c { s with state := s.state.setPosition (topic, partition) p.watermarks.1 } topic partition p 0 := by
        refine ⟨hr, hp, hf.assigned, hf.unpaused, ?_⟩
        simp [ConsumerState.setPosition, Broker.start?, hw]
      obtain ⟨s'', hs''⟩ := hat.deliveries (Nat.zero_le _) (n + 1)
      rw [hc, Option.elim_some, herr] at hs'
      dsimp only [BaseConsumer.afterFetch, Sum.elim_inr] at hs'
      rw [hs''] at hs'
      have hlen := congrArg List.length (Prod.mk.inj (Option.some.inj hs')).1
      simp only [Option.toList_none, List.nil_append, List.drop_zero, List.length_take, List.length_nil] at hlen
      omega

/-- **A group restart skips or repeats.**  Whatever the retained messages of the partition are and whichever of them
were read and committed, a fresh consumer of the group does not resume with the remaining ones. -/
theorem group_restart_never [Partitioner π] {b : Broker π} (hr : b.Running)
    (hp : b.backend.partition? topic partition = some p) {gid : String} (hg : (b.consumerGroups.lookup gid).isSome)
    (hnone : b.offsetStore.lookup (gid, topic, partition) = none) {first fresh : BaseConsumer}
    {firstState freshState : ConsumerState} (hfirst : ReadsFresh first firstState gid topic partition)
    (hfresh : ReadsFresh fresh freshState gid topic partition) {k : Nat} (hk : 1 ≤ k)
    (hkn : k ≤ p.buffer.log.length) :
    ∃ s', first.readAndCommit k ⟨b, firstState⟩ = some (p.buffer.log.take k, s') ∧
      ¬Resumes fresh ⟨s'.broker, freshState⟩ topic partition (p.buffer.log.drop k) := by
  have hne : p.abs.retained ≠ [] := by
    rw [p.abs_retained]
    exact List.ne_nil_of_length_pos (by omega)
  have hat : At first ⟨b, firstState⟩ topic partition p 0 := by
    refine ⟨hr, hp, hfirst.assigned, hfirst.unpaused, ?_⟩
    rw [hfirst.position, hfirst.group, Broker.start?, Broker.committed?]
    simp [hg, hnone, p.watermarks_eq, hne]
  obtain ⟨s', hs', hr', hb', hgs', hst'⟩ := hat.readAndCommit hfirst.group hg k (by omega)
  refine ⟨s', hs', ?_⟩
  -- the committed offset is the one after the last message read
  have hst : s'.broker.offsetStore.lookup (gid, topic, partition) = some ((p.abs.dropped : Int) + k) := by
    rw [hst' (by omega)]
    simp
  have hp' : s'.broker.backend.partition? topic partition = some p := by rw [hb']; exact hp
  have hg' : (s'.broker.consumerGroups.lookup gid).isSome := by rw [hgs']; exact hg
  exact not_resumes (s := ⟨s'.broker, freshState⟩) hfresh hr' hp' hg' hk hkn hst

/-- A broker with two messages in the one partition of `"t"` and a group `"g"`. -/
private def twoMessages : Option (Broker RoundRobinPartitioner) :=
  (Broker.new (RmqClientConfig.new.set ConfigKeys.brokerId "b")).toOption.bind fun b =>
    (produceAll [⟨"t", some 0, .raw none (some [1]), none, some 0, ⟨0, 0, fun _ => 0⟩⟩,
      ⟨"t", some 0, .raw none (some [2]), none, some 0, ⟨0, 0, fun _ => 0⟩⟩] b).map fun b =>
    ((Broker.joinGroup default "g" "first" ["t"]).run b).2

private def readsT : ConsumerState := { ConsumerState.new with assignedPartitions := ⟨[⟨"t", 0, .stored⟩]⟩ }

private theorem readsFresh_readsT (member : String) : ReadsFresh ⟨some "g", member⟩ readsT "g" "t" 0 :=
  ⟨rfl, rfl, by decide, rfl⟩

/-- One of two messages is read and committed, and the fresh consumer never gets the other one. -/
theorem group_restart_skips : ∃ b p s', twoMessages = some b ∧ b.backend.partition? "t" 0 = some p ∧
    p.buffer.log.length = 2 ∧
    (⟨some "g", "first"⟩ : BaseConsumer).readAndCommit 1 ⟨b, readsT⟩ = some (p.buffer.log.take 1, s') ∧
    ¬Resumes ⟨some "g", "second"⟩ ⟨s'.broker, readsT⟩ "t" 0 (p.buffer.log.drop 1) := by
  refine ⟨_, _, _, rfl, rfl, rfl, rfl, ?_⟩
  exact not_resumes (readsFresh_readsT _) ⟨rfl, rfl⟩ rfl (by decide) (by decide) (by decide) (by decide)

/-- Both messages are read and committed, and the fresh consumer gets them again. -/
theorem group_restart_repeats : ∃ b p, twoMessages = some b ∧ b.backend.partition? "t" 0 = some p ∧
    ∃ s', (⟨some "g", "first"⟩ : BaseConsumer).readAndCommit 2 ⟨b, readsT⟩ = some (p.buffer.log.take 2, s') ∧
      ¬Resumes ⟨some "g", "second"⟩ ⟨s'.broker, readsT⟩ "t" 0 (p.buffer.log.drop 2) := by
  refine ⟨_, _, rfl, rfl, ?_⟩
  exact group_restart_never ⟨rfl, rfl⟩ rfl (by decide) (by decide) (readsFresh_readsT "first")
    (readsFresh_readsT "second") (by decide) (by decide)

end RMemQueue
