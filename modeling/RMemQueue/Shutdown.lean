import RMemQueue.WorldRun

/-!
# Shutdown

`Broker::shutdown` sets the flag of the broker and the flag of its backend, and every operation that asks the broker
checks one of them first.  After a shutdown such an operation fails with `BrokerShutdown` and none of its steps changes
anything (`Op.fails`), with one exception: `subscribe` of a consumer without a group drops the errors of `metadata`, so
that it returns normally and leaves the consumer with an empty assignment.
-/

namespace RMemQueue

open Conc

variable {π : Type}

/-- Both flags are set. -/
structure Broker.Down (b : Broker π) : Prop where
  broker : b.shutdown = true
  backend : b.backend.shutdown = true

theorem Broker.Later.down {b b' : Broker π} (h : b.Later b') (hb : b.Down) : b'.Down :=
  ⟨h.shutdown hb.broker, h.backend.shutdown hb.backend⟩

/-- The requests that have to ask the broker, for a consumer in the given state. -/
def Request.Consults (c : BaseConsumer) (s : ConsumerState) : Request → Prop
  | pollOnce => ∃ e ∈ s.assignedPartitions.elements, e.key ∉ s.paused
  | subscribe _ _ => True
  | unsubscribe _ => c.groupId.isSome
  | seek _ _ .beginning => True
  | seek _ _ .end_ => True
  | seek _ _ (.offsetTail _) => True
  | seek _ _ .stored => c.groupId.isSome
  | commit tpl => c.groupId.isSome ∧ ∃ e ∈ tpl.elements, ∃ o, e.offset = .offset o
  | commitMessage _ => c.groupId.isSome
  | committed => c.groupId.isSome ∧ s.assignedPartitions.elements ≠ []
  | metadata _ => True
  | watermarks _ _ => True
  | _ => False

namespace Op

def Consults (ids : Nat → BaseConsumer) (w : World π) : Op → Prop
  | send _ => True
  | consumer i request => request.Consults (ids i) (w.consumers i)
  | shutdown => False

/-- A subscription of a consumer without a group. -/
def Groupless (ids : Nat → BaseConsumer) : Op → Prop
  | consumer i (.subscribe _ _) => (ids i).groupId = none
  | _ => False

end Op

/-! ### What is refused -/

namespace InMemoryBackend

private theorem fails_checked {α : Type} {b : InMemoryBackend} (h : b.shutdown = true) (f : Unit → BackendM α) :
    (checkShutdown >>= f).Fails Later .brokerShutdown b b :=
  (Act.fails_read fun _ hb' => if_pos (hb'.shutdown h)).bind f

end InMemoryBackend

namespace Broker

variable {b : Broker π}

/-- A call that checks the flag first. -/
private theorem fails_checked {α : Type} (h : b.Down) (f : Unit → BrokerM π α) :
    (checkShutdown >>= f).Fails Later .brokerShutdown b b :=
  (Act.fails_read fun _ hb' => if_pos (hb'.down h).broker).bind f

private theorem fails_watermarks (h : b.Down) (topic : String) (partition : Int) :
    (watermarks topic partition).Fails Later .brokerShutdown b b :=
  Act.Fails.zoom (InMemoryBackend.fails_checked h.backend _) fun _ _ hb => hb.backend

end Broker

namespace BaseConsumer

open Session

variable (c : BaseConsumer) {s : Session π} {α β : Type}

private theorem fails_onBroker {x : BrokerM π α} (hx : x.Fails Broker.Later .brokerShutdown s.broker s.broker) :
    (onBroker x).Fails Alone .brokerShutdown s s :=
  Act.Fails.zoom hx fun _ _ h => h.1

/-- A read of the consumer's state, and then a failure. -/
private theorem fails_readState_bind {g : ConsumerState → α} {k : α → ConsumerM π β} (hs : s.broker.Down)
    (h : ∀ t : Session π, t.broker.Down → t.state = s.state → (k (g s.state)).Fails Alone .brokerShutdown t t) :
    (readState g >>= k).Fails Alone .brokerShutdown s s :=
  Act.fails_read_bind fun t ht => ⟨g s.state, by rw [ht.2], h t (ht.1.down hs) ht.2⟩

private theorem fails_metadata (hs : s.broker.Down) (topic : Option String) :
    (onBroker (Broker.metadata topic)).Fails Alone .brokerShutdown s s :=
  fails_onBroker (Broker.fails_checked hs _)

private theorem fails_watermarks (hs : s.broker.Down) (topic : String) (partition : Int) :
    (onBroker (Broker.watermarks topic partition)).Fails Alone .brokerShutdown s s :=
  fails_onBroker (Broker.fails_watermarks hs topic partition)

private theorem fails_committedOffset (hs : s.broker.Down) (gid topic : String) (partition : Int) :
    (onBroker (Broker.committedOffset gid topic partition)).Fails Alone .brokerShutdown s s :=
  fails_onBroker (Broker.fails_checked hs _)

/-- A poll goes over paused entries and fails at the first other one. -/
private theorem fails_pollFrom (hs : s.broker.Down) (start len : Nat) {l : List Nat}
    (h : ∃ i ∈ l, ∃ key position, s.state.pollEntry ((start + i) % len) = some (key, position, false)) :
    (c.pollFrom start len l).Fails Alone .brokerShutdown s s := by
  induction l generalizing s with
  | nil => simp at h
  | cons i l ih =>
    refine fails_readState_bind hs fun t ht hst => ?_
    have hrest : (∀ key position, s.state.pollEntry ((start + i) % len) ≠ some (key, position, false)) →
        (c.pollFrom start len l).Fails Alone .brokerShutdown t t := by
      intro hne
      apply ih ht
      obtain ⟨j, hj, key, position, he⟩ := h
      rcases List.mem_cons.1 hj with rfl | hj
      · exact absurd he (hne key position)
      · exact ⟨j, hj, key, position, by rw [hst, he]⟩
    rcases he : s.state.pollEntry ((start + i) % len) with _ | ⟨key, position, paused⟩
    · exact hrest (by simp [he])
    · cases paused with
      | true => exact hrest (by simp [he])
      | false => exact (fails_onBroker (Broker.fails_checked ht _)).attempt_bind rfl

private theorem fails_pollOnce (hs : s.broker.Down)
    (h : ∃ e ∈ s.state.assignedPartitions.elements, e.key ∉ s.state.paused) :
    c.pollOnce.Fails Alone .brokerShutdown s s := by
  obtain ⟨e, he, hp⟩ := h
  refine fails_readState_bind hs fun t ht hst => ?_
  have hpos : s.state.pollBounds.2 ≠ 0 := by
    have := List.length_pos_of_mem he
    simp only [ConsumerState.pollBounds]
    omega
  show Act.Fails Alone RmqError.brokerShutdown (if s.state.pollBounds.2 = 0 then _ else _) t t
  rw [if_neg hpos]
  obtain ⟨i, hi, hij⟩ := exists_polled he s.state.pollBounds.1
  refine c.fails_pollFrom ht _ _ ⟨i, hi, e.key, s.state.position.lookup e.key, ?_⟩
  rw [hst]
  show s.state.pollEntry ((s.state.pollBounds.1 + i) % s.state.assignedPartitions.elements.length) = _
  rw [ConsumerState.pollEntry, hij]
  simp [hp]

private theorem fails_commit {gid : String} (hc : c.groupId = some gid) (hs : s.broker.Down)
    {tpl : TopicPartitionList} (h : ∃ e ∈ tpl.elements, ∃ o, e.offset = .offset o) :
    (c.commit tpl).Fails Alone .brokerShutdown s s := by
  rw [commit, hc]
  refine Act.Fails.bind ?_ _
  obtain ⟨elements⟩ := tpl
  dsimp only at h ⊢
  induction elements with
  | nil => simp at h
  | cons e es ih =>
    -- an entry without an explicit offset is skipped, the first one with an offset fails
    by_cases ho : ∃ o, e.offset = .offset o
    · obtain ⟨o, ho⟩ := ho
      refine Act.Fails.bind ?_ _
      rw [commitElem, ho]
      exact fails_onBroker (Broker.fails_checked hs _)
    · have hskip : commitElem gid e = (pure () : ConsumerM π Unit) := by
        unfold commitElem
        split
        · rename_i o h'
          exact absurd ⟨o, h'⟩ ho
        · rfl
      obtain ⟨e', he', h'⟩ := h
      rcases List.mem_cons.1 he' with rfl | he'
      · exact absurd h' ho
      · show Act.Fails Alone RmqError.brokerShutdown (commitElem gid e >>= fun b => _) s s
        rw [hskip]
        exact (ih ⟨e', he', h'⟩).bind _

private theorem fails_committed {gid : String} (hc : c.groupId = some gid) (hs : s.broker.Down)
    (h : s.state.assignedPartitions.elements ≠ []) : c.committed.Fails Alone .brokerShutdown s s := by
  refine fails_readState_bind hs fun t ht _ => ?_
  rw [hc]
  refine Act.Fails.bind ?_ _
  obtain ⟨e, es, he⟩ := List.exists_cons_of_ne_nil h
  rw [he]
  exact ((fails_committedOffset ht gid e.topic e.partition).bind _).bind _

/-- A consumer's request that asks the broker fails, unless it is a subscription without a group. -/
private theorem fails_body (hs : s.broker.Down) {r : Request} (h : r.Consults c s.state)
    (hg : ∀ order topics, r = .subscribe order topics → c.groupId ≠ none) :
    (r.body c).Fails Alone .brokerShutdown s s := by
  cases r with
  | pollOnce => exact (c.fails_pollOnce hs h).bind _
  | subscribe order topics =>
    -- only a group asks the broker on `subscribe`
    obtain ⟨gid, hc⟩ := Option.ne_none_iff_exists'.1 (hg order topics rfl)
    refine Act.Fails.bind (Act.Fails.bind ?_ _) _
    rw [newAssignment, hc]
    exact fails_onBroker (Broker.fails_checked hs _)
  | unsubscribe order =>
    obtain ⟨gid, hc⟩ := Option.isSome_iff_exists.1 h
    refine Act.Fails.bind ?_ _
    refine fails_readState_bind hs fun t ht _ => Act.Fails.bind ?_ _
    rw [leave, hc]
    exact fails_onBroker (Broker.fails_checked ht _)
  | seek topic partition offset =>
    refine Act.Fails.bind (Act.Fails.bind ?_ _) _
    cases offset with
    | beginning => exact (fails_watermarks hs topic partition).bind _
    | end_ => exact (fails_watermarks hs topic partition).bind _
    | offset o => exact h.elim
    | stored =>
      obtain ⟨gid, hc⟩ := Option.isSome_iff_exists.1 h
      rw [seekTarget, hc]
      exact (fails_committedOffset hs gid topic partition).bind _
    | offsetTail tail => exact (fails_watermarks hs topic partition).bind _
  | commit tpl =>
    obtain ⟨gid, hc⟩ := Option.isSome_iff_exists.1 h.1
    exact (c.fails_commit hc hs h.2).bind _
  | commitMessage msg =>
    obtain ⟨gid, hc⟩ := Option.isSome_iff_exists.1 h
    exact (c.fails_commit hc hs ⟨_, List.mem_singleton_self _, _, rfl⟩).bind _
  | committed =>
    obtain ⟨gid, hc⟩ := Option.isSome_iff_exists.1 h.1
    exact (c.fails_committed hc hs h.2).bind _
  | metadata topic => exact (fails_metadata hs topic).bind _
  | watermarks topic partition => exact (fails_watermarks hs topic partition).bind _
  | assignment => exact h.elim
  | assign => exact h.elim
  | storeOffset => exact h.elim
  | positions => exact h.elim
  | pause => exact h.elim
  | resume => exact h.elim

/-- A subscription without a group returns normally, and takes the assignment away. -/
private theorem run_subscribe_of_down (hs : s.broker.Down) (hc : c.groupId = none) (order : HashOrder)
    (topics : List String) : ((Request.subscribe order topics).body c).run s =
      (.ok .unit, { s with state := { s.state with subscribedTopics := topics, assignedPartitions := .new } }) := by
  have hmeta : ∀ topic ∈ topics, ((onBroker (Broker.metadata (some topic))).attempt).run s =
      (.ok (.error .brokerShutdown), s) := by
    intro topic _
    rw [Act.run_attempt, ((fails_metadata hs (some topic)).run fun _ => ⟨.refl _, rfl⟩).2]
    rfl
  have hnone : (topics.map fun _ => (.error .brokerShutdown : RmqResult Metadata)).flatMap topicEntries = [] := by
    simp [topicEntries]
  rw [Request.body, reply, Act.run_bind, subscribe, Act.run_bind, newAssignment, hc]
  dsimp only
  rw [Act.run_bind, Act.run_forEach hmeta, Outcome.andThen_ok, Act.run_pure, hnone]
  rfl

end BaseConsumer

namespace Op

/-- What an operation relies on: the broker gets later, and nobody else works on the consumer of the operation. -/
def Undisturbed (op : Op) (w w' : World π) : Prop :=
  w.broker.Later w'.broker ∧ ∀ i, op.actor = some i → w'.consumers i = w.consumers i

/-- The other operation does not work on the same consumer. -/
def Apart (op op' : Op) : Prop := ∀ i, op.actor = some i → op'.actor ≠ some i

variable {op op' : Op} {ids : Nat → BaseConsumer} {w w' : World π}

theorem Undisturbed.refl (op : Op) (w : World π) : op.Undisturbed w w := ⟨.refl _, fun _ _ => rfl⟩

theorem Undisturbed.trans {w₁ w₂ w₃ : World π} (h₁ : op.Undisturbed w₁ w₂) (h₂ : op.Undisturbed w₂ w₃) :
    op.Undisturbed w₁ w₃ :=
  ⟨h₁.1.trans h₂.1, fun i hi => (h₂.2 i hi).trans (h₁.2 i hi)⟩

theorem Apart.undisturbed (h : op.Apart op') (hs : op'.StepOf w w') : op.Undisturbed w w' :=
  ⟨hs.1, fun i hi => hs.frame (h i hi)⟩

/-- After a shutdown every operation that asks the broker fails and leaves no trace. -/
theorem fails [Partitioner π] (hw : w.broker.Down) (hop : op.Consults ids w) (hg : ¬op.Groupless ids) :
    (op.body ids).Fails op.Undisturbed .brokerShutdown w w := by
  cases op with
  | send call =>
    refine Act.Fails.zoom (R := Broker.Later) (Act.Fails.bind ?_ _) fun _ _ h => h.1
    exact Broker.fails_checked hw _
  | consumer i request =>
    refine Act.Fails.zoom (R := BaseConsumer.Alone) ?_ fun _ _ h => ⟨h.1, h.2 i rfl⟩
    refine (ids i).fails_body hw hop fun order topics hr => ?_
    subst hr
    exact hg
  | shutdown => exact hop.elim

end Op

/-! ### Every reachable state -/

section

variable [Partitioner π] {ι : Type} [DecidableEq ι] (ids : Nat → BaseConsumer)

/-- Other threads only make the broker later; a shutdown ends in a broker that is down. -/
private def shutdownProtocol : Protocol ι Op (World π) RmqError Reply where
  rely _ w w' := w.broker.Later w'.broker
  inner _ _ w w' := w.broker.Later w'.broker
  last _ _ op w _ w' := w.broker.Later w'.broker ∧ (op = .shutdown → w'.broker.Down)
  rely_refl _ _ := .refl _
  rely_trans _ _ _ _ := .trans
  inner_rely _ _ _ _ _ _ h := h
  last_rely _ _ _ _ _ _ _ _ h := h.1

private theorem after_shutdown (w : World π) :
    (Op.body ids .shutdown).After (fun w w' => w.broker.Later w'.broker) (fun w w' => w.broker.Later w'.broker)
      (fun w _ w' => w.broker.Later w'.broker ∧ w'.broker.Down) w w := by
  refine ⟨.refl _, fun w₁ _ => ⟨?_, fun w₂ h₂ => ⟨?_, ?_, rfl⟩⟩⟩
  · exact ⟨.refl _, rfl, fun _ => rfl, fun _ => id⟩
  · exact ⟨InMemoryBackend.later_setShutdown _, rfl, id, fun _ => id⟩
  · exact h₂.shutdown rfl

/-- The broker is down once a shutdown has returned. -/
theorem down_of_history (w₀ : World π) (sched : List (Choice ι Op)) {t : ι} {o : Outcome RmqError Reply}
    (h : (t, .shutdown, o) ∈ (System.exec (Op.body ids) (.init w₀) sched).history) :
    (System.exec (Op.body ids) (.init w₀) sched).shared.broker.Down := by
  refine System.exec_invariant shutdownProtocol (fun w history => (∃ t o, (t, .shutdown, o) ∈ history) → w.broker.Down)
    (fun _ _ => True) ?_ ?_ ?_ (fun _ _ _ => trivial) ?_ ⟨t, o, h⟩
  · intro i op w _ _ _
    by_cases hop : op = .shutdown
    · subst hop
      exact (after_shutdown ids w).mono (fun _ _ h => h) fun _ _ _ h => ⟨h.1, fun _ => h.2⟩
    · refine (((Op.always_stepOf ids op).mono fun _ _ h => h.1).after (.refl _)).mono (fun _ _ h => h) ?_
      exact fun _ _ _ h => ⟨h, fun h => absurd h hop⟩
  · intro i w w' history hw hinv hh
    exact hw.down (hinv hh)
  · rintro i op w o w' history ⟨hw, hd⟩ hinv ⟨t, o', hmem⟩
    rcases List.mem_append.1 hmem with hmem | hmem
    · exact hw.down (hinv ⟨t, o', hmem⟩)
    · obtain ⟨-, rfl, -⟩ : t = i ∧ Op.shutdown = op ∧ o' = o := by simpa using hmem
      exact hd rfl
  · rintro ⟨t, o, hmem⟩
    cases hmem

/-- What has become of an operation that fails without a trace. -/
private theorem One.failed {op : Op} {t : ι} {h : List (ι × Op × Outcome RmqError Reply)}
    {w : System ι Op (World π) RmqError Reply}
    (hw : System.One op.Undisturbed (fun w w' => w' = w) (fun w o w' => w' = w ∧ o = .err .brokerShutdown) t op h w) :
    (w.next (Op.body ids) (.step t)).shared = w.shared ∧
    ∀ e ∈ w.history.drop h.length, e.1 = t → e = (t, op, .err .brokerShutdown) := by
  obtain ⟨h', hh, hcase⟩ := hw
  rw [hh, List.drop_left]
  rcases hcase with ⟨x, hx, hpend, hno⟩ | ⟨hidle, w₁, o, w₂, ⟨-, rfl⟩, -, -, honly⟩
  · refine ⟨?_, fun e he het => absurd het (hno e he)⟩
    cases x with
    | ret o => simp only [System.next, hx]
    | atomic f k =>
      rw [System.next_step hx, System.shared_resume]
      exact Act.Fails.unchanged (hpend w.shared (.refl op w.shared))
  · refine ⟨?_, honly⟩
    simp only [System.next, hidle]

end

/-- **Shutdown is final.**  In every state that threads with any operations have reached and in which a shutdown has
returned, an operation that has to ask the broker fails with `BrokerShutdown` and leaves the broker and the consumers
as they are, if and only if it is not a subscription of a consumer without a group.  This also holds when other threads
go on, as long as they do not work on the consumer of the operation: none of its steps changes anything, and it can
only end with `BrokerShutdown`. -/
theorem shutdown_final [Partitioner π] {ι : Type} [DecidableEq ι] (ids : Nat → BaseConsumer) (w₀ : World π)
    (sched : List (Choice ι Op)) {w : System ι Op (World π) RmqError Reply}
    (hw : w = System.exec (Op.body ids) (.init w₀) sched) {t₀ : ι} (hdown : (t₀, .shutdown, .ok .unit) ∈ w.history)
    {op : Op} (hop : op.Consults ids w.shared) :
    ((op.body ids).run w.shared = (.err .brokerShutdown, w.shared) ↔ ¬op.Groupless ids) ∧
    (¬op.Groupless ids → ∀ (t : ι) (sched' : List (Choice ι Op)), w.running t = none → w.InFlight (fun _ => op.Apart) →
      (∀ s op', .call s op' ∈ sched' → s ≠ t ∧ op.Apart op') →
        ((w.exec (Op.body ids) (.call t op :: sched')).next (Op.body ids) (.step t)).shared =
          (w.exec (Op.body ids) (.call t op :: sched')).shared ∧
        ∀ e ∈ (w.exec (Op.body ids) (.call t op :: sched')).history.drop w.history.length, e.1 = t →
          e = (t, op, .err .brokerShutdown)) := by
  have hd : w.shared.broker.Down := by
    subst hw
    exact down_of_history ids w₀ sched hdown
  refine ⟨⟨fun hrun hg => ?_, fun hg => ((Op.fails hd hop hg).run (.refl op)).2⟩, fun hg t sched' ht hfly hs => ?_⟩
  · -- without a group the subscription returns normally
    cases op with
    | consumer i request =>
      cases request with
      | subscribe order topics =>
        rw [Op.run_consumer, BaseConsumer.run_subscribe_of_down (ids i) hd hg] at hrun
        cases (Prod.mk.inj hrun).1
      | _ => exact hg
    | _ => exact hg
  -- any other operation fails, whatever the other threads do meanwhile
  · have hcarries : w.Carries Op.StepOf := by
      subst hw
      exact (System.carries_init w₀).exec (Op.always_stepOf ids) sched
    exact One.failed ids (System.one_of_call (Op.Undisturbed.refl op) (fun _ _ _ => .trans) op.Apart
      (Op.always_stepOf ids) (fun _ h _ _ => h.undisturbed) hcarries ht hfly (Op.fails hd hop hg) hs).1

/-- A topic with a message, a consumer of it, and a shutdown. -/
def shutdownOps : List Op := [sendOne, .consumer 0 (.subscribe default ["t"]), .shutdown]

/-- After the shutdown a poll fails. -/
theorem shutdown_final_poll : ∃ b : Broker RoundRobinPartitioner,
    Broker.new (RmqClientConfig.new.set ConfigKeys.brokerId "b") = .ok b ∧
    let ids : Nat → BaseConsumer := fun _ => ⟨none, "m"⟩
    let w := System.exec (Op.body ids) (.init (World.init b)) (oneByOne shutdownOps)
    (Op.body ids (.consumer 0 .pollOnce)).run w.shared = (.err .brokerShutdown, w.shared) := by
  refine ⟨_, rfl, (shutdown_final _ _ _ rfl (List.mem_of_getElem? (i := 2) rfl) ?_).1.2 not_false⟩
  exact ⟨⟨"t", 0, .stored⟩, by decide +kernel, by decide +kernel⟩

/-- After the shutdown a consumer without a group subscribes again: the call returns normally, and the assignment of
the consumer is gone. -/
theorem shutdown_subscribe_clears : ∃ b : Broker RoundRobinPartitioner,
    Broker.new (RmqClientConfig.new.set ConfigKeys.brokerId "b") = .ok b ∧
    let ids : Nat → BaseConsumer := fun _ => ⟨none, "m"⟩
    let w := System.exec (Op.body ids) (.init (World.init b)) (oneByOne shutdownOps)
    let r := (Op.body ids (.consumer 0 (.subscribe default ["t"]))).run w.shared
    (0, .shutdown, .ok .unit) ∈ w.history ∧ r.1 = .ok .unit ∧
      (w.shared.consumers 0).assignedPartitions.keys = [("t", 0)] ∧
      (r.2.consumers 0).assignedPartitions.keys = [] := by
  refine ⟨_, rfl, List.mem_of_getElem? (i := 2) rfl, ?_, ?_, ?_⟩ <;> decide +kernel

end RMemQueue
