import RMemQueue.GroupRun
import RMemQueue.PollOnce
import RMemQueue.WorldRun

/-!
# Failing requests (`base_consumer.rs`, `broker.rs`)

A request of a consumer that ends in an error has changed nothing.  Most requests fail before their first effect in any
state (`Act.CleanAt`).  A join has effects before its last check of the shutdown, and so relies on the two flags of the
shutdown being set together (`Broker.InStep`), which they are as long as the operations are executed one after the
other.

* `all_or_nothing`: in every state that operations executed one after the other have reached, a request that ends in an
  error leaves the broker, its groups, offsets and logs, and all consumers as they are.
-/

namespace RMemQueue

open Conc

variable {π : Type}

/-! ### The flags of the shutdown -/

namespace InMemoryBackend

/-- The flag is as before. -/
private def SameFlag (b b' : InMemoryBackend) : Prop := b'.shutdown = b.shutdown

private theorem SameFlag.refl (b : InMemoryBackend) : b.SameFlag b := rfl

private theorem sameFlag_ensureTopic (topic : String) (n : Int) : (ensureTopic topic n).Always SameFlag := by
  refine (readOnly_checkShutdown.always SameFlag.refl).bind fun _ => ?_
  refine (Act.always_read SameFlag.refl _).bind fun known => ?_
  cases known
  · refine Act.always_modify fun b => ?_
    unfold insertTopic
    split <;> rfl
  · trivial

private theorem sameFlag_produce (topic : String) (partition : Int) (content : Content)
    (headers : Option OwnedHeaders) (timestamp : Option Int) (clock : Clock) :
    (produce topic partition content headers timestamp clock).Always SameFlag := by
  refine (readOnly_checkShutdown.always SameFlag.refl).bind fun _ => ?_
  refine ((readOnly_getTopic topic).always SameFlag.refl).bind fun a => ?_
  refine Act.Always.bind (Act.always_step fun b => ?_) fun _ => trivial
  split <;> rfl

end InMemoryBackend

namespace Broker

/-- The broker and its backend have both been shut down, or neither has. -/
def InStep (b : Broker π) : Prop := b.backend.shutdown = b.shutdown

/-- Both flags are as before. -/
def SameFlags (b b' : Broker π) : Prop := b'.shutdown = b.shutdown ∧ b'.backend.shutdown = b.backend.shutdown

theorem SameFlags.refl (b : Broker π) : b.SameFlags b := ⟨rfl, rfl⟩

theorem SameFlags.trans {b₁ b₂ b₃ : Broker π} (h₁ : b₁.SameFlags b₂) (h₂ : b₂.SameFlags b₃) : b₁.SameFlags b₃ :=
  ⟨h₂.1.trans h₁.1, h₂.2.trans h₁.2⟩

theorem InStep.sameFlags {b b' : Broker π} (hb : b.InStep) (h : b.SameFlags b') : b'.InStep :=
  h.2.trans (hb.trans h.1.symm)

/-- A broker in step is running, or refuses every call. -/
theorem InStep.running {b : Broker π} (hb : b.InStep) (h : b.shutdown = false) : b.Running := ⟨h, hb.trans h⟩

/-- No update but the shutdown sets a flag. -/
theorem updates_sameFlags : Updates InMemoryBackend.SameFlag (SameFlags : Broker π → Broker π → Prop) where
  ensureTopic := InMemoryBackend.sameFlag_ensureTopic
  produce := InMemoryBackend.sameFlag_produce
  refl := .refl
  backend _ _ h := ⟨rfl, h⟩
  partitioner _ _ := ⟨rfl, rfl⟩
  group _ _ _ := ⟨rfl, rfl⟩

end Broker

namespace World

variable [Partitioner π] {ids : Nat → BaseConsumer} {w : World π}

/-- The flags stay in step: the shutdown sets both, and any other operation leaves them as they are. -/
private theorem inStep_run (h : w.broker.InStep) (op : Op) : ((op.body ids).run w).2.broker.InStep := by
  have hsame : op ≠ .shutdown → w.broker.SameFlags ((op.body ids).run w).2.broker := by
    intro hop
    have hbody := Op.always_updates ids hop (Broker.updates_sameFlags (π := π)) fun _ _ _ _ =>
      Broker.updates_sameFlags.always_commitOffset fun _ _ _ => ⟨rfl, rfl⟩
    exact hbody.run (fun _ => .refl _) (fun _ _ _ => .trans) w
  by_cases hop : op = .shutdown
  · subst hop
    exact rfl
  · exact h.sameFlags (hsame hop)

theorem inStep_after (h : w.broker.InStep) (ops : List Op) : (w.after ids ops).broker.InStep := by
  induction ops generalizing w with
  | nil => exact h
  | cons op ops ih => exact ih (inStep_run h op)

end World

/-! ### The broker's operations -/

namespace Broker

variable {b : Broker π}

private theorem run_checkShutdown_of_shutdown (h : b.shutdown = true) :
    checkShutdown.run b = (.err .brokerShutdown, b) := by
  simp [checkShutdown, h]

/-- A join checks the shutdown first, and then goes through. -/
private theorem cleanAt_joinGroup (hb : b.InStep) (order : HashOrder) (gid memberId : String) (topics : List String) :
    (joinGroup order gid memberId topics).CleanAt b := by
  intro e t h
  cases hs : b.shutdown with
  | true =>
    rw [joinGroup, Act.run_bind, run_checkShutdown_of_shutdown hs] at h
    exact (Prod.mk.inj h).2.symm
  | false =>
    rcases run_joinGroup (hb.running hs) order gid memberId topics with ⟨-, hrun⟩ | ⟨-, counts, -, hrun⟩
    · rw [hrun] at h
      cases h
    · rw [hrun] at h
      cases h

/-- A leave reads until it updates the group, which cannot fail. -/
private theorem cleanAt_leaveGroup (order : HashOrder) (gid memberId : String) :
    (leaveGroup order gid memberId : BrokerM π Unit).CleanAt b := by
  refine (Act.readOnly_read _).bind_cleanAt fun _ => (Act.readOnly_read _).bind_cleanAt fun _ => ?_
  refine (Act.readOnly_read _).bind_cleanAt fun config => ?_
  refine Act.ReadOnly.bind_cleanAt ?_ fun metadata => Act.InfallibleAt.cleanAt ?_
  · exact Act.Always.zoom (InMemoryBackend.readOnly_metadata _ _) fun b s h => by rw [h]; rfl
  · intro e t h
    rw [onGroup, Act.run_step] at h
    split at h <;> cases (Prod.mk.inj h).1

end Broker

/-! ### The consumer's operations -/

namespace BaseConsumer

open Session

variable (c : BaseConsumer) {s : Session π}

/-- On a running broker no round of a poll fails. -/
private theorem infallibleAt_pollFrom (hr : s.broker.Running) (start len : Nat) (l : List Nat) :
    (c.pollFrom start len l).InfallibleAt s := by
  induction l generalizing s with
  | nil => exact Act.infallibleAt_pure none s
  | cons i l ih =>
    intro e t h
    rw [run_pollFrom_cons] at h
    rcases c.pollRound_passes_or s ((start + i) % len) with hround | ⟨key, position, he⟩
    · rw [hround] at h
      exact ih hr e t h
    · have hround := round_pollRound (c := c) hr he
      generalize c.pollRound s ((start + i) % len) = r at hround h
      cases hround with
      | overflowed => cases h
      | delivered => cases h
      | stayed => exact ih hr e t h
      | @reset p o => exact ih (s := moved s key p.watermarks.1) hr e t h

/-- On any other broker the first round that asks it ends the poll. -/
private theorem cleanAt_pollFrom (hr : ¬s.broker.Running) (start len : Nat) (l : List Nat) :
    (c.pollFrom start len l).CleanAt s := by
  induction l with
  | nil => exact (Act.infallibleAt_pure none s).cleanAt
  | cons i l ih =>
    intro e t h
    rw [run_pollFrom_cons] at h
    rcases c.pollRound_passes_or s ((start + i) % len) with hround | ⟨key, position, he⟩
    · rw [hround] at h
      exact ih e t h
    · obtain ⟨o, -, hround⟩ := pollRound_of_not_running (c := c) hr he
      rw [hround] at h
      exact (Prod.mk.inj h).2.symm

private theorem cleanAt_pollOnce (s : Session π) : c.pollOnce.CleanAt s := by
  intro e t h
  rw [run_pollOnce] at h
  split at h
  · cases h
  · by_cases hr : s.broker.Running
    · exact absurd h (c.infallibleAt_pollFrom hr _ _ _ e t)
    · exact c.cleanAt_pollFrom hr _ _ _ e t h

private theorem cleanAt_subscribe (hs : s.broker.InStep) (order : HashOrder) (topics : List String) :
    (c.subscribe order topics).CleanAt s := by
  refine Act.CleanAt.bind ?_ fun _ _ _ => Act.infallibleAt_modify _ _
  unfold newAssignment
  split
  · exact (Broker.cleanAt_joinGroup hs order _ c.memberId topics).zoom
  · refine Act.ReadOnly.cleanAt ?_ s
    refine Act.ReadOnly.bind (Act.Always.forEach (fun topic => Act.Always.attempt ?_) topics) fun _ => trivial
    exact readOnly_onBroker (Broker.readOnly_metadata (some topic))

private theorem cleanAt_unsubscribe (order : HashOrder) (s : Session π) : (c.unsubscribe order).CleanAt s := by
  refine (Act.readOnly_read _).bind_cleanAt fun _ => Act.CleanAt.bind ?_ fun _ _ _ => Act.infallibleAt_modify _ _
  unfold leave
  split
  · exact (Broker.cleanAt_leaveGroup order _ c.memberId).zoom
  · exact (Act.infallibleAt_pure () s).cleanAt

private theorem cleanAt_commit (tpl : TopicPartitionList) (s : Session π) : (c.commit tpl).CleanAt s := by
  intro e t ht
  cases hc : c.groupId with
  | none =>
    rw [commit, hc] at ht
    cases ht
  | some gid =>
    by_cases h : s.broker.Commits gid
    · rw [c.run_commit hc h] at ht
      cases ht
    · rcases c.run_commit_of_not hc h tpl with ⟨-, hrun⟩ | ⟨e', hrun⟩
      · rw [hrun] at ht
        cases ht
      · rw [hrun] at ht
        exact (Prod.mk.inj ht).2.symm

/-- A request that ends in an error has changed nothing. -/
private theorem cleanAt_body (hs : s.broker.InStep) (r : Request) : (r.body c).CleanAt s := by
  have hreply : ∀ {α : Type} {x : ConsumerM π α} (f : α → Reply), x.CleanAt s → (reply x f).CleanAt s :=
    fun f hx => hx.bind fun a t _ => Act.infallibleAt_pure (f a) t
  cases r with
  | pollOnce => exact hreply _ (c.cleanAt_pollOnce s)
  | subscribe order topics => exact hreply _ (c.cleanAt_subscribe hs order topics)
  | unsubscribe order => exact hreply _ (c.cleanAt_unsubscribe order s)
  | assignment => exact hreply _ ((Act.readOnly_read _).cleanAt s)
  | assign partitions => exact hreply _ (Act.infallibleAt_modify _ s).cleanAt
  | seek topic partition offset =>
    refine hreply _ ((c.readOnly_seekTarget topic partition offset).bind_cleanAt fun target => ?_)
    exact (Act.infallibleAt_modify _ s).cleanAt
  | commit tpl => exact hreply _ (c.cleanAt_commit tpl s)
  | commitMessage msg => exact hreply _ (c.cleanAt_commit _ s)
  | storeOffset topic partition offset => exact hreply _ (Act.infallibleAt_modify _ s).cleanAt
  | committed => exact hreply _ (c.readOnly_committed.cleanAt s)
  | positions => exact hreply _ ((Act.readOnly_read _).cleanAt s)
  | pause partitions => exact hreply _ (Act.infallibleAt_modify _ s).cleanAt
  | resume partitions => exact hreply _ (Act.infallibleAt_modify _ s).cleanAt
  | metadata topic => exact hreply _ ((readOnly_onBroker (Broker.readOnly_metadata topic)).cleanAt s)
  | watermarks topic partition =>
    exact hreply _ ((readOnly_onBroker (Broker.readOnly_watermarks topic partition)).cleanAt s)

end BaseConsumer

/-! ### Every reachable state -/

/-- **Requests are all or nothing.**  Whatever a producer, the consumers and a shutdown have done to a new broker, one
after the other, a request of a consumer that ends in an error leaves the broker with its groups, offsets and logs, and
every consumer, as they are. -/
theorem all_or_nothing [Partitioner π] {config : RmqClientConfig} {partitioner : π} {b : Broker π}
    (hb : Broker.withPartitioner config partitioner = .ok b) (ids : Nat → BaseConsumer) (ops : List Op) (i : Nat)
    (request : Request) {e : RmqError} {w : World π}
    (h : ((Op.consumer i request).body ids).run ((World.init b).after ids ops) = (.err e, w)) :
    w = (World.init b).after ids ops := by
  have hstep : (World.init b).broker.InStep := by
    obtain ⟨c, -, rfl⟩ := Broker.withPartitioner_eq_ok.1 hb
    rfl
  have hafter : ((World.init b).after ids ops).broker.InStep := World.inStep_after hstep ops
  have hclean := (ids i).cleanAt_body (s := ⟨_, ((World.init b).after ids ops).consumers i⟩) hafter request
  exact (Act.CleanAt.zoom (L := World.sessionLens i) hclean) e w h

/-- A commit of a consumer whose group does not exist. -/
theorem all_or_nothing_commit : ∃ b : Broker RoundRobinPartitioner,
    Broker.withPartitioner (RmqClientConfig.new.set ConfigKeys.brokerId "b") .new = .ok b ∧
    let ids : Nat → BaseConsumer := fun _ => ⟨some "g", "m"⟩
    let w := (World.init b).after ids [sendOne]
    ((Op.consumer 0 (.commit ⟨[⟨"t", 0, .offset 0⟩]⟩)).body ids).run w = (.err (.groupNotFound "g"), w) := by
  have hb : Broker.withPartitioner (RmqClientConfig.new.set ConfigKeys.brokerId "b") RoundRobinPartitioner.new =
      .ok _ := rfl
  refine ⟨_, hb, ?_⟩
  intro ids w
  have herr : (((Op.consumer 0 (.commit ⟨[⟨"t", 0, .offset 0⟩]⟩)).body ids).run w).1 = .err (.groupNotFound "g") := by
    decide +kernel
  exact Prod.ext herr (all_or_nothing hb ids [sendOne] 0 _ (Prod.ext herr rfl))

end RMemQueue
