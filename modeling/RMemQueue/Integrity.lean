import RMemQueue.Polling

/-!
# What the logs hold, and where polled messages come from

All operations of any number of threads on one broker.  `Logged` ties the broker to the operations that have ended: the
log of each partition, evicted messages included, consists of the records of the successful sends, and a message that a
poll has returned is in the log.  All steps but the last of a send leave every log as it is.
-/

namespace RMemQueue

open Conc

variable {π : Type}

/-! ### Steps that leave the logs alone -/

namespace Broker

/-- A later state with the same logs. -/
structure Silent (b b' : Broker π) : Prop where
  later : b.Later b'
  log : b'.backend.log = b.backend.log

theorem Silent.refl (b : Broker π) : b.Silent b := ⟨.refl b, rfl⟩

private theorem silent_put {b : Broker π} {backend : InMemoryBackend} (hl : b.backend.Later backend)
    (hlog : backend.log = b.backend.log) : b.Silent { b with backend } := ⟨⟨hl, rfl, id, fun _ => id⟩, hlog⟩

private theorem silent_group (b : Broker π) (groupId : String) (g : ConsumerGroup) :
    b.Silent { b with consumerGroups := b.consumerGroups.insert groupId g } :=
  ⟨updates_later.group b groupId g, rfl⟩

private theorem always_silent_ensureTopic (topic : String) (n : Int) :
    (ensureTopic topic n : BrokerM π Unit).Always Silent := by
  have h : (InMemoryBackend.ensureTopic topic n).Always fun b b' => b.Later b' ∧ b'.log = b.log := by
    refine (InMemoryBackend.readOnly_checkShutdown.always fun b => ⟨.refl b, rfl⟩).bind fun _ => ?_
    refine ((Act.readOnly_read _).always fun b => ⟨.refl b, rfl⟩).bind fun known => ?_
    cases known
    · refine Act.always_modify fun b => ⟨InMemoryBackend.later_insertTopic b _ _, ?_⟩
      exact InMemoryBackend.log_insertTopic b _ _
    · trivial
  exact Act.Always.zoom h fun b s h => silent_put h.1 h.2

private theorem always_silent_read {α : Type} (g : Broker π → Outcome RmqError α) :
    (Act.read g : BrokerM π α).Always Silent :=
  Act.always_read Silent.refl g

/-- No operation of a consumer appends. -/
theorem covers_silent : Covers (Silent : Broker π → Broker π → Prop) :=
  GroupSteps.covers
    { refl := .refl
      ensureTopic := always_silent_ensureTopic
      create := fun b gid => silent_group b gid _
      join := fun b gid _ _ _ _ _ _ => silent_group b gid _
      leave := fun b gid _ _ _ _ _ => silent_group b gid _ }

private theorem always_silent_commitOffset (groupId topic : String) (partition offset : Int) :
    (commitOffset groupId topic partition offset : BrokerM π Unit).Always Silent :=
  (always_silent_read _).bind fun _ => (always_silent_read _).bind fun _ => Act.always_modify fun _ =>
    ⟨⟨.refl _, rfl, id, fun _ => id⟩, rfl⟩

private theorem always_silent_shutdownBroker : (shutdownBroker : BrokerM π Unit).Always Silent := by
  refine (Act.always_modify fun b => ⟨⟨.refl _, rfl, fun _ => rfl, fun _ => id⟩, rfl⟩).bind fun _ => ?_
  have h : InMemoryBackend.shutdownBackend.Always fun b b' => b.Later b' ∧ b'.log = b.log :=
    Act.always_modify fun b => ⟨InMemoryBackend.later_setShutdown b, InMemoryBackend.log_setShutdown b⟩
  exact Act.Always.zoom h fun b s h => silent_put h.1 h.2

end Broker

/-- Only a send appends. -/
theorem Op.always_silent [Partitioner π] (ids : Nat → BaseConsumer) {op : Op} (hop : ∀ call, op ≠ .send call) :
    (op.body ids : Act (World π) RmqError Reply).Always fun w w' => w.broker.Silent w'.broker := by
  cases op with
  | send call => exact absurd rfl (hop call)
  | consumer i request =>
    have hany : request.Updates fun _ _ => True := by
      constructor <;> intros <;> trivial
    refine Act.Always.zoom (request.always_stepOf (ids i) Broker.covers_silent (fun _ => ?_) hany) fun _ _ h => h.1
    exact Broker.always_silent_commitOffset
  | shutdown => exact Act.Always.zoom (always_reply Broker.always_silent_shutdownBroker _) fun _ _ h => h

/-! ### Polled messages -/

/-- The message is or was in the log of its partition. -/
def Broker.Stored (b : Broker π) (m : StoredMessage) : Prop :=
  ∃ n : Nat, m.offset = n ∧ (b.logAt m.place).history[n]? = some m

theorem Broker.Stored.later {b b' : Broker π} {m : StoredMessage} (h : b.Stored m) (hl : b.Later b') : b'.Stored m := by
  obtain ⟨n, hn, hm⟩ := h
  exact ⟨n, hn, TrimmedLog.history_mono (hl.logAt _) hm⟩

theorem Broker.Read.stored {b₀ b : Broker π} {key : String × Int} {position : Option Int} {groupId : Option String}
    {m : StoredMessage} (h : Broker.Read b₀ b key position groupId (.ok (some m))) (hl : b₀.Later b) : b.Stored m := by
  obtain ⟨n, hn, -, hm, -⟩ := h
  have hplace : m.place = key := by
    obtain ⟨-, ht, hp⟩ := InMemoryBackend.stamped hm
    exact Prod.ext ht hp
  exact ⟨n, hn, hplace ▸ TrimmedLog.history_mono (hl.logAt key) hm⟩

namespace BaseConsumer

open Session

variable (c : BaseConsumer)

/-- A poll returns stored messages, also when other threads work on the same consumer. -/
private theorem after_pollFrom_stored (first len : Nat) (l : List Nat) (s s' : Session π) :
    (c.pollFrom first len l).After (fun s s' => s.broker.Later s'.broker) (fun _ _ => True)
      (fun _ o s' => ∀ m, o = .ok (some m) → s'.broker.Stored m) s s' := by
  induction l generalizing s s' with
  | nil =>
    intro m hm
    cases hm
  | cons j l ih =>
    refine Act.After.read_bind trivial ?_ (by simp) (by simp)
    rintro t entry - -
    rcases entry with _ | ⟨key, position, _ | _⟩
    · exact ih t t
    · have hfetch : (onBroker (Broker.fetchOneFromPosition key.1 key.2 position c.groupId)).After
          (fun s s' => s.broker.Later s'.broker) (fun _ _ => True)
          (fun _ o s' => ∀ m, o = .ok (some m) → s'.broker.Stored m) t t := by
        have hstored : ∀ {b : Broker π} {o : Outcome RmqError (Option StoredMessage)},
            (∃ b₀, t.broker.Later b₀ ∧ b₀.Later b ∧ Broker.Read b₀ b key position c.groupId o) →
              ∀ m, o = .ok (some m) → b.Stored m := by
          rintro b o ⟨b₀, -, hl, hread⟩ m rfl
          exact hread.stored hl
        refine Act.After.zoom (Broker.after_fetchOneFromPosition key position c.groupId t.broker) (fun _ => trivial)
          (fun o h => hstored h.2) (fun _ _ h => h) (fun _ _ _ => trivial) fun _ _ _ h => ?_
        obtain ⟨rfl, h⟩ := h
        exact hstored h
      refine (Act.After.attempt hfetch).bind ?_ (fun _ _ _ _ => by simp) fun _ _ _ => by simp
      rintro r u u' ⟨o, ho, hstored⟩
      rcases r with e | (_ | msg)
      · cases e with
        | offsetOutOfRange t p v => exact ⟨trivial, fun v _ => ih _ _⟩
        | topicNotFound => exact ih _ _
        | partitionOutOfRange => exact ih _ _
        | _ => exact fun m hm => by cases hm
      · exact ih _ _
      · obtain rfl : o = .ok (some msg) := by
          rcases o with _ | _ | _ <;> cases ho
          rfl
        refine ⟨trivial, fun v hv m hm => ?_⟩
        obtain rfl : msg = m := by simpa using hm
        exact (hstored msg rfl).later hv
    · exact ih t t

private theorem after_pollOnce_stored (s s' : Session π) :
    c.pollOnce.After (fun s s' => s.broker.Later s'.broker) (fun _ _ => True)
      (fun _ o s' => ∀ m, o = .ok (some m) → s'.broker.Stored m) s s' := by
  refine Act.After.read_bind trivial ?_ (by simp) (by simp)
  rintro t bounds - -
  show Act.After _ _ _ (if bounds.2 = 0 then _ else _) t t
  split
  · intro m hm
    cases hm
  · exact c.after_pollFrom_stored _ _ _ _ _

end BaseConsumer

/-! ### The run -/

/-- The message that an ended operation has appended to the partition. -/
def appendedBy (topic : String) (partition : Int) : Op × Outcome RmqError Reply → Option StoredMessage
  | (.send call, .ok (.record r)) => if r.topic = topic ∧ r.partition = partition then some (call.stored r) else none
  | _ => none

/-- What the last step of an operation does. -/
structure Op.Ends (op : Op) (w : World π) (o : Outcome RmqError Reply) (w' : World π) : Prop where
  later : w.broker.Later w'.broker
  log : ∀ topic partition, (w'.broker.backend.log topic partition).history =
    (w.broker.backend.log topic partition).history ++ (appendedBy topic partition (op, o)).toList
  named : ∀ call r, op = .send call → o = .ok (.record r) →
    r.topic = call.topic ∧ r.timestamp = call.timestamp.getD call.clock.wall
  polled : ∀ i m, op = .consumer i .pollOnce → o = .ok (.message (some m)) → w'.broker.Stored m

/-- The place that an ended operation has reported. -/
def placeOf : Op × Outcome RmqError Reply → Option (String × Int × Int)
  | (.send _, .ok (.record r)) => some (r.topic, r.partition, r.offset)
  | _ => none

/-- How the broker and the operations that have ended are related. -/
structure Logged {ι : Type} (w : World π) (h : List (ι × Op × Outcome RmqError Reply)) : Prop where
  log : ∀ topic partition,
    (w.broker.backend.log topic partition).history = h.filterMap fun e => appendedBy topic partition e.2
  named : ∀ i call r, (i, .send call, .ok (.record r)) ∈ h →
    r.topic = call.topic ∧ r.timestamp = call.timestamp.getD call.clock.wall
  polled : ∀ i c m, (i, .consumer c .pollOnce, .ok (.message (some m))) ∈ h → w.broker.Stored m
  distinct : (h.filterMap fun e => placeOf e.2).Nodup

variable {ι : Type}

private theorem appendedBy_eq_none {op : Op} (hop : ∀ call, op ≠ .send call) (o : Outcome RmqError Reply)
    (topic : String) (partition : Int) : appendedBy topic partition (op, o) = none := by
  cases op with
  | send call => exact absurd rfl (hop call)
  | consumer => rfl
  | shutdown => rfl

/-- An operation that is not a send. -/
private theorem Op.ends_of_silent {op : Op} (hop : ∀ call, op ≠ .send call) {w w' : World π}
    {o : Outcome RmqError Reply} (h : w.broker.Silent w'.broker)
    (hp : ∀ i m, op = .consumer i .pollOnce → o = .ok (.message (some m)) → w'.broker.Stored m) : op.Ends w o w' := by
  refine ⟨h.later, fun topic partition => ?_, fun call _ hcall => absurd hcall (hop call), hp⟩
  rw [h.log, appendedBy_eq_none hop, Option.toList_none, List.append_nil]

variable [Partitioner π] (ids : Nat → BaseConsumer)

omit [Partitioner π] in
private theorem Op.ends_of_produced {call : ProduceCall} {w w' : World π} {o : Outcome RmqError RecordMetadata}
    (hp : Broker.Produced call w.broker o w'.broker) (hl : w.broker.Later w'.broker) :
    (Op.send call).Ends w (o.map .record) w' := by
  rcases hp with ⟨r, rfl, ht, hts, -, ha⟩ | ⟨ho, hq⟩
  · refine ⟨hl, fun topic partition => ?_, fun call' r' hc hr => ?_, fun _ _ h => nomatch h⟩
    · rw [ha.history]
      simp only [Outcome.map, appendedBy, @eq_comm _ topic, @eq_comm _ partition]
      split <;> rfl
    · obtain rfl := Op.send.inj hc
      obtain rfl := Reply.record.inj (Outcome.ok.inj hr)
      exact ⟨ht, hts⟩
  -- a send without a record has appended to no partition
  · cases o with
    | ok r => exact absurd rfl (ho r)
    | err e =>
      refine ⟨hl, fun topic partition => ?_, fun _ _ _ h => (nomatch h), fun _ _ h => (nomatch h)⟩
      rw [hq.backend.log]
      exact (List.append_nil _).symm
    | panic =>
      refine ⟨hl, fun topic partition => ?_, fun _ _ _ h => (nomatch h), fun _ _ h => (nomatch h)⟩
      rw [hq.backend.log]
      exact (List.append_nil _).symm

private theorem Op.after_send (call : ProduceCall) (w : World π) :
    (Op.body ids (.send call)).After (fun w w' => w.broker.Later w'.broker) (fun w w' => w.broker.Silent w'.broker)
      (Op.Ends (.send call)) w w := by
  have hproduce := Broker.after_produce call (.refl w.broker)
  have hlater := (Broker.updates_later.always_produce call.topic call.partition call.content call.headers call.timestamp
    call.clock).after (R := fun b b' => b.backend.Later b'.backend) (.refl w.broker)
  have hbody : (reply call.body .record).After (fun b b' : Broker π => b.backend.Later b'.backend) Broker.Silent
      (fun b o b' => ∃ o' : Outcome RmqError RecordMetadata, o = o'.map .record ∧ Broker.Produced call b o' b' ∧
        b.Later b') w.broker w.broker :=
    after_reply ((hproduce.and hlater).mono (fun _ _ h => ⟨h.2, h.1.backend.log⟩) fun _ o _ h => ⟨o, rfl, h⟩)
  refine Act.After.zoom hbody (fun h => h) ?_ (fun _ _ h => h.backend) (fun _ _ h => h) ?_
  · rintro o ⟨o', rfl, hp, hl⟩
    exact Op.ends_of_produced hp hl
  · rintro w o b ⟨o', rfl, hp, hl⟩
    exact Op.ends_of_produced hp hl

private theorem Op.after_poll (i : Nat) (w : World π) :
    (Op.body ids (.consumer i .pollOnce)).After (fun w w' => w.broker.Later w'.broker) (fun _ _ => True)
      (fun _ o w' => ∀ m, o = .ok (.message (some m)) → w'.broker.Stored m) w w := by
  have hreply : ∀ {b : Broker π} {o : Outcome RmqError (Option StoredMessage)}, (∀ m, o = .ok (some m) → b.Stored m) →
      ∀ m, o.map Reply.message = .ok (.message (some m)) → b.Stored m := by
    rintro b (r | _ | _) h m hm
    · obtain rfl := Reply.message.inj (Outcome.ok.inj hm)
      exact h m rfl
    · cases hm
    · cases hm
  have hbody : ((Request.pollOnce).body (ids i) : ConsumerM π Reply).After
      (fun s s' => s.broker.Later s'.broker) (fun _ _ => True)
      (fun _ o s' => ∀ m, o = .ok (.message (some m)) → s'.broker.Stored m)
      ((World.sessionLens i).get w) ((World.sessionLens i).get w) :=
    after_reply (((ids i).after_pollOnce_stored _ _).mono (fun _ _ h => h) fun _ _ _ h => hreply h)
  exact Act.After.zoom hbody (fun h => h) (fun _ h => h) (fun _ _ h => h) (fun _ _ _ => trivial) fun _ _ _ h => h

/-- Every operation meets its part. -/
theorem Op.after_ends (op : Op) (w : World π) :
    (op.body ids).After (fun w w' => w.broker.Later w'.broker) (fun w w' => w.broker.Silent w'.broker) op.Ends w w := by
  by_cases hsend : ∃ call, op = .send call
  · obtain ⟨call, rfl⟩ := hsend
    exact Op.after_send ids call w
  have hop : ∀ call, op ≠ .send call := fun call h => hsend ⟨call, h⟩
  have hsilent := (Op.always_silent ids hop).after (R := fun w w' : World π => w.broker.Later w'.broker)
    (.refl w.broker)
  by_cases hpoll : ∃ i, op = .consumer i .pollOnce
  · obtain ⟨i, rfl⟩ := hpoll
    refine (hsilent.and (Op.after_poll ids i w)).mono (fun _ _ h => h.1) fun w o w' h => ?_
    exact Op.ends_of_silent hop h.1 fun _ m _ hm => h.2 m hm
  · refine hsilent.mono (fun _ _ h => h) fun w o w' h => ?_
    exact Op.ends_of_silent hop h fun i _ hi => absurd ⟨i, hi⟩ hpoll

/-- What the threads do to one another. -/
private def logProtocol (ι π : Type) : Protocol ι Op (World π) RmqError Reply where
  rely _ w w' := w.broker.Later w'.broker
  inner _ _ w w' := w.broker.Silent w'.broker
  last _ _ op w o w' := op.Ends w o w'
  rely_refl _ w := .refl w.broker
  rely_trans _ _ _ _ h₁ h₂ := h₁.trans h₂
  inner_rely _ _ _ _ _ _ h := h.later
  last_rely _ _ _ _ _ _ _ _ h := h.later

omit [Partitioner π] in
private theorem Logged.silent {w w' : World π} {h : List (ι × Op × Outcome RmqError Reply)} (hl : Logged w h)
    (hs : w.broker.Silent w'.broker) : Logged w' h := by
  refine ⟨fun topic partition => ?_, hl.named, fun i c m hm => (hl.polled i c m hm).later hs.later, hl.distinct⟩
  rw [hs.log, hl.log]

private theorem placeOf_eq_some {e : Op × Outcome RmqError Reply} {place : String × Int × Int}
    (h : placeOf e = some place) :
    ∃ call r, e.1 = .send call ∧ e.2 = .ok (.record r) ∧ place = (r.topic, r.partition, r.offset) := by
  unfold placeOf at h
  split at h
  · rename_i call r
    exact ⟨call, r, rfl, rfl, (Option.some.inj h).symm⟩
  · cases h

omit [Partitioner π] in
/-- A reported place is inside the log. -/
private theorem Logged.inside {w : World π} {h : List (ι × Op × Outcome RmqError Reply)} (hl : Logged w h)
    {place : String × Int × Int} (hp : place ∈ h.filterMap fun e => placeOf e.2) :
    ∃ n : Nat, place.2.2 = n ∧ n < (w.broker.backend.log place.1 place.2.1).next := by
  obtain ⟨⟨i, op, o⟩, he, hp⟩ := List.mem_filterMap.1 hp
  obtain ⟨call, r, rfl, rfl, rfl⟩ := placeOf_eq_some hp
  have hmem : call.stored r ∈ (w.broker.backend.log r.topic r.partition).history := by
    rw [hl.log]
    exact List.mem_filterMap.2 ⟨_, he, by simp [appendedBy]⟩
  obtain ⟨n, hn⟩ := List.mem_iff_getElem?.1 hmem
  have hoff := (InMemoryBackend.stamped hn).1
  rw [ProduceCall.stored, Content.message_offset] at hoff
  exact ⟨n, hoff, (List.getElem?_eq_some_iff.1 hn).1⟩

omit [Partitioner π] in
private theorem Logged.ended {w w' : World π} {h : List (ι × Op × Outcome RmqError Reply)} (hl : Logged w h) {i : ι}
    {op : Op} {o : Outcome RmqError Reply} (he : op.Ends w o w') : Logged w' (h ++ [(i, op, o)]) := by
  refine ⟨fun topic partition => ?_, fun j call r hmem => ?_, fun j c m hmem => ?_, ?_⟩
  · rw [he.log, hl.log, List.filterMap_append]
    cases h : appendedBy topic partition (op, o) <;> simp [h]
  · rcases List.mem_append.1 hmem with hmem | hmem
    · exact hl.named j call r hmem
    · obtain ⟨-, hcall, hr⟩ : j = i ∧ .send call = op ∧ .ok (.record r) = o := by simpa using hmem
      exact he.named call r hcall.symm hr.symm
  · rcases List.mem_append.1 hmem with hmem | hmem
    · exact (hl.polled j c m hmem).later he.later
    · obtain ⟨-, hcall, hm⟩ : j = i ∧ .consumer c .pollOnce = op ∧ .ok (.message (some m)) = o := by simpa using hmem
      exact he.polled c m hcall.symm hm.symm
  · cases hp : placeOf (op, o) with
    | none => simpa [hp] using hl.distinct
    | some place =>
      obtain ⟨call, r, rfl, rfl, rfl⟩ := placeOf_eq_some hp
      -- the new record is at the end of the log, the earlier ones inside it
      have hnew : (appendedBy r.topic r.partition (.send call, .ok (.record r))).toList = [call.stored r] := by
        simp [appendedBy]
      have hlast := he.log r.topic r.partition
      rw [hnew] at hlast
      have hget : (w'.broker.backend.log r.topic r.partition).history[(w.broker.backend.log r.topic r.partition).next]? =
          some (call.stored r) := by
        rw [hlast]
        exact List.getElem?_concat_length
      have hoff := (InMemoryBackend.stamped hget).1
      rw [ProduceCall.stored, Content.message_offset] at hoff
      rw [List.filterMap_append, List.nodup_append]
      refine ⟨hl.distinct, by simp [hp], fun place hplace place' hplace' heq => ?_⟩
      obtain ⟨n, hn, hlt⟩ := hl.inside hplace
      obtain rfl : place' = (r.topic, r.partition, r.offset) := by simpa [hp] using hplace'
      subst heq
      change n < (w.broker.backend.log r.topic r.partition).next at hlt
      change r.offset = n at hn
      omega

/-- The run lemma. -/
theorem logged_exec [DecidableEq ι] {config : RmqClientConfig} {partitioner : π} {b : Broker π}
    (hb : Broker.withPartitioner config partitioner = .ok b) (sched : List (Choice ι Op)) :
    Logged (System.exec (Op.body ids) (.init (World.init b)) sched).shared
      (System.exec (Op.body ids) (.init (World.init b)) sched).history := by
  refine System.exec_invariant (logProtocol ι π) Logged (fun _ _ => True) (fun _ op w _ _ _ => Op.after_ends ids op w)
    (fun _ _ _ _ hs h => h.silent hs) (fun _ _ _ _ _ _ he h => h.ended he) (fun _ _ _ => trivial) ?_
  obtain ⟨c, -, rfl⟩ := Broker.withPartitioner_eq_ok.1 hb
  refine ⟨fun topic partition => ?_, by simp, by simp, List.nodup_nil⟩
  simp only [World.init, InMemoryBackend.log, InMemoryBackend.partition?, InMemoryBackend.topic?_new]
  rfl

end RMemQueue
