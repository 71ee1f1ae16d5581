import RMemQueue.PartitionRun
import RMemQueue.PollOnce

/-!
# Waiting for a message (`stream_consumer.rs`)

`recv` polls once without a timeout; if there is no message it collects the handles of the partitions of the subscribed
topics and awaits `notified()` on one after the other, then it polls again.  Producers append in between; an append and
its `notify_waiters` are one step, which wakes the tasks that are registered with that one partition.

* `append_before_wait`: an append between the poll and the registration is slept through.
* `no_lost_wakeup`: when this and the two other ways to miss a message are excluded (the message arrives at a partition
  that is not the one awaited last, a poll only corrects positions), `recv` never waits while there is something to
  deliver.
-/

namespace RMemQueue

open Conc

/-! ### The handles of the partitions -/

/-- `notified()`: the task takes the stored permit, or it is registered and has to wait. -/
def PartitionNotify.notified (n : PartitionNotify) (task : Nat) : Bool × PartitionNotify :=
  if n.permit then (true, { n with permit := false }) else (false, { n with waiters := task :: n.waiters })

/-- A wait that is given up. -/
def PartitionNotify.cancel (n : PartitionNotify) (task : Nat) : PartitionNotify :=
  { n with waiters := n.waiters.filter (· ≠ task) }

theorem Topic.later_setPartition {t : Topic} {n : Nat} {p p' : Partition} (h : t.partitions[n]? = some p)
    (hp : p.Later p') : t.Later (t.setPartition n p p' h hp) := by
  refine ⟨rfl, rfl, fun id q hq => ?_⟩
  rw [partition?_setPartition n p p' h hp]
  by_cases hid : id = n
  · subst hid
    obtain ⟨m, hm, hq⟩ := partition?_eq_some_iff.1 hq
    obtain rfl : n = m := by omega
    obtain rfl := Option.some.inj (h.symm.trans hq)
    exact ⟨p', if_pos rfl, hp⟩
  · exact ⟨q, by rw [if_neg hid, hq], .refl q⟩

namespace InMemoryBackend

/-- The handle that a reference stands for. -/
def notify? (b : InMemoryBackend) (r : NotifyRef) : Option PartitionNotify :=
  (b.heap[r.1]?).bind fun t => (t.partitions[r.2]?).map (·.notify)

/-- The handle of a partition. -/
def notifyRef? (b : InMemoryBackend) (topic : String) (partition : Int) : Option NotifyRef :=
  (b.topics.lookup topic).map (·, partition.toNat)

/-- The backend with a new state of one handle. -/
def setNotify (b : InMemoryBackend) (r : NotifyRef) (n : PartitionNotify) : InMemoryBackend :=
  match ht : b.heap[r.1]? with
  | none => b
  | some t =>
    match hp : t.partitions[r.2]? with
    | none => b
    | some p =>
      b.setTopic r.1 t (t.setPartition r.2 p { p with notify := n } hp ⟨rfl, rfl, le_refl _⟩) ht
        (Topic.later_setPartition hp _)

end InMemoryBackend

/-! ### The steps -/

/-- Where a call of `recv` is: before its poll, before it collects the handles, in the loop over the handles that are
left, in the wait for one of them, or at its end. -/
inductive RecvPc where
  | polling
  | collecting
  | awaiting (notifies : List NotifyRef)
  | waiting (notify : NotifyRef) (rest : List NotifyRef)
  | returned (result : Outcome RmqError StoredMessage)

/-- The task that executes `recv`, with the broker and the state of its consumer. -/
structure RecvTask (π : Type) where
  session : Session π
  pc : RecvPc

/-- What happens next: the task goes on, its timer of 30 s ends the wait, `recv` is called again, or a producer does
something. -/
inductive RecvEvent where
  | recv
  | timer
  | call
  | append (topic : String) (partition : Int) (call : AppendCall)
  | ensureTopic (topic : String) (numPartitions : Int)

namespace RecvTask

variable {π : Type} (c : BaseConsumer) (task : Nat)

def backend (w : RecvTask π) : InMemoryBackend := w.session.broker.backend

def setBackend (w : RecvTask π) (backend : InMemoryBackend) : RecvTask π :=
  { w with session := { w.session with broker := { w.session.broker with backend } } }

/-- The task is registered with the handle. -/
def Registered (w : RecvTask π) (r : NotifyRef) : Prop := ∃ n, w.backend.notify? r = some n ∧ task ∈ n.waiters

instance (w : RecvTask π) (r : NotifyRef) : Decidable (w.Registered task r) :=
  match h : w.backend.notify? r with
  | none => isFalse (by rintro ⟨n, hn, -⟩; rw [h] at hn; cases hn)
  | some n =>
    if hm : task ∈ n.waiters then isTrue ⟨n, h, hm⟩
    else isFalse (by rintro ⟨n', hn, hm'⟩; rw [h] at hn; exact hm (Option.some.inj hn ▸ hm'))

/-- One step of `recv`. -/
def recv (w : RecvTask π) : RecvTask π :=
  match w.pc with
  | .polling =>
    match c.pollOnce.run w.session with
    | (.ok (some msg), s) => ⟨s, .returned (.ok msg)⟩
    | (.ok none, s) => ⟨s, .collecting⟩
    | (.err e, s) => ⟨s, .returned (.err e)⟩
    | (.panic, s) => ⟨s, .returned .panic⟩
  | .collecting =>
    if w.session.state.subscribedTopics.isEmpty then { w with pc := .polling }
    else
      match ((Broker.getPartitionNotifies w.session.state.subscribedTopics).run w.session.broker).1 with
      | .ok notifies => { w with pc := if notifies.isEmpty then .polling else .awaiting notifies }
      | .err e => { w with pc := .returned (.err e) }
      | .panic => { w with pc := .returned .panic }
  | .awaiting [] => { w with pc := .polling }
  | .awaiting (r :: rest) =>
    match w.backend.notify? r with
    | some n => { w.setBackend (w.backend.setNotify r (n.notified task).2) with
        pc := if (n.notified task).1 then .awaiting rest else .waiting r rest }
    | none => { w with pc := .returned .panic }
  | .waiting r rest => if w.Registered task r then w else { w with pc := .awaiting rest }
  | .returned _ => w

/-- What an event does; one that is not possible now changes nothing. -/
def next (w : RecvTask π) : RecvEvent → RecvTask π
  | .recv => w.recv c task
  | .timer =>
    match w.pc with
    | .waiting r _ =>
      match w.backend.notify? r with
      | some n => { w.setBackend (w.backend.setNotify r (n.cancel task)) with pc := .polling }
      | none => { w with pc := .polling }
    | _ => w
  | .call =>
    match w.pc with
    | .returned _ => { w with pc := .polling }
    | _ => w
  | .append topic partition call => w.setBackend
      ((InMemoryBackend.produce topic partition call.content call.headers call.timestamp call.clock).run w.backend).2
  | .ensureTopic topic numPartitions => w.setBackend ((InMemoryBackend.ensureTopic topic numPartitions).run w.backend).2

def exec (w : RecvTask π) (events : List RecvEvent) : RecvTask π := events.foldl (next c task) w

/-! ### What must not happen -/

/-- `recv` sleeps until it is notified or its timer ends. -/
def Suspended (w : RecvTask π) : Prop := ∃ r rest, w.pc = .waiting r rest ∧ w.Registered task r

/-- The partition is assigned, not paused, and one of a subscribed topic. -/
def Watches (w : RecvTask π) (key : String × Int) : Prop :=
  BaseConsumer.Polls w.session key ∧ key.1 ∈ w.session.state.subscribedTopics

/-- `recv` sleeps although the consumer has something to deliver. -/
def Lost (w : RecvTask π) : Prop := w.Suspended task ∧ ∃ key, w.Watches key ∧ c.Pending w.session key

/-- What is pending will be polled: the task polls next, and waits for nothing before. -/
def Alert (w : RecvTask π) : Prop :=
  match w.pc with
  | .polling | .awaiting [] | .returned _ => True
  | .waiting r [] => ¬w.Registered task r
  | _ => False

/-- The task takes notice of an append to the partition: it polls next, or waits for that partition last. -/
def Hears (w : RecvTask π) (key : String × Int) : Prop :=
  match w.pc with
  | .polling | .awaiting [] | .returned _ => True
  | .waiting r [] => w.Registered task r → w.backend.notifyRef? key.1 key.2 = some r
  | _ => False

/-- No message is missed in this step: an append to a watched partition that leaves something to deliver is heard, and a
poll that meets a misplaced position also finds a message (or fails). -/
def Heeded (w : RecvTask π) : RecvEvent → Prop
  | .recv => w.pc = .polling → (∃ key, w.Watches key ∧ c.Misplaced w.session key) →
      ∃ key, BaseConsumer.Polls w.session key ∧ (c.Ready w.session key ∨ c.Overflows w.session key ∨
        c.Misplaced w.session key ∧ 2 ≤ w.session.state.assignedPartitions.keys.count key)
  | .append topic partition call => w.Watches (topic, partition) →
      c.Pending (w.next c task (.append topic partition call)).session (topic, partition) →
        w.Hears task (topic, partition)
  | _ => True

/-- No message is missed in any step. -/
def AllHeeded : RecvTask π → List RecvEvent → Prop
  | _, [] => True
  | w, e :: events => w.Heeded c task e ∧ AllHeeded (w.next c task e) events

end RecvTask

/-! ### What the steps leave as it is -/

namespace InMemoryBackend

variable {b : InMemoryBackend}

theorem partition?_setNotify (b : InMemoryBackend) (r : NotifyRef) (n : PartitionNotify) (topic : String)
    (id : Int) : ∃ f : Partition → PartitionNotify,
    (b.setNotify r n).partition? topic id = (b.partition? topic id).map fun p => { p with notify := f p } := by
  have hsame : b.partition? topic id = (b.partition? topic id).map fun p => { p with notify := p.notify } := by simp
  unfold setNotify
  split
  · exact ⟨_, hsame⟩
  · rename_i t ht
    split
    · exact ⟨_, hsame⟩
    · rename_i p hp
      obtain ⟨hlt, -⟩ := List.getElem?_eq_some_iff.1 ht
      cases hl : b.topics.lookup topic with
      | none => exact ⟨fun p => p.notify, by simp [partition?, topic?, setTopic, hl]⟩
      | some a =>
        by_cases ha : a = r.1
        · subst ha
          by_cases hid : id = r.2
          · subst hid
            refine ⟨fun _ => n, ?_⟩
            have hpt : t.partition? r.2 = some p := Topic.partition?_eq_some_iff.2 ⟨r.2, rfl, hp⟩
            simp [partition?, topic?, setTopic, hl, List.getElem?_set_self hlt, ht, Topic.partition?_setPartition, hpt]
          · refine ⟨fun p => p.notify, ?_⟩
            simp [partition?, topic?, setTopic, hl, List.getElem?_set_self hlt, ht, Topic.partition?_setPartition, hid]
        · refine ⟨fun p => p.notify, ?_⟩
          simp [partition?, topic?, setTopic, hl, List.getElem?_set_ne (Ne.symm ha)]

private theorem notify_of_appendContent {p p' : Partition} {content : Content} {headers : Option OwnedHeaders}
    {timestamp : Option Int} {clock : Clock} {r : Int × Int}
    (h : p.appendContent content headers timestamp clock = some (r, p')) : p'.notify = p.notify.notify := by
  unfold Partition.appendContent at h
  split at h
  · cases h
  · obtain ⟨-, rfl⟩ := Prod.mk.inj (Option.some.inj h)
    rfl

/-- The partitions of a topic after an append. -/
private theorem partitions_produce {t : Topic} {partition : Int} {p p' : Partition} {content : Content}
    {headers : Option OwnedHeaders} {timestamp : Option Int} {clock : Clock} {r : Int × Int}
    (hp : t.partition? partition = some p) (ha : p.appendContent content headers timestamp clock = some (r, p')) :
    (t.produce partition content headers timestamp clock).2.partitions = t.partitions.set partition.toNat p' := by
  have hg := t.getPartition_eq partition
  rw [hp] at hg
  unfold Topic.produce
  split
  · rename_i e he
    rw [he] at hg
    cases hg
  · rename_i q hq
    obtain rfl : q = p := by
      rw [hq] at hg
      exact Except.ok.inj hg
    split
    · rename_i hnone
      rw [ha] at hnone
      cases hnone
    · rename_i r' q' hq'
      obtain ⟨-, rfl⟩ := Prod.mk.inj (Option.some.inj (ha.symm.trans hq'))
      rfl

/-- The topics after an append. -/
private theorem heap_produce {b : InMemoryBackend} (hs : b.shutdown = false) {topic : String} {a : TopicRef} {t : Topic}
    (ha : b.topics.lookup topic = some a) (ht : b.heap[a]? = some t) (partition : Int) (call : AppendCall) :
    ((produce topic partition call.content call.headers call.timestamp call.clock).run b).2.heap =
      b.heap.set a (t.produce partition call.content call.headers (some (call.timestamp.getD call.clock.wall))
        call.clock).2 := by
  have hstep : ((produceAt a partition call.content call.headers (some (call.timestamp.getD call.clock.wall))
      call.clock).run b).2.heap = b.heap.set a (t.produce partition call.content call.headers
        (some (call.timestamp.getD call.clock.wall)) call.clock).2 := by
    rw [produceAt, Act.run_step]
    split
    · rename_i u hu
      obtain rfl : t = u := Option.some.inj (ht.symm.trans hu)
      rfl
    · rename_i hu
      rw [ht] at hu
      cases hu
  rw [produce, Act.run_bind, run_checkShutdown hs, Outcome.andThen_ok, Act.run_bind]
  simp only [getTopic, Act.run_read, ha, Outcome.andThen_ok, Act.run_bind]
  rw [← hstep]
  rcases (produceAt a partition call.content call.headers (some (call.timestamp.getD call.clock.wall))
    call.clock).run b with ⟨_ | _ | _, b'⟩ <;> rfl

/-- An append wakes the tasks that wait for its partition, and concerns no other one. -/
private theorem run_produce_notify (b : InMemoryBackend) (topic : String) (partition : Int) (call : AppendCall)
    {b' : InMemoryBackend}
    (hb' : b' = ((produce topic partition call.content call.headers call.timestamp call.clock).run b).2) :
    b' = b ∨ ((∀ name id, ¬(name = topic ∧ id = partition) → b'.partition? name id = b.partition? name id) ∧
      ∃ r, b.notifyRef? topic partition = some r ∧
        ∀ r', b'.notify? r' = if r' = r then (b.notify? r').map (·.notify) else b.notify? r') := by
  cases hs : b.shutdown with
  | true => exact Or.inl (by rw [hb', produce, Act.run_bind]; simp [checkShutdown, hs])
  | false =>
    rcases run_produce_cases hs topic partition call.content call.headers call.timestamp call.clock with
      ⟨p, r, p', b'', hp, hpa, hrun, hl, -, hq⟩ | ⟨-, hrun⟩ | ⟨p, -, -, hrun⟩
    · obtain rfl : b' = b'' := by rw [hb', hrun]
      refine Or.inr ⟨fun name id hne => (hq name id).trans (if_neg hne), ?_⟩
      -- the `Notify` of the partition is `(a, n)`, and the append calls `notify_waiters` on it
      obtain ⟨t, ht, hpt⟩ := Option.bind_eq_some_iff.1 hp
      obtain ⟨a, ha, hat⟩ := Option.bind_eq_some_iff.1 ht
      obtain ⟨n, rfl, hn⟩ := Topic.partition?_eq_some_iff.1 hpt
      obtain ⟨hlt, -⟩ := List.getElem?_eq_some_iff.1 hat
      obtain ⟨hlt', -⟩ := List.getElem?_eq_some_iff.1 hn
      have hheap := heap_produce hs ha hat n call
      have hparts := partitions_produce hpt hpa
      rw [← hb'] at hheap
      refine ⟨(a, n), by simp [notifyRef?, ha], fun r' => ?_⟩
      unfold notify?
      rw [hheap]
      by_cases hr : r'.1 = a
      · rw [hr, List.getElem?_set_self hlt, hat, Option.bind_some, Option.bind_some, hparts, Int.toNat_natCast]
        by_cases hr2 : r'.2 = n
        · rw [hr2, List.getElem?_set_self hlt', if_pos (Prod.ext hr hr2), hn]
          simp [notify_of_appendContent hpa]
        · rw [List.getElem?_set_ne (Ne.symm hr2), if_neg fun h => hr2 (congrArg Prod.snd h)]
      · rw [List.getElem?_set_ne (Ne.symm hr), if_neg fun h => hr (congrArg Prod.fst h)]
    · exact Or.inl (by rw [hb', hrun])
    · exact Or.inl (by rw [hb', hrun])

end InMemoryBackend

namespace RecvTask

variable {π : Type} {c : BaseConsumer} {task : Nat} {w : RecvTask π} {key : String × Int}

/-- What is pending depends on a log that is not empty, the position and the commits. -/
private theorem pending_of_setBackend {backend : InMemoryBackend}
    (hp : ∀ p', backend.partition? key.1 key.2 = some p' → p'.buffer.log ≠ [] →
      ∃ p, w.backend.partition? key.1 key.2 = some p ∧ p'.buffer = p.buffer ∧ p'.abs = p.abs)
    (h : c.Pending (w.setBackend backend).session key) : c.Pending w.session key := by
  obtain ⟨p', o, hp', ho, m, hm, hle⟩ := h
  obtain ⟨p, hpe, hbuf, habs⟩ := hp p' hp' (List.ne_nil_of_mem hm)
  have hmarks : p'.watermarks = p.watermarks := by
    unfold Partition.watermarks
    rw [hbuf]
  refine ⟨p, o, hpe, ?_, m, by rwa [← hbuf], by rwa [← habs]⟩
  rw [BaseConsumer.point?, ← hmarks]
  exact ho

private theorem pending_of_setNotify {r : NotifyRef} {n : PartitionNotify}
    (h : c.Pending (w.setBackend (w.backend.setNotify r n)).session key) : c.Pending w.session key := by
  refine pending_of_setBackend (fun p' hp' _ => ?_) h
  obtain ⟨f, hf⟩ := w.backend.partition?_setNotify r n key.1 key.2
  rw [hf] at hp'
  obtain ⟨p, hp, rfl⟩ := Option.map_eq_some_iff.1 hp'
  exact ⟨p, hp, rfl, rfl⟩

/-- A topic that is created has nothing to deliver and nobody who waits. -/
private theorem ensureTopic_cases (b : InMemoryBackend) (topic : String) (n : Int) :
    ((InMemoryBackend.ensureTopic topic n).run b).2 = b ∨
      ((InMemoryBackend.ensureTopic topic n).run b).2 = b.insertTopic topic n := by
  cases hs : b.shutdown with
  | true =>
    left
    rw [InMemoryBackend.ensureTopic, Act.run_bind]
    simp [InMemoryBackend.checkShutdown, hs]
  | false =>
    right
    rw [InMemoryBackend.run_ensureTopic hs]

private theorem pending_of_insertTopic {topic : String} {n : Int}
    (h : c.Pending (w.setBackend (w.backend.insertTopic topic n)).session key) : c.Pending w.session key := by
  refine pending_of_setBackend (fun p' hp' hne => ?_) h
  obtain ⟨t, ht, hpt⟩ := Option.bind_eq_some_iff.1 hp'
  rw [InMemoryBackend.topic?_insertTopic] at ht
  split at ht
  · -- the partition is one of the new topic
    obtain rfl := Option.some.inj ht
    rw [Topic.partition?_new] at hpt
    split at hpt
    · obtain rfl := Option.some.inj hpt
      exact absurd rfl hne
    · cases hpt
  · exact ⟨p', by rw [InMemoryBackend.partition?, ht]; exact hpt, rfl, rfl⟩

private theorem registered_of_insertTopic {topic : String} {n : Int} {r : NotifyRef}
    (h : (w.setBackend (w.backend.insertTopic topic n)).Registered task r) : w.Registered task r := by
  obtain ⟨m, hm, hmem⟩ := h
  have hm' : (w.backend.insertTopic topic n).notify? r = some m := hm
  unfold InMemoryBackend.insertTopic at hm'
  split at hm'
  · exact ⟨m, hm', hmem⟩
  · obtain ⟨t, ht, hmt⟩ := Option.bind_eq_some_iff.1 hm'
    obtain ⟨p, hp, rfl⟩ := Option.map_eq_some_iff.1 hmt
    rcases Nat.lt_or_ge r.1 w.backend.heap.length with hlt | hge
    · rw [List.getElem?_append_left hlt] at ht
      exact ⟨p.notify, by rw [InMemoryBackend.notify?, ht, Option.bind_some, hp]; rfl, hmem⟩
    · rw [List.getElem?_append_right hge] at ht
      obtain rfl := List.mem_singleton.1 (List.mem_of_getElem? ht)
      obtain ⟨i, -, rfl⟩ := List.mem_map.1 (List.mem_of_getElem? hp)
      simp [Partition.new, PartitionNotify.new] at hmem

/-- Nothing is pending, or it will be polled. -/
private def Awake (c : BaseConsumer) (task : Nat) (w : RecvTask π) : Prop :=
  ∀ key, w.Watches key → c.Pending w.session key → w.Alert task

/-- A poll that returns `None` leaves nothing to deliver. -/
private theorem not_pending_of_pollOnce (he : w.Heeded c task .recv) (hpc : w.pc = .polling)
    (hnone : (c.pollOnce.run w.session).1 = .ok none) (hw : w.Watches key) : ¬c.Pending w.session key := by
  intro hp
  have hr := BaseConsumer.running_of_pollOnce_none hnone ⟨key, hw.1⟩
  have hidle := (BaseConsumer.pollOnce_eq_none_iff hr).1 hnone
  rcases BaseConsumer.pending_iff.1 hp with hready | hmis
  · exact (hidle key hw.1.1 hw.1.2).1 hready
  · obtain ⟨k, hk, hready | hover | ⟨hmis', hcount⟩⟩ := he hpc ⟨key, hw, hmis⟩
    · exact (hidle k hk.1 hk.2).1 hready
    · exact (hidle k hk.1 hk.2).2.1 hover
    · have := (hidle k hk.1 hk.2).2.2 hmis'
      omega

/-- The poll apart, a step of `recv` touches the handles only. -/
private theorem session_recv (hpc : w.pc ≠ .polling) : (w.recv c task).session = w.session ∨
    ∃ r n, (w.recv c task).session = (w.setBackend (w.backend.setNotify r n)).session := by
  unfold recv
  split
  · contradiction
  · left
    split
    · rfl
    · split <;> rfl
  · exact Or.inl rfl
  · split
    · exact Or.inr ⟨_, _, rfl⟩
    · exact Or.inl rfl
  · left
    split <;> rfl
  · exact Or.inl rfl

private theorem alert_recv (hpc : w.pc ≠ .polling) (h : w.Alert task) : (w.recv c task).Alert task := by
  unfold Alert at h
  split at h
  · contradiction
  · rename_i hw
    simp [recv, hw, Alert]
  · rename_i hw
    simp [recv, hw, Alert]
  · rename_i r hw
    simp [recv, hw, Alert, h]
  · exact h.elim

private theorem Awake.recv (h : Awake c task w) (he : w.Heeded c task .recv) : Awake c task (w.recv c task) := by
  intro key hw hp
  by_cases hpc : w.pc = .polling
  · unfold RecvTask.recv at hw hp ⊢
    rw [hpc] at hw hp ⊢
    rcases hrun : c.pollOnce.run w.session with ⟨(_ | msg) | e | _, s⟩
    -- the poll found nothing, so that no watched partition is pending
    · have hnone : (c.pollOnce.run w.session).1 = .ok none := by rw [hrun]
      have hpass := BaseConsumer.passed_of_pollOnce hnone
      simp only [hrun] at hw hp hpass
      have hw' : w.Watches key := by
        obtain ⟨⟨ha, hu⟩, ht⟩ := hw
        exact ⟨⟨by rwa [← hpass.assigned], by rwa [← hpass.paused]⟩, by rwa [← hpass.subscribed]⟩
      exact absurd (hpass.pending key hp) (not_pending_of_pollOnce he hpc hnone hw')
    · trivial
    · trivial
    · trivial
  -- the other steps of `recv` leave the session alone
  · apply alert_recv hpc
    unfold Watches at hw
    have hsession : (w.recv c task).session = w.session ∨
        ∃ r n, (w.recv c task).session = (w.setBackend (w.backend.setNotify r n)).session := session_recv hpc
    rcases hsession with hs | ⟨r, n, hs⟩
    · rw [hs] at hw hp
      exact h key hw hp
    · rw [hs] at hw hp
      exact h key hw (pending_of_setNotify hp)

/-- A task that is alert stays so while others only wake tasks. -/
private theorem Alert.setBackend {backend : InMemoryBackend} (h : w.Alert task)
    (hreg : ∀ r, (w.setBackend backend).Registered task r → w.Registered task r) :
    (w.setBackend backend).Alert task := by
  unfold Alert at h ⊢
  split at h
  · rename_i hw
    simp [RecvTask.setBackend, hw]
  · rename_i hw
    simp [RecvTask.setBackend, hw]
  · rename_i hw
    simp [RecvTask.setBackend, hw]
  · rename_i r hw
    have hpc : (w.setBackend backend).pc = .waiting r [] := hw
    rw [hpc]
    exact fun hr => h (hreg r hr)
  · exact h.elim

private theorem Awake.append (h : Awake c task w) {topic : String} {partition : Int} {call : AppendCall}
    (he : w.Heeded c task (.append topic partition call)) :
    Awake c task (w.next c task (.append topic partition call)) := by
  intro key hw hp
  rcases InMemoryBackend.run_produce_notify w.backend topic partition call rfl with hsame | ⟨hother, r, hr, hnotify⟩
  · -- the append has failed
    have hw' : w.next c task (.append topic partition call) = w := by
      show w.setBackend _ = w
      rw [hsame]
      rfl
    rw [hw'] at hw hp ⊢
    exact h key hw hp
  · have hreg : ∀ r', (w.next c task (.append topic partition call)).Registered task r' →
        r' ≠ r ∧ w.Registered task r' := by
      rintro r' ⟨n, hn, hmem⟩
      have hn' := (hnotify r').symm.trans hn
      split at hn'
      · obtain ⟨m, -, rfl⟩ := Option.map_eq_some_iff.1 hn'
        cases hmem
      · rename_i hne
        exact ⟨hne, n, hn', hmem⟩
    by_cases hkey : key.1 = topic ∧ key.2 = partition
    · -- the message is for a watched partition, so that the task hears of it
      obtain ⟨rfl, rfl⟩ := hkey
      have hhears := he hw hp
      unfold Hears at hhears
      unfold Alert
      have hpc : (w.next c task (.append key.1 key.2 call)).pc = w.pc := rfl
      rw [hpc]
      split at hhears
      · trivial
      · trivial
      · trivial
      · intro hr'
        obtain ⟨hne, hr''⟩ := hreg _ hr'
        exact hne (Option.some.inj ((hhears hr'').symm.trans hr))
      · exact hhears.elim
    · have hp' : c.Pending w.session key := by
        refine pending_of_setBackend (fun p' hp' _ => ⟨p', ?_, rfl, rfl⟩) hp
        exact (hother key.1 key.2 hkey).symm.trans hp'
      exact Alert.setBackend (h key hw hp') fun r' hr' => (hreg r' hr').2

private theorem Awake.ensureTopic (h : Awake c task w) (topic : String) (n : Int) :
    Awake c task (w.next c task (.ensureTopic topic n)) := by
  intro key hw hp
  show (w.setBackend _).Alert task
  have hp' : c.Pending (w.setBackend ((InMemoryBackend.ensureTopic topic n).run w.backend).2).session key := hp
  rcases ensureTopic_cases w.backend topic n with hb | hb
  · rw [hb] at hp' ⊢
    exact h key hw hp'
  · rw [hb] at hp' ⊢
    exact Alert.setBackend (h key hw (pending_of_insertTopic hp')) fun r => registered_of_insertTopic

/-- The step lemma. -/
private theorem Awake.next (h : Awake c task w) {e : RecvEvent} (he : w.Heeded c task e) :
    Awake c task (w.next c task e) := by
  cases e with
  | recv => exact h.recv he
  | append topic partition call => exact h.append he
  | ensureTopic topic n => exact h.ensureTopic topic n
  | timer =>
    simp only [RecvTask.next]
    split
    · intro key hw hp
      split <;> trivial
    · exact h
  | call =>
    simp only [RecvTask.next]
    split
    · intro key hw hp
      trivial
    · exact h

private theorem Awake.exec (h : Awake c task w) {events : List RecvEvent} (he : w.AllHeeded c task events) :
    Awake c task (w.exec c task events) := by
  induction events generalizing w with
  | nil => exact h
  | cons e events ih => exact ih (h.next he.1) he.2

private theorem not_lost_of_awake (h : Awake c task w) : ¬w.Lost c task := by
  rintro ⟨⟨r, rest, hpc, hreg⟩, key, hw, hp⟩
  have halert := h key hw hp
  unfold Alert at halert
  rw [hpc] at halert
  cases rest with
  | nil => exact halert hreg
  | cons r' rest => exact halert

end RecvTask

/-- When no message is missed in any step, `recv` never sleeps while a watched partition has something to deliver. -/
theorem no_lost_wakeup {π : Type} (c : BaseConsumer) (task : Nat) {w : RecvTask π} (hw : w.pc = .polling)
    {events : List RecvEvent} (h : w.AllHeeded c task events) : ¬(w.exec c task events).Lost c task := by
  refine RecvTask.not_lost_of_awake (RecvTask.Awake.exec (fun key _ _ => ?_) h)
  unfold RecvTask.Alert
  rw [hw]
  trivial

/-- A consumer that has subscribed to the topic `t`, which has one partition and no message, and calls `recv`. -/
def subscribedTask (b : Broker RoundRobinPartitioner) : RecvTask RoundRobinPartitioner :=
  ⟨((BaseConsumer.subscribe ⟨none, "m"⟩ default ["t"]).run ⟨((Broker.ensureTopic "t" 1).run b).2, .new⟩).2, .polling⟩

/-- A message that arrives while `recv` waits for its partition. -/
theorem no_lost_wakeup_waiting : ∃ b : Broker RoundRobinPartitioner,
    Broker.new (RmqClientConfig.new.set ConfigKeys.brokerId "b") = .ok b ∧
    ¬((subscribedTask b).exec ⟨none, "m"⟩ 0 [.recv, .recv, .recv, .append "t" 0 appendByte, .recv]).Lost
      ⟨none, "m"⟩ 0 := by
  refine ⟨_, rfl, no_lost_wakeup ⟨none, "m"⟩ 0 rfl ⟨fun _ => ?_, nofun, nofun, fun _ _ _ => ?_, nofun, trivial⟩⟩
  · rintro ⟨key, ⟨⟨hkey, -⟩, -⟩, p, o, hp, ho, hout, -⟩
    obtain rfl : key = ("t", 0) := List.mem_singleton.1 hkey
    obtain rfl := Option.some.inj hp
    obtain rfl := Option.some.inj ho
    exact absurd hout (by decide +kernel)
  · rfl

/-- A message that arrives after the poll and before the registration: `recv` sleeps although it has to deliver it. -/
theorem append_before_wait : ∃ b : Broker RoundRobinPartitioner,
    Broker.new (RmqClientConfig.new.set ConfigKeys.brokerId "b") = .ok b ∧
    ((subscribedTask b).exec ⟨none, "m"⟩ 0 [.recv, .append "t" 0 appendByte, .recv, .recv]).Lost ⟨none, "m"⟩ 0 := by
  refine ⟨_, rfl, ⟨(0, 0), [], rfl, by decide +kernel⟩, ("t", 0), ⟨⟨by decide +kernel, by decide +kernel⟩,
    by decide +kernel⟩, ?_⟩
  exact BaseConsumer.pending_iff.2 (Or.inl ⟨_, 0, rfl, rfl, by decide +kernel, by decide +kernel⟩)

end RMemQueue
