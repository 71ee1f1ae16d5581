import RMemQueue.Drain
import RMemQueue.Wakeup

/-!
# The stream of messages (`stream_consumer.rs`)

`MessageStream::poll_next` polls; without a message it calls `notify_one` on the handles of the subscribed partitions,
polls again, and then spawns a task that awaits `notified()` on these handles, one after the other, for at most 100 ms
and then calls the waker.  A handle that nobody waits for stores the permit, so that the task does not have to wait.
-/

namespace RMemQueue

open Conc

/-- `notify_one` wakes the task that waits longest, or stores the permit. -/
def PartitionNotify.notifyOne (n : PartitionNotify) : PartitionNotify :=
  if n.waiters.isEmpty then { n with permit := true } else { n with waiters := n.waiters.dropLast }

namespace InMemoryBackend

def notifyOneAt (b : InMemoryBackend) (r : NotifyRef) : InMemoryBackend :=
  match b.notify? r with
  | some n => b.setNotify r n.notifyOne
  | none => b

/-- `notify_one` on each handle. -/
def notifyOneEach (b : InMemoryBackend) (notifies : List NotifyRef) : InMemoryBackend := notifies.foldl notifyOneAt b

end InMemoryBackend

/-! ### The steps -/

/-- What `poll_next` returns: `Ready`, `Pending` with a call of the waker, or `Pending` with a task that awaits the
handles. -/
inductive PollNext where
  | ready (result : Outcome RmqError StoredMessage)
  | woken
  | spawned (notifies : List NotifyRef)
  deriving DecidableEq

/-- Where a task is: before the handles that are left, in the wait for one of them, or past the call of its waker. -/
inductive WaitPc where
  | awaiting (notifies : List NotifyRef)
  | waiting (notify : NotifyRef) (rest : List NotifyRef)
  | finished
  deriving DecidableEq

/-- A world with the tasks that have been spawned; the number of a task is its place in the list. -/
structure StreamWorld (π : Type) where
  world : World π
  tasks : List WaitPc

/-- What happens next: the stream is polled, a task goes on, the timer of a task ends its wait, another consumer begins
to await handles, or a client calls an operation. -/
inductive StreamEvent where
  | pollNext
  | run (task : Nat)
  | timer (task : Nat)
  | await (notifies : List NotifyRef)
  | op (op : Op)

namespace BaseConsumer

variable {π : Type} (c : BaseConsumer)

/-- A poll that does not return `None` makes `poll_next` return it. -/
def readyOr (r : Outcome RmqError (Option StoredMessage) × Session π) (rest : Session π → PollNext × Session π) :
    PollNext × Session π :=
  match r with
  | (.ok (some msg), s) => (.ready (.ok msg), s)
  | (.err e, s) => (.ready (.err e), s)
  | (.panic, s) => (.ready .panic, s)
  | (.ok none, s) => rest s

/-- `poll_next`; a poll with no time left is one pass over the assignment. -/
def pollNext (s : Session π) : PollNext × Session π :=
  readyOr (c.pollOnce.run s) fun s =>
    if s.state.subscribedTopics.isEmpty then (.woken, s)
    else
      match ((Broker.getPartitionNotifies s.state.subscribedTopics).run s.broker).1 with
      | .ok (r :: rs) =>
        let backend := s.broker.backend.notifyOneEach (r :: rs)
        readyOr (c.pollOnce.run { s with broker := { s.broker with backend } }) fun s => (.spawned (r :: rs), s)
      | .panic => (.ready .panic, s)
      | _ => (.woken, s)

end BaseConsumer

namespace StreamWorld

variable {π : Type}

def backend (w : StreamWorld π) : InMemoryBackend := w.world.broker.backend

def setBackend (w : StreamWorld π) (backend : InMemoryBackend) : StreamWorld π :=
  { w with world := { w.world with broker := { w.world.broker with backend } } }

/-- One step of a task; `timer` ends the wait of one that has not been notified. -/
def goOn (w : StreamWorld π) (task : Nat) : StreamWorld π :=
  match w.tasks[task]? with
  | some (.awaiting []) => { w with tasks := w.tasks.set task .finished }
  | some (.awaiting (r :: rest)) =>
    match w.backend.notify? r with
    | some n => { w.setBackend (w.backend.setNotify r (n.notified task).2) with
        tasks := w.tasks.set task (if (n.notified task).1 then .awaiting rest else .waiting r rest) }
    | none => w
  | some (.waiting r rest) =>
    match w.backend.notify? r with
    | some n => if task ∈ n.waiters then w else { w with tasks := w.tasks.set task (.awaiting rest) }
    | none => w
  | _ => w

def timer (w : StreamWorld π) (task : Nat) : StreamWorld π :=
  match w.tasks[task]? with
  | some (.waiting r _) =>
    match w.backend.notify? r with
    | some n =>
      if task ∈ n.waiters then
        { w.setBackend (w.backend.setNotify r (n.cancel task)) with tasks := w.tasks.set task .finished }
      else w
    | none => w
  | _ => w

variable [Partitioner π] (ids : Nat → BaseConsumer) (i : Nat)

/-- The stream is that of consumer `i`. -/
def next (w : StreamWorld π) : StreamEvent → StreamWorld π
  | .pollNext =>
    let (result, s) := (ids i).pollNext (w.world.session i)
    { world := (World.sessionLens i).put w.world s
      tasks :=
        match result with
        | .spawned notifies => w.tasks ++ [.awaiting notifies]
        | _ => w.tasks }
  | .run task => w.goOn task
  | .timer task => w.timer task
  | .await notifies => { w with tasks := w.tasks ++ [.awaiting notifies] }
  | .op op => { w with world := ((op.body ids).run w.world).2 }

def exec (w : StreamWorld π) (events : List StreamEvent) : StreamWorld π := events.foldl (next ids i) w

/-- The waker of the task is not called before the task's timer, unless a client appends a message or shuts the broker
down. -/
def Quiet (w : StreamWorld π) (task : Nat) : Prop :=
  ∀ later : List StreamEvent,
    (∀ e ∈ later, e ≠ .timer task ∧ (∀ call, e ≠ .op (.send call)) ∧ e ≠ .op .shutdown) →
      (w.exec ids i later).tasks[task]? ≠ some .finished

end StreamWorld

/-! ### Handles -/

namespace InMemoryBackend

variable {b : InMemoryBackend}

/-- The topic of a handle is replaced, if there is one. -/
private theorem setNotify_cases (b : InMemoryBackend) (r : NotifyRef) (n : PartitionNotify) :
    (b.notify? r = none ∧ b.setNotify r n = b) ∨
      ∃ t t' p, b.heap[r.1]? = some t ∧ t.partitions[r.2]? = some p ∧ t'.partitionCount = t.partitionCount ∧
        t'.partitions = t.partitions.set r.2 { p with notify := n } ∧ (b.setNotify r n).topics = b.topics ∧
        (b.setNotify r n).shutdown = b.shutdown ∧ (b.setNotify r n).heap = b.heap.set r.1 t' := by
  unfold setNotify
  split
  · rename_i ht
    exact Or.inl ⟨by rw [notify?, ht]; rfl, rfl⟩
  · rename_i t ht
    split
    · rename_i hp
      exact Or.inl ⟨by rw [notify?, ht, Option.bind_some, hp]; rfl, rfl⟩
    · rename_i p hp
      exact Or.inr ⟨t, t.setPartition r.2 p { p with notify := n } hp ⟨rfl, rfl, le_refl _⟩, p, ht, hp, rfl, rfl, rfl,
        rfl, rfl⟩

theorem notify?_setNotify (b : InMemoryBackend) (r r' : NotifyRef) (n : PartitionNotify) :
    (b.setNotify r n).notify? r' = if r' = r then (b.notify? r).map fun _ => n else b.notify? r' := by
  rcases b.setNotify_cases r n with ⟨hnone, hb⟩ | ⟨t, t', p, ht, hp, -, hparts, -, -, hheap⟩
  · rw [hb]
    split
    · rename_i hr
      rw [hr, hnone]
      rfl
    · rfl
  · obtain ⟨hlt, -⟩ := List.getElem?_eq_some_iff.1 ht
    obtain ⟨hlt', -⟩ := List.getElem?_eq_some_iff.1 hp
    unfold notify?
    rw [hheap]
    by_cases hr : r'.1 = r.1
    · rw [hr, List.getElem?_set_self hlt, ht, Option.bind_some, Option.bind_some, hparts]
      by_cases hr2 : r'.2 = r.2
      · rw [hr2, List.getElem?_set_self hlt', if_pos (Prod.ext hr hr2), hp]
        rfl
      · rw [List.getElem?_set_ne (Ne.symm hr2), if_neg fun h => hr2 (congrArg Prod.snd h), Option.bind_some]
    · rw [List.getElem?_set_ne (Ne.symm hr), if_neg fun h => hr (congrArg Prod.fst h)]

theorem notify?_notifyOneAt (b : InMemoryBackend) (r r' : NotifyRef) :
    (b.notifyOneAt r).notify? r' = if r' = r then (b.notify? r').map .notifyOne else b.notify? r' := by
  unfold notifyOneAt
  split
  · rename_i n hn
    rw [notify?_setNotify]
    split
    · rename_i hr
      rw [hr, hn]
      rfl
    · rfl
  · rename_i hn
    split
    · rename_i hr
      rw [hr, hn]
      rfl
    · rfl

/-- The backends differ in the states of handles only. -/
structure Renotified (b b' : InMemoryBackend) : Prop where
  shutdown : b'.shutdown = b.shutdown
  partition : ∀ topic id, ∃ f : Partition → PartitionNotify,
    b'.partition? topic id = (b.partition? topic id).map fun p => { p with notify := f p }
  notifies : ∀ topics, ((getPartitionNotifies topics).run b').1 = ((getPartitionNotifies topics).run b).1

theorem Renotified.refl (b : InMemoryBackend) : b.Renotified b :=
  ⟨rfl, fun topic id => ⟨fun p => p.notify, by simp⟩, fun _ => rfl⟩

theorem Renotified.trans {b₁ b₂ b₃ : InMemoryBackend} (h₁ : b₁.Renotified b₂) (h₂ : b₂.Renotified b₃) :
    b₁.Renotified b₃ := by
  refine ⟨h₂.shutdown.trans h₁.shutdown, fun topic id => ?_,
    fun topics => (h₂.notifies topics).trans (h₁.notifies topics)⟩
  obtain ⟨f, hf⟩ := h₁.partition topic id
  obtain ⟨g, hg⟩ := h₂.partition topic id
  refine ⟨fun p => g { p with notify := f p }, ?_⟩
  rw [hg, hf, Option.map_map]
  rfl

theorem renotified_setNotify (b : InMemoryBackend) (r : NotifyRef) (n : PartitionNotify) :
    b.Renotified (b.setNotify r n) := by
  rcases b.setNotify_cases r n with ⟨-, hb⟩ | ⟨t, t', p, ht, hp, hcount, -, htopics, hshutdown, hheap⟩
  · rw [hb]
    exact .refl b
  · refine ⟨hshutdown, b.partition?_setNotify r n, fun topics => ?_⟩
    obtain ⟨hlt, -⟩ := List.getElem?_eq_some_iff.1 ht
    refine congrArg Outcome.ok (List.flatMap_congr fun name _ => ?_)
    rw [htopics, hheap]
    cases hl : b.topics.lookup name with
    | none => rfl
    | some a =>
      dsimp only
      by_cases ha : r.1 = a
      · subst ha
        rw [List.getElem?_set_self hlt, ht]
        dsimp only
        rw [hcount]
        have hsome : ∀ j : Nat, (t'.partition? j).isSome = (t.partition? j).isSome := by
          intro j
          rw [Bool.eq_iff_iff, t'.isSome_partition?, t.isSome_partition?, hcount]
        simp only [hsome]
      · rw [List.getElem?_set_ne ha]

/-- What a loop of `notify_one` leaves. -/
theorem renotified_notifyOneEach (b : InMemoryBackend) (notifies : List NotifyRef) :
    b.Renotified (b.notifyOneEach notifies) := by
  induction notifies generalizing b with
  | nil => exact .refl b
  | cons r notifies ih =>
    refine Renotified.trans ?_ (ih _)
    unfold notifyOneAt
    split
    · exact b.renotified_setNotify r _
    · exact .refl b

theorem notify?_notifyOneEach (b : InMemoryBackend) (notifies : List NotifyRef) (r : NotifyRef) :
    (b.notifyOneEach notifies).notify? r = (b.notify? r).map PartitionNotify.notifyOne^[notifies.count r] := by
  induction notifies generalizing b with
  | nil => simp [notifyOneEach]
  | cons r' notifies ih =>
    refine (ih _).trans ?_
    rw [notify?_notifyOneAt, List.count_cons]
    by_cases hr : r = r'
    · subst hr
      rw [if_pos rfl, beq_self_eq_true, if_pos rfl, Option.map_map, ← Function.iterate_succ]
    · rw [if_neg hr, if_neg (by simpa using Ne.symm hr), Nat.add_zero]

/-- A handle of a topic is that of a partition. -/
theorem isSome_notify?_of_mem {topics : List String} {notifies : List NotifyRef}
    (h : ((getPartitionNotifies topics).run b).1 = .ok notifies) {r : NotifyRef} (hr : r ∈ notifies) :
    (b.notify? r).isSome := by
  obtain rfl := Outcome.ok.inj h
  obtain ⟨name, -, hr⟩ := List.mem_flatMap.1 hr
  cases hl : b.topics.lookup name with
  | none =>
    rw [hl] at hr
    cases hr
  | some a =>
    rw [hl] at hr
    cases ht : b.heap[a]? with
    | none =>
      simp only [ht] at hr
      cases hr
    | some t =>
      simp only [ht, List.mem_map, List.mem_filter] at hr
      obtain ⟨j, ⟨-, hj⟩, rfl⟩ := hr
      obtain ⟨p, hp⟩ := Option.isSome_iff_exists.1 hj
      obtain ⟨m, hm, hp⟩ := Topic.partition?_eq_some_iff.1 hp
      obtain rfl : j = m := Int.ofNat.inj hm
      rw [notify?, ht, Option.bind_some, hp]
      rfl

end InMemoryBackend

/-! ### Polls that find nothing -/

namespace BaseConsumer

variable {π : Type} {c : BaseConsumer} {s : Session π}

/-- Everything that the consumer polls is at its end. -/
def Drained (c : BaseConsumer) (s : Session π) : Prop :=
  ∀ key, Polls s key → s.broker.Running ∧ ¬c.Pending s key ∧ ¬c.Overflows s key

/-- The session with other states of the handles. -/
def renotified (s : Session π) (backend : InMemoryBackend) : Session π :=
  { s with broker := { s.broker with backend } }

/-- The handles do not matter for a poll. -/
private theorem sameAt_renotified {backend : InMemoryBackend} (h : s.broker.backend.Renotified backend)
    (key : String × Int) : SameAt c s (renotified s backend) key := by
  obtain ⟨f, hf⟩ := h.partition key.1 key.2
  cases hp : s.broker.backend.partition? key.1 key.2 with
  | none =>
    have hp' : (renotified s backend).broker.backend.partition? key.1 key.2 = none := by
      rw [hp] at hf
      exact hf
    refine ⟨?_, .rfl, ?_⟩
    · simp only [Ready, hp, hp', reduceCtorEq, false_and, exists_false]
    · simp only [Misplaced, hp, hp', reduceCtorEq, false_and, exists_false]
  | some p =>
    have hp' : (renotified s backend).broker.backend.partition? key.1 key.2 = some { p with notify := f p } := by
      rw [hp] at hf
      exact hf
    refine ⟨?_, .rfl, ?_⟩
    · simp only [Ready, hp, hp', Option.some.injEq, exists_and_left, exists_eq_left']
      exact .rfl
    · simp only [Misplaced, hp, hp', Option.some.injEq, exists_and_left, exists_eq_left']
      exact .rfl

private theorem Drained.renotified {backend : InMemoryBackend} (h : s.broker.backend.Renotified backend)
    (hd : c.Drained s) : c.Drained (BaseConsumer.renotified s backend) := by
  intro key hkey
  obtain ⟨hr, hp, ho⟩ := hd key hkey
  obtain ⟨hready, -, hmis⟩ := sameAt_renotified (c := c) h key
  refine ⟨⟨hr.broker, h.shutdown.trans hr.backend⟩, ?_, ho⟩
  rw [pending_iff] at hp ⊢
  rwa [hready, hmis]

/-- What a poll that returns `None` does to the starts. -/
private theorem overflows_of_pollOnce (hr : s.broker.Running) (h : (c.pollOnce.run s).1 = .ok none)
    (key : String × Int) : (c.Overflows (c.pollOnce.run s).2 key ↔ c.Overflows s key) ∧
      (Polls s key → ¬c.Misplaced (c.pollOnce.run s).2 key) := by
  have hpass := pass_pollOnce (c := c) hr
  generalize c.pollOnce.run s = r at h hpass
  cases hpass with
  | message => cases h
  | nothing hsame _ hplaced => exact ⟨hsame.overflows key, fun hk => hplaced key hk.1 hk.2⟩
  | failed ho => exact absurd h (ho none)

/-- A poll of a drained consumer finds nothing, and leaves it drained. -/
private theorem pollOnce_of_drained (hd : c.Drained s) :
    (c.pollOnce.run s).1 = .ok none ∧ c.Drained (c.pollOnce.run s).2 := by
  by_cases hpolls : ∃ key, Polls s key
  · obtain ⟨key, hkey⟩ := hpolls
    have hr := (hd key hkey).1
    have hnone : (c.pollOnce.run s).1 = .ok none := by
      refine (pollOnce_eq_none_iff hr).2 fun k hk hp => ?_
      obtain ⟨-, hpending, hover⟩ := hd k ⟨hk, hp⟩
      rw [pending_iff, not_or] at hpending
      exact ⟨hpending.1, hover, fun hm => absurd hm hpending.2⟩
    have hpass := passed_of_pollOnce hnone
    refine ⟨hnone, fun k hk => ?_⟩
    have hk' : Polls s k := by
      rwa [Polls, hpass.assigned, hpass.paused] at hk
    obtain ⟨-, hpending, hover⟩ := hd k hk'
    exact ⟨hpass.broker ▸ hr, fun h => hpending (hpass.pending k h),
      fun h => hover ((overflows_of_pollOnce hr hnone k).1.1 h)⟩
  · have hrun := pollOnce_of_not_polls (c := c) (not_exists.1 hpolls)
    rw [hrun]
    exact ⟨rfl, hd⟩

/-- Two polls in a row that find nothing leave the consumer drained: the first one has put every position into its
log. -/
private theorem drained_of_pollOnce {backend : InMemoryBackend} (h : (c.pollOnce.run s).1 = .ok none)
    (hb : (c.pollOnce.run s).2.broker.backend.Renotified backend)
    (h' : (c.pollOnce.run (BaseConsumer.renotified (c.pollOnce.run s).2 backend)).1 = .ok none) :
    c.Drained (c.pollOnce.run (BaseConsumer.renotified (c.pollOnce.run s).2 backend)).2 := by
  intro key hkey
  have hpass := passed_of_pollOnce h
  have hpass' := passed_of_pollOnce h'
  have hkey' : Polls (BaseConsumer.renotified (c.pollOnce.run s).2 backend) key := by
    rwa [Polls, hpass'.assigned, hpass'.paused] at hkey
  have hr : s.broker.Running := by
    refine running_of_pollOnce_none h ⟨key, ?_⟩
    rw [Polls, ← hpass.assigned, ← hpass.paused]
    exact hkey'
  have hr' : (BaseConsumer.renotified (c.pollOnce.run s).2 backend).broker.Running :=
    running_of_pollOnce_none h' ⟨key, hkey'⟩
  obtain ⟨hready, hover, -⟩ := (pollOnce_eq_none_iff hr').1 h' key hkey'.1 hkey'.2
  have hplaced : ¬c.Misplaced (BaseConsumer.renotified (c.pollOnce.run s).2 backend) key := by
    rw [(sameAt_renotified hb key).2.2]
    apply (overflows_of_pollOnce hr h key).2
    rw [Polls, ← hpass.assigned, ← hpass.paused]
    exact hkey'
  refine ⟨hpass'.broker ▸ hr', fun hp => ?_, fun ho => hover ((overflows_of_pollOnce hr' h' key).1.1 ho)⟩
  exact (pending_iff.1 (hpass'.pending key hp)).elim hready hplaced

/-- The consumer is drained, and the stream has handles to wait for. -/
structure Resting (c : BaseConsumer) (s : Session π) (notifies : List NotifyRef) : Prop where
  drained : c.Drained s
  subscribed : s.state.subscribedTopics.isEmpty = false
  collected : ((Broker.getPartitionNotifies s.state.subscribedTopics).run s.broker).1 = .ok notifies
  nonempty : notifies ≠ []

private theorem notifies_renotified {backend : InMemoryBackend} (h : s.broker.backend.Renotified backend)
    (topics : List String) : ((Broker.getPartitionNotifies topics).run (BaseConsumer.renotified s backend).broker).1 =
      ((Broker.getPartitionNotifies topics).run s.broker).1 :=
  h.notifies topics

theorem Resting.renotified {backend : InMemoryBackend} {notifies : List NotifyRef}
    (h : s.broker.backend.Renotified backend) (hs : c.Resting s notifies) :
    c.Resting (BaseConsumer.renotified s backend) notifies :=
  ⟨hs.drained.renotified h, hs.subscribed, (notifies_renotified h _).trans hs.collected, hs.nonempty⟩

/-- A consumer that rests goes on to rest after a poll. -/
theorem Resting.pollOnce {notifies : List NotifyRef} (hs : c.Resting s notifies) :
    ∃ s', c.pollOnce.run s = (.ok none, s') ∧ c.Resting s' notifies ∧ s'.broker = s.broker := by
  obtain ⟨hnone, hdrained⟩ := pollOnce_of_drained hs.drained
  have hpass := passed_of_pollOnce hnone
  refine ⟨_, Prod.ext hnone rfl, ⟨hdrained, ?_, ?_, hs.nonempty⟩, hpass.broker⟩
  · rw [hpass.subscribed]
    exact hs.subscribed
  · rw [hpass.subscribed, hpass.broker]
    exact hs.collected

/-- Polled again, the stream posts its notifications again and spawns another task. -/
theorem Resting.pollNext {notifies : List NotifyRef} (hs : c.Resting s notifies) :
    ∃ s', c.pollNext s = (.spawned notifies, s') ∧ c.Resting s' notifies ∧
      s'.broker.backend = s.broker.backend.notifyOneEach notifies := by
  obtain ⟨s₁, hrun, hs₁, hb₁⟩ := hs.pollOnce
  obtain ⟨s₂, hrun₂, hs₂, hb₂⟩ := (hs₁.renotified (s₁.broker.backend.renotified_notifyOneEach notifies)).pollOnce
  refine ⟨s₂, ?_, hs₂, ?_⟩
  · rw [BaseConsumer.pollNext, hrun]
    obtain ⟨r, rs, rfl⟩ := List.exists_cons_of_ne_nil hs.nonempty
    simp only [readyOr, hs₁.subscribed, hs₁.collected, Bool.false_eq_true, ↓reduceIte]
    rw [show c.pollOnce.run { s₁ with broker := { s₁.broker with backend := _ } } = _ from hrun₂]
  · rw [hb₂, ← hb₁]
    rfl

/-- After a call that has spawned a task, the consumer rests. -/
theorem resting_of_pollNext {notifies : List NotifyRef} (h : (c.pollNext s).1 = .spawned notifies) :
    c.Resting (c.pollNext s).2 notifies ∧
      (c.pollNext s).2.broker.backend = s.broker.backend.notifyOneEach notifies := by
  have hready : ∀ {r : Outcome RmqError (Option StoredMessage) × Session π} {rest : Session π → PollNext × Session π},
      (readyOr r rest).1 = .spawned notifies → r.1 = .ok none ∧ readyOr r rest = rest r.2 := by
    intro r rest h
    rcases r with ⟨(_ | msg) | e | _, s'⟩
    · exact ⟨rfl, rfl⟩
    · cases h
    · cases h
    · cases h
  rw [BaseConsumer.pollNext] at h ⊢
  obtain ⟨hnone, hrest⟩ := hready h
  rw [hrest] at h ⊢
  have hpass := passed_of_pollOnce hnone
  cases hsub : (c.pollOnce.run s).2.state.subscribedTopics.isEmpty with
  | true =>
    rw [if_pos hsub] at h
    cases h
  | false =>
    simp only [hsub, Bool.false_eq_true, ↓reduceIte] at h ⊢
    cases hn : ((Broker.getPartitionNotifies (c.pollOnce.run s).2.state.subscribedTopics).run
        (c.pollOnce.run s).2.broker).1 with
    | err e =>
      simp only [hn] at h
      cases h
    | panic =>
      simp only [hn] at h
      cases h
    | ok ns =>
      cases ns with
      | nil =>
        simp only [hn] at h
        cases h
      | cons r rs =>
        simp only [hn] at h ⊢
        obtain ⟨hnone', hrest'⟩ := hready h
        rw [hrest'] at h ⊢
        obtain rfl : r :: rs = notifies := PollNext.spawned.inj h
        have hb := (c.pollOnce.run s).2.broker.backend.renotified_notifyOneEach (r :: rs)
        have hpass' := passed_of_pollOnce hnone'
        refine ⟨⟨drained_of_pollOnce hnone hb hnone', ?_, ?_, List.cons_ne_nil r rs⟩, ?_⟩
        · exact (congrArg List.isEmpty hpass'.subscribed).trans hsub
        · dsimp only
          rw [hpass'.subscribed, hpass'.broker]
          exact (notifies_renotified hb _).trans hn
        · dsimp only
          rw [hpass'.broker, ← hpass.broker]

end BaseConsumer

/-! ### The task -/

namespace StreamWorld

variable {π : Type} [Partitioner π] {ids : Nat → BaseConsumer} {i : Nat} {w : StreamWorld π} {task : Nat}
  {notifies : List NotifyRef}

/-- The consumer of the stream rests. -/
private abbrev Rests (ids : Nat → BaseConsumer) (i : Nat) (w : StreamWorld π) (notifies : List NotifyRef) : Prop :=
  (ids i).Resting (w.world.session i) notifies

private theorem exec_append (w : StreamWorld π) (events events' : List StreamEvent) :
    w.exec ids i (events ++ events') = (w.exec ids i events).exec ids i events' :=
  List.foldl_append

omit [Partitioner π] in
private theorem Rests.notify? (h : Rests ids i w notifies) {r : NotifyRef} (hr : r ∈ notifies) :
    ∃ n, w.backend.notify? r = some n :=
  Option.isSome_iff_exists.1 (InMemoryBackend.isSome_notify?_of_mem h.collected hr)

/-- The stream is polled again. -/
private theorem Rests.pollNext (h : Rests ids i w notifies) :
    Rests ids i (w.next ids i .pollNext) notifies ∧
      (w.next ids i .pollNext).tasks = w.tasks ++ [.awaiting notifies] ∧
      (w.next ids i .pollNext).backend = w.backend.notifyOneEach notifies := by
  obtain ⟨s', hrun, hs', hb⟩ := BaseConsumer.Resting.pollNext h
  have hsession : (w.next ids i .pollNext).world.session i = s' := by
    rw [next, hrun]
    exact (World.sessionLens i).get_put w.world s'
  refine ⟨by rwa [← hsession] at hs', ?_, ?_⟩
  · rw [next, hrun]
  · rw [next, hrun]
    exact hb

omit [Partitioner π] in
private theorem Rests.setNotify (h : Rests ids i w notifies) (r : NotifyRef) (n : PartitionNotify)
    (tasks : List WaitPc) :
    Rests ids i { w.setBackend (w.backend.setNotify r n) with tasks } notifies :=
  BaseConsumer.Resting.renotified (w.backend.renotified_setNotify r n) h

omit [Partitioner π] in
private theorem getElem?_set {pc : WaitPc} (h : w.tasks[task]? = some pc) (pc' : WaitPc) :
    (w.tasks.set task pc')[task]? = some pc' :=
  List.getElem?_set_self (List.getElem?_eq_some_iff.1 h).1

private theorem waiters_notifyOne (n : PartitionNotify) : n.notifyOne.waiters = n.waiters.dropLast := by
  unfold PartitionNotify.notifyOne
  split
  · rename_i hempty
    rw [List.isEmpty_iff.1 hempty]
    rfl
  · rfl

private theorem permit_notifyOne {n : PartitionNotify} (h : n.waiters = []) : n.notifyOne.permit = true := by
  rw [PartitionNotify.notifyOne, h]
  rfl

/-- Each `notify_one` takes a task off the list. -/
private theorem length_waiters_iterate (n : PartitionNotify) (k : Nat) :
    (PartitionNotify.notifyOne^[k] n).waiters.length = n.waiters.length - k := by
  induction k generalizing n with
  | zero => rfl
  | succ k ih =>
    rw [Function.iterate_succ_apply, ih, waiters_notifyOne, List.length_dropLast]
    omega

/-- Polls of the stream release the task from its wait, in the end: each one wakes a task that waits longer. -/
private theorem exists_released {r : NotifyRef} {rest : List NotifyRef} (hr : r ∈ notifies)
    (h : Rests ids i w notifies) (htask : w.tasks[task]? = some (.waiting r rest)) :
    ∃ later, (∀ e ∈ later, e = .pollNext) ∧ Rests ids i (w.exec ids i later) notifies ∧
      (w.exec ids i later).tasks[task]? = some (.waiting r rest) ∧
      ∃ n, (w.exec ids i later).backend.notify? r = some n ∧ task ∉ n.waiters := by
  obtain ⟨n, hn⟩ := h.notify? hr
  -- on the number of tasks that wait
  generalize hk : n.waiters.length = k
  induction k using Nat.strongRecOn generalizing w n with
  | _ k ih =>
    by_cases hmem : task ∈ n.waiters
    · obtain ⟨h', htasks, hb⟩ := h.pollNext
      have htask' : (w.next ids i .pollNext).tasks[task]? = some (.waiting r rest) := by
        rw [htasks, List.getElem?_append_left (List.getElem?_eq_some_iff.1 htask).1, htask]
      have hn' : (w.next ids i .pollNext).backend.notify? r =
          some (PartitionNotify.notifyOne^[notifies.count r] n) := by
        rw [hb, InMemoryBackend.notify?_notifyOneEach, hn]
        rfl
      have hlt : (PartitionNotify.notifyOne^[notifies.count r] n).waiters.length < k := by
        have hcount := List.count_pos_iff.2 hr
        have hpos := List.length_pos_of_mem hmem
        rw [length_waiters_iterate]
        omega
      obtain ⟨later, hlater, hend⟩ := ih _ hlt h' htask' _ hn' rfl
      exact ⟨.pollNext :: later, List.forall_mem_cons.2 ⟨rfl, hlater⟩, hend⟩
    · exact ⟨[], by simp, h, htask, n, hn, hmem⟩

section Step

omit [Partitioner π]

variable {r : NotifyRef} {rest : List NotifyRef} {n : PartitionNotify}

/-- The task takes a permit. -/
private theorem goOn_of_permit (htask : w.tasks[task]? = some (.awaiting (r :: rest)))
    (hn : w.backend.notify? r = some n) (hpermit : n.permit = true) : w.goOn task =
      { w.setBackend (w.backend.setNotify r { n with permit := false }) with
        tasks := w.tasks.set task (.awaiting rest) } := by
  have hnotified : n.notified task = (true, { n with permit := false }) := if_pos hpermit
  rw [goOn, htask]
  dsimp only
  rw [hn]
  dsimp only
  rw [hnotified]
  rfl

/-- Without a permit the task has to wait. -/
private theorem goOn_of_not_permit (htask : w.tasks[task]? = some (.awaiting (r :: rest)))
    (hn : w.backend.notify? r = some n) (hpermit : n.permit = false) : w.goOn task =
      { w.setBackend (w.backend.setNotify r { n with waiters := task :: n.waiters }) with
        tasks := w.tasks.set task (.waiting r rest) } := by
  have hnotified : n.notified task = (false, { n with waiters := task :: n.waiters }) := by
    rw [PartitionNotify.notified, hpermit]
    rfl
  rw [goOn, htask]
  dsimp only
  rw [hn]
  dsimp only
  rw [hnotified]
  rfl

private theorem goOn_of_notified (htask : w.tasks[task]? = some (.waiting r rest))
    (hn : w.backend.notify? r = some n) (hmem : task ∉ n.waiters) :
    w.goOn task = { w with tasks := w.tasks.set task (.awaiting rest) } := by
  rw [goOn, htask]
  dsimp only
  rw [hn]
  dsimp only
  rw [if_neg hmem]

private theorem goOn_finish (htask : w.tasks[task]? = some (.awaiting [])) :
    (w.goOn task).tasks[task]? = some .finished := by
  rw [goOn, htask]
  exact getElem?_set htask _

end Step

/-- While the consumer rests, the task can come to its end: polls of the stream and runs of the task suffice. -/
private theorem exists_finished {rest : List NotifyRef} (hrest : ∀ r ∈ rest, r ∈ notifies)
    (h : Rests ids i w notifies) (htask : w.tasks[task]? = some (.awaiting rest)) :
    ∃ later, (∀ e ∈ later, e = .pollNext ∨ e = .run task) ∧
      (w.exec ids i later).tasks[task]? = some .finished := by
  induction rest generalizing w with
  | nil => exact ⟨[.run task], by simp, goOn_finish htask⟩
  | cons r rest ih =>
    obtain ⟨hr, hrest⟩ := List.forall_mem_cons.1 hrest
    obtain ⟨n, hn⟩ := h.notify? hr
    cases hpermit : n.permit with
    | true =>
      have hstep := goOn_of_permit htask hn hpermit
      obtain ⟨later, hlater, hend⟩ := ih hrest (h.setNotify r _ _) (getElem?_set htask (.awaiting rest))
      refine ⟨.run task :: later, List.forall_mem_cons.2 ⟨Or.inr rfl, hlater⟩, ?_⟩
      rw [← hstep] at hend
      exact hend
    | false =>
      -- the task waits until it is released, and goes on from there
      have hstep := goOn_of_not_permit htask hn hpermit
      obtain ⟨polls, hpolls, h₁, htask₁, n₁, hn₁, hmem⟩ :=
        exists_released hr (h.setNotify r _ _) (getElem?_set htask (.waiting r rest))
      rw [← hstep] at h₁ htask₁ hn₁
      have hstep₁ := goOn_of_notified htask₁ hn₁ hmem
      obtain ⟨later, hlater, hend⟩ := ih (w := { (w.goOn task).exec ids i polls with
        tasks := ((w.goOn task).exec ids i polls).tasks.set task (.awaiting rest) }) hrest h₁
        (getElem?_set htask₁ (.awaiting rest))
      rw [← hstep₁] at hend
      refine ⟨.run task :: (polls ++ .run task :: later), ?_, ?_⟩
      · rw [List.forall_mem_cons, List.forall_mem_append, List.forall_mem_cons]
        exact ⟨Or.inr rfl, fun e he => Or.inl (hpolls e he), Or.inr rfl, hlater⟩
      · show ((w.goOn task).exec ids i (polls ++ .run task :: later)).tasks[task]? = _
        rw [exec_append]
        exact hend

/-- Without other tasks that wait for the handles, the task finds a permit at each of them. -/
private theorem finished_of_permits {rest : List NotifyRef} (hnodup : rest.Nodup)
    (hpermits : ∀ r ∈ rest, ∃ n, w.backend.notify? r = some n ∧ n.permit = true)
    (htask : w.tasks[task]? = some (.awaiting rest)) :
    (w.exec ids i (List.replicate (rest.length + 1) (.run task))).tasks[task]? = some .finished := by
  induction rest generalizing w with
  | nil => exact goOn_finish htask
  | cons r rest ih =>
    obtain ⟨⟨n, hn, hpermit⟩, hrest⟩ := List.forall_mem_cons.1 hpermits
    obtain ⟨hr, hnodup⟩ := List.nodup_cons.1 hnodup
    have hstep := goOn_of_permit htask hn hpermit
    show ((w.goOn task).exec ids i (List.replicate (rest.length + 1) (.run task))).tasks[task]? = _
    rw [hstep]
    refine ih hnodup (fun r' hr' => ?_) (getElem?_set htask _)
    obtain ⟨n', hn', hpermit'⟩ := hrest r' hr'
    refine ⟨n', ?_, hpermit'⟩
    show (w.backend.setNotify r _).notify? r' = some n'
    have hne : r' ≠ r := fun h => hr (h ▸ hr')
    rw [InMemoryBackend.notify?_setNotify, if_neg hne, hn']

/-- A handle that nobody waits for holds a permit after `notify_one`. -/
private theorem permit_iterate {n : PartitionNotify} (h : n.waiters = []) {k : Nat} (hk : 0 < k) :
    (PartitionNotify.notifyOne^[k] n).permit = true := by
  obtain ⟨k, rfl⟩ := Nat.exists_eq_add_one.2 hk
  rw [Function.iterate_succ_apply']
  refine permit_notifyOne (List.length_eq_zero_iff.1 ?_)
  rw [length_waiters_iterate, h]
  exact Nat.zero_sub k

/-- What the call leaves that spawns a task. -/
private theorem spawned_pollNext (h : ((ids i).pollNext (w.world.session i)).1 = .spawned notifies) :
    Rests ids i (w.next ids i .pollNext) notifies ∧
      (w.next ids i .pollNext).tasks[w.tasks.length]? = some (.awaiting notifies) ∧
      (w.next ids i .pollNext).backend = w.backend.notifyOneEach notifies := by
  obtain ⟨hs, hb⟩ := BaseConsumer.resting_of_pollNext h
  have hsession : (w.next ids i .pollNext).world.session i = ((ids i).pollNext (w.world.session i)).2 :=
    (World.sessionLens i).get_put w.world _
  refine ⟨by rwa [← hsession] at hs, ?_, hb⟩
  rw [next]
  dsimp only
  rw [h]
  exact List.getElem?_concat_length

end StreamWorld

open StreamWorld

/-- **The stream wakes itself.**  Each time that `poll_next` returns `Pending` and leaves the rest to a task, nothing is
left to deliver, and yet the waker may be called without a new message: the call itself has posted the notifications.
If nobody else waits for the handles, the task calls the waker as soon as it runs. -/
theorem stream_wakes_itself {π : Type} [Partitioner π] (ids : Nat → BaseConsumer) (i : Nat) (w : StreamWorld π)
    {notifies : List NotifyRef} (h : ((ids i).pollNext (w.world.session i)).1 = .spawned notifies) :
    let w' := w.next ids i .pollNext
    let task := w.tasks.length
    (ids i).Drained (w'.world.session i) ∧ ¬w'.Quiet ids i task ∧
      (notifies.Nodup → (∀ r ∈ notifies, ∀ n, w.backend.notify? r = some n → n.waiters = []) →
        (w'.exec ids i (List.replicate (notifies.length + 1) (.run task))).tasks[task]? = some .finished) := by
  intro w' task
  obtain ⟨hrests, htask, hb⟩ := spawned_pollNext h
  refine ⟨hrests.drained, fun hquiet => ?_, fun hnodup hfree => ?_⟩
  · obtain ⟨later, hlater, hend⟩ := exists_finished (fun r hr => hr) hrests htask
    refine hquiet later (fun e he => ?_) hend
    rcases hlater e he with rfl | rfl
    · simp
    · simp
  · refine finished_of_permits hnodup (fun r hr => ?_) htask
    obtain ⟨n', hn'⟩ := hrests.notify? hr
    have hposted := hn'
    rw [hb, InMemoryBackend.notify?_notifyOneEach] at hposted
    obtain ⟨n, hn, rfl⟩ := Option.map_eq_some_iff.1 hposted
    exact ⟨_, hn', permit_iterate (hfree r hr n hn) (List.count_pos_iff.2 hr)⟩

/-- A member of a group that has subscribed to the topic `t`, which has one partition and no message. -/
def subscribedStream (b : Broker RoundRobinPartitioner) : StreamWorld RoundRobinPartitioner :=
  ⟨(World.init b).after (fun _ => ⟨some "g", "m"⟩) [.consumer 0 (.subscribe default ["t"])], []⟩

/-- The first call of `poll_next` on the stream of that consumer. -/
theorem stream_wakes_itself_first : ∃ b : Broker RoundRobinPartitioner,
    Broker.new (RmqClientConfig.new.set ConfigKeys.brokerId "b") = .ok b ∧
    let ids : Nat → BaseConsumer := fun _ => ⟨some "g", "m"⟩
    let w := (subscribedStream b).next ids 0 .pollNext
    (ids 0).Drained (w.world.session 0) ∧ ¬w.Quiet ids 0 0 := by
  refine ⟨_, rfl, ?_⟩
  intro ids w
  have hcall : ∀ v : StreamWorld RoundRobinPartitioner,
      ((ids 0).pollNext (v.world.session 0)).1 = .spawned [(0, 0)] →
        (ids 0).Drained ((v.next ids 0 .pollNext).world.session 0) ∧
          ¬(v.next ids 0 .pollNext).Quiet ids 0 v.tasks.length := by
    intro v h
    obtain ⟨hdrained, hquiet, -⟩ := stream_wakes_itself ids 0 v h
    exact ⟨hdrained, hquiet⟩
  exact hcall (subscribedStream _) (by decide +kernel)

/-- After that call two steps of the task suffice to call the waker, without a message, a shutdown or a timer. -/
theorem stream_wakes_without_message : ∃ b : Broker RoundRobinPartitioner,
    Broker.new (RmqClientConfig.new.set ConfigKeys.brokerId "b") = .ok b ∧
    let ids : Nat → BaseConsumer := fun _ => ⟨some "g", "m"⟩
    ((ids 0).pollNext ((subscribedStream b).world.session 0)).1 = .spawned [(0, 0)] ∧
      ((subscribedStream b).exec ids 0 [.pollNext]).tasks = [.awaiting [(0, 0)]] ∧
      ((subscribedStream b).exec ids 0 [.pollNext, .run 0, .run 0]).tasks = [.finished] := by
  refine ⟨_, rfl, ?_⟩
  intro ids
  refine ⟨?_, ?_, ?_⟩
  · decide +kernel
  · decide +kernel
  · decide +kernel

end RMemQueue
