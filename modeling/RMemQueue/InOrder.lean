import RMemQueue.Polling

/-!
# In-order delivery

A consumer without a group whose assignment stays fixed and which one thread polls, pauses and resumes.  `InOrder` ties
the state of the consumer to what its polls have returned so far: below a stored position every offset has been
returned or evicted, and every returned message lies below the position or has been evicted.  The second fact allows
for the reset of the position to `0` on an emptied log, and still excludes that a message is returned twice.

The invariant survives the steps of other threads, since a log only grows and loses messages at its front; and a poll
keeps it, since it held when the log was read (`inOrder_pollInvariant`).
-/

namespace RMemQueue

open Conc

variable {π : Type}

/-- The messages that polls have returned. -/
def delivered (h : Calls) : List StoredMessage :=
  h.filterMap fun e =>
    match e with
    | (.consumer _ .pollOnce, .ok (.message m)) => m
    | _ => none

/-- The partitions that are paused after the calls. -/
def pausedAfter (start : Finset (String × Int)) (h : Calls) : Finset (String × Int) :=
  h.foldl (fun paused e =>
    match e.1 with
    | .consumer _ (.pause l) => paused ∪ l.keys.toFinset
    | .consumer _ (.resume l) => paused \ l.keys.toFinset
    | _ => paused) start

namespace Broker

/-- The message at the offset has been returned or evicted. -/
def Settled (b : Broker π) (h : Calls) (key : String × Int) (o : Nat) : Prop :=
  (∃ m ∈ delivered h, m.place = key ∧ m.offset = o) ∨ o < (b.logAt key).dropped

end Broker

/-- What ties a consumer to the calls that its thread has ended; `start` is what was paused at first. -/
structure InOrder (start : Finset (String × Int)) (s : Session π) (h : Calls) : Prop where
  position : ∀ key v, s.state.position.lookup key = some v →
    ∃ n : Nat, v = n ∧ n ≤ (s.broker.logAt key).next ∧ ∀ o < n, s.broker.Settled h key o
  stored : ∀ m ∈ delivered h, ∃ n : Nat, m.offset = n ∧ (s.broker.logAt m.place).history[n]? = some m ∧
    ((∃ v, s.state.position.lookup m.place = some v ∧ m.offset < v) ∨ n < (s.broker.logAt m.place).dropped)
  increasing : ∀ key, ((delivered h).filter (·.place = key)).Pairwise (·.offset < ·.offset)
  paused : s.state.paused = pausedAfter start h
  unpaused : ∀ k e, h[k]? = some e → ∀ m ∈ delivered [e], m.place ∉ pausedAfter start (h.take k)

/-! ### Other threads -/

section

variable {start : Finset (String × Int)} {s s' : Session π} {b b' : Broker π} {h : Calls} {key : String × Int}

theorem Broker.Settled.later {o : Nat} (hs : b.Settled h key o) (hl : b.Later b') : b'.Settled h key o :=
  hs.imp_right fun ho => ho.trans_le (TrimmedLog.dropped_mono (hl.logAt key))

theorem InOrder.rely (hs : InOrder start s h) (hl : s.broker.Later s'.broker) (he : s'.state = s.state) :
    InOrder start s' h := by
  refine ⟨fun key v hv => ?_, fun m hm => ?_, hs.increasing, he ▸ hs.paused, hs.unpaused⟩
  · obtain ⟨n, hn, hle, hsettled⟩ := hs.position key v (he ▸ hv)
    exact ⟨n, hn, hle.trans (TrimmedLog.next_mono (hl.logAt key)), fun o ho => (hsettled o ho).later hl⟩
  · obtain ⟨n, hn, hm', hcase⟩ := hs.stored m hm
    refine ⟨n, hn, TrimmedLog.history_mono (hl.logAt _) hm', ?_⟩
    rw [he]
    exact hcase.imp_right fun ho => ho.trans_le (TrimmedLog.dropped_mono (hl.logAt _))

/-! ### Calls that return no message -/

@[simp] theorem delivered_append (h h' : Calls) : delivered (h ++ h') = delivered h ++ delivered h' :=
  List.filterMap_append

@[simp] theorem pausedAfter_append (h h' : Calls) : pausedAfter start (h ++ h') = pausedAfter (pausedAfter start h) h' :=
  List.foldl_append

/-- A message that is returned after those of its partition with smaller offsets. -/
theorem increasing_concat {l : List StoredMessage} {m : StoredMessage}
    (h : (l.filter (·.place = key)).Pairwise (·.offset < ·.offset))
    (hlast : ∀ m' ∈ l, m'.place = m.place → m'.offset < m.offset) :
    ((l ++ [m]).filter (·.place = key)).Pairwise (·.offset < ·.offset) := by
  rw [List.filter_append, List.pairwise_append]
  refine ⟨h, ?_, fun a ha b hb => ?_⟩
  · by_cases hkey : m.place = key <;> simp [hkey]
  · obtain ⟨ha, hka⟩ := List.mem_filter.1 ha
    obtain ⟨hb, hkb⟩ := List.mem_filter.1 hb
    obtain rfl := List.mem_singleton.1 hb
    simp only [decide_eq_true_eq] at hka hkb
    exact hlast a ha (hka.trans hkb.symm)

private theorem unpaused_append {e : Op × Outcome RmqError Reply}
    (hu : ∀ k e, h[k]? = some e → ∀ m ∈ delivered [e], m.place ∉ pausedAfter start (h.take k))
    (he : ∀ m ∈ delivered [e], m.place ∉ pausedAfter start h) (k : Nat) (e' : Op × Outcome RmqError Reply)
    (hk : (h ++ [e])[k]? = some e') : ∀ m ∈ delivered [e'], m.place ∉ pausedAfter start ((h ++ [e]).take k) := by
  rcases Nat.lt_trichotomy k h.length with hlt | rfl | hgt
  · rw [List.getElem?_append_left hlt] at hk
    rw [List.take_append_of_le_length hlt.le]
    exact hu k e' hk
  · rw [List.getElem?_concat_length] at hk
    obtain rfl := Option.some.inj hk
    rw [List.take_left]
    exact he
  · rw [List.getElem?_eq_none (by simp; omega)] at hk
    cases hk

private theorem Broker.Settled.append {o : Nat} (hs : b.Settled h key o) (h' : Calls) : b.Settled (h ++ h') key o := by
  refine hs.imp_left fun ⟨m, hm, hk⟩ => ⟨m, ?_, hk⟩
  rw [delivered_append]
  exact List.mem_append_left _ hm

/-- A call that returns no message and leaves the positions alone. -/
theorem InOrder.silent (hs : InOrder start s h) {e : Op × Outcome RmqError Reply} (he : delivered [e] = [])
    {state : ConsumerState} (hpos : state.position = s.state.position)
    (hpaused : state.paused = pausedAfter s.state.paused [e]) : InOrder start ⟨s.broker, state⟩ (h ++ [e]) := by
  refine ⟨fun key v hv => ?_, ?_, ?_, ?_, unpaused_append hs.unpaused (by simp [he])⟩
  · obtain ⟨n, hn, hle, hsettled⟩ := hs.position key v (hpos ▸ hv)
    exact ⟨n, hn, hle, fun o ho => (hsettled o ho).append _⟩
  · rw [delivered_append, he, List.append_nil, hpos]
    exact hs.stored
  · rw [delivered_append, he, List.append_nil]
    exact hs.increasing
  · rw [pausedAfter_append, ← hs.paused]
    exact hpaused

/-! ### What a poll stores -/

/-- A message that was returned from a partition lies below the position or has been evicted. -/
private theorem InOrder.below (hs : InOrder start s h) {m : StoredMessage} (hm : m ∈ delivered h) (hk : m.place = key) :
    (∃ v, s.state.position.lookup key = some v ∧ m.offset < v) ∨ m.offset < (s.broker.logAt key).dropped := by
  obtain ⟨n, hn, -, hcase⟩ := hs.stored m hm
  rw [hk] at hcase
  exact hcase.imp_right fun hlt => by omega

/-- What a poll returns from a partition follows all that it has returned before, and skips only what has been evicted. -/
private theorem InOrder.read (hs₀ : InOrder start ⟨b, s.state⟩ h) (hl : b.Later s.broker) {m : StoredMessage}
    (hread : Broker.Read b s.broker key (s.state.position.lookup key) none (.ok (some m))) :
    ∃ n : Nat, m.offset = n ∧ (s.broker.logAt key).history[n]? = some m ∧ (∀ o < n, s.broker.Settled h key o) ∧
      ∀ m' ∈ delivered h, m'.place = key → m'.offset < n := by
  obtain ⟨n, hn, hd, hm, hpos, hnone⟩ := hread
  refine ⟨n, hn, TrimmedLog.history_mono (hl.logAt key) hm, fun o ho => ?_, fun m' hm' hk => ?_⟩
  · refine Broker.Settled.later ?_ hl
    cases hp : s.state.position.lookup key with
    | some v =>
      obtain ⟨k, hk, -, hsettled⟩ := hs₀.position key v hp
      have := hpos v hp
      exact hsettled o (by omega)
    -- without a position the poll begins at the oldest message
    | none => exact Or.inr (ho.trans_le (hnone hp rfl))
  · rcases hs₀.below hm' hk with ⟨v, hv, hlt⟩ | hlt
    · have := hpos v hv
      omega
    · change m'.offset < (b.logAt key).dropped at hlt
      omega

/-- What was returned from a partition whose position is out of range has been evicted. -/
private theorem InOrder.out_of_range (hs₀ : InOrder start ⟨b, s.state⟩ h) {t : String} {p v : Int}
    (hread : Broker.Read b s.broker key (s.state.position.lookup key) none (.err (.offsetOutOfRange t p v)))
    {m : StoredMessage} (hm : m ∈ delivered h) (hk : m.place = key) : m.offset < (b.logAt key).dropped := by
  obtain ⟨-, hout⟩ := hread
  rcases hs₀.below hm hk with ⟨o, ho, hlt⟩ | hlt
  · obtain ⟨k, hk', hle, -⟩ := hs₀.position key o ho
    change k ≤ (b.logAt key).next at hle
    have := hout o ho
    omega
  · exact hlt

/-- A poll returns the message that its fetch has found. -/
private theorem InOrder.deliver (hs₀ : InOrder start ⟨b, s.state⟩ h) (hs : InOrder start s h) (hl : b.Later s.broker)
    {m : StoredMessage} (hread : Broker.Read b s.broker key (s.state.position.lookup key) none (.ok (some m)))
    (hp : key ∉ s.state.paused) (i idx : Nat) : InOrder start ⟨s.broker, s.state.delivered key m.offset idx⟩
      (h ++ [(.consumer i .pollOnce, .ok (.message (some m)))]) := by
  obtain ⟨n, hn, hm, hsettled, hdel⟩ := hs₀.read hl hread
  have hplace : m.place = key := by
    obtain ⟨-, ht, hp⟩ := InMemoryBackend.stamped hm
    exact Prod.ext ht hp
  have hlast : delivered [((.consumer i .pollOnce, .ok (.message (some m))) : Op × Outcome RmqError Reply)] = [m] := rfl
  refine ⟨fun key' v hv => ?_, fun m' hm' => ?_, fun key' => ?_, ?_, unpaused_append hs.unpaused ?_⟩
  -- the position of the partition moves to the offset after the message
  · by_cases hk : key' = key
    · subst hk
      rw [ConsumerState.lookup_delivered] at hv
      obtain rfl := Option.some.inj hv
      obtain ⟨hlt, -⟩ := List.getElem?_eq_some_iff.1 hm
      refine ⟨n + 1, by omega, hlt, fun o ho => ?_⟩
      rcases Nat.lt_succ_iff_lt_or_eq.1 ho with ho | rfl
      · exact (hsettled o ho).append _
      · refine Or.inl ⟨m, ?_, hplace, hn⟩
        rw [delivered_append, hlast]
        exact List.mem_append_right _ (List.mem_singleton_self m)
    · rw [ConsumerState.lookup_delivered_ne _ _ _ hk] at hv
      obtain ⟨k, hk, hle, hs⟩ := hs.position key' v hv
      exact ⟨k, hk, hle, fun o ho => (hs o ho).append _⟩
  · rw [delivered_append, hlast, List.mem_append, List.mem_singleton] at hm'
    -- the messages delivered before stay below the position
    rcases hm' with hm' | rfl
    · obtain ⟨k, hk, hget, hcase⟩ := hs.stored m' hm'
      refine ⟨k, hk, hget, ?_⟩
      by_cases hkey : m'.place = key
      · rw [hkey, ConsumerState.lookup_delivered]
        have := hdel m' hm' hkey
        exact Or.inl ⟨m.offset + 1, rfl, by omega⟩
      · rwa [ConsumerState.lookup_delivered_ne _ _ _ hkey]
    · rw [hplace, ConsumerState.lookup_delivered]
      exact ⟨n, hn, hm, Or.inl ⟨m'.offset + 1, rfl, by omega⟩⟩
  -- the fetch began above everything delivered from the partition
  · rw [delivered_append, hlast]
    refine increasing_concat (hs.increasing key') fun m' hm' hk => ?_
    rw [hn]
    exact hdel m' hm' (hk.trans hplace)
  · rw [pausedAfter_append, ← hs.paused]
    rfl
  · rw [hlast, ← hs.paused]
    intro m' hm'
    obtain rfl := List.mem_singleton.1 hm'
    rwa [hplace]

/-- A poll resets a position. -/
private theorem InOrder.reset (hs₀ : InOrder start ⟨b, s.state⟩ h) (hs : InOrder start s h) (hl : b.Later s.broker)
    {t : String} {p v : Int}
    (hread : Broker.Read b s.broker key (s.state.position.lookup key) none (.err (.offsetOutOfRange t p v))) :
    InOrder start ⟨s.broker, s.state.setPosition key v⟩ h := by
  obtain ⟨n, hn, hle⟩ := hread.1
  refine ⟨fun key' v' hv => ?_, fun m hm => ?_, hs.increasing, hs.paused, hs.unpaused⟩
  · by_cases hk : key' = key
    · subst hk
      rw [ConsumerState.lookup_setPosition] at hv
      obtain rfl := Option.some.inj hv
      exact ⟨n, hn, hle.trans (TrimmedLog.dropped_le_next _), fun o ho => Or.inr (ho.trans_le hle)⟩
    · rw [ConsumerState.lookup_setPosition_ne _ _ hk] at hv
      exact hs.position key' v' hv
  · obtain ⟨k, hk, hget, hcase⟩ := hs.stored m hm
    refine ⟨k, hk, hget, ?_⟩
    by_cases hkey : m.place = key
    -- what was delivered has been trimmed: the position may go back over nothing
    · refine Or.inr ?_
      have hlt := hs₀.out_of_range hread hm hkey
      have hd := TrimmedLog.dropped_mono (hl.logAt key)
      rw [hkey]
      show k < (s.broker.logAt key).dropped
      omega
    · rwa [ConsumerState.lookup_setPosition_ne _ _ hkey]

/-- A poll of a consumer without a group keeps the invariant. -/
theorem inOrder_pollInvariant (start : Finset (String × Int)) (i : Nat) :
    PollInvariant (InOrder (π := π) start) i none where
  rely hs hl he := hs.rely hl he
  silent {s h o} hs ho := by
    refine hs.silent ?_ rfl rfl
    rcases o with (_ | m) | _ | _
    · rfl
    · exact absurd rfl (ho m)
    · rfl
    · rfl
  reset hs₀ hs hl hread := hs₀.reset hs hl hread
  deliver hs₀ hs hl hread _ hp idx := hs₀.deliver hs hl hread hp i idx

end

/-- The requests that leave the assignment and the positions to the polls. -/
def Request.Polling : Request → Prop
  | pollOnce => True
  | pause _ => True
  | resume _ => True
  | _ => False

private theorem Request.Polling.keeps {r : Request} (hr : r.Polling) (hne : r ≠ .pollOnce)
    (start : Finset (String × Int)) (i : Nat) (c : BaseConsumer) : r.Keeps (InOrder (π := π) start) i c := by
  intro s h hs
  cases r with
  | pause l => exact after_reply ⟨id, fun t ht ht' => ht'.silent rfl rfl rfl⟩
  | resume l => exact after_reply ⟨id, fun t ht ht' => ht'.silent rfl rfl rfl⟩
  | pollOnce => exact absurd rfl hne
  | _ => exact hr.elim

/-! ### The run -/

section

variable {ι : Type} [DecidableEq ι] [Partitioner π] {ids : Nat → BaseConsumer} {i : Nat}

theorem inOrder_exec (hi : (ids i).groupId = none) (t : ι) {w₀ : World π} (hpos : (w₀.consumers i).position = ∅)
    {sched : List (Choice ι Op)} (ht : ∀ op, .call t op ∈ sched → ∃ r : Request, op = .consumer i r ∧ r.Polling)
    (hother : ∀ j op, .call j op ∈ sched → j ≠ t → op.actor ≠ some i) :
    InOrder (w₀.consumers i).paused ((World.sessionLens i).get (System.exec (Op.body ids) (.init w₀) sched).shared)
      (own t (System.exec (Op.body ids) (.init w₀) sched).history) := by
  have hpoll : PollInvariant (InOrder (π := π) (w₀.consumers i).paused) i (ids i).groupId := by
    rw [hi]
    exact inOrder_pollInvariant _ i
  refine hpoll.exec t (fun op => ∃ r : Request, op = .consumer i r ∧ r.Polling) ?_ ?_ ?_ ht hother
  · rintro r ⟨r', hr, hpolling⟩ hne
    cases hr
    exact hpolling.keeps hne _ i _
  · rintro op ⟨r, rfl, -⟩ hactor
    exact absurd rfl hactor
  · refine ⟨fun key v hv => ?_, by simp [delivered], by simp [delivered], rfl, by simp⟩
    change (w₀.consumers i).position.lookup key = some v at hv
    rw [hpos] at hv
    cases hv

/-- **In-order delivery.**  Thread `t` only polls, pauses and resumes a consumer without a group that starts without
stored positions; other threads produce and do anything with other consumers.  After every schedule: the messages that
the polls have returned from a partition have strictly increasing offsets; each of them is the message that was stored
at its offset; none was returned while its partition was paused; and every offset below a returned one, or below the
position of the consumer, has been returned or evicted. -/
theorem delivered_in_order (hi : (ids i).groupId = none) (t : ι) {w₀ : World π} (hpos : (w₀.consumers i).position = ∅)
    {sched : List (Choice ι Op)} (ht : ∀ op, .call t op ∈ sched → ∃ r : Request, op = .consumer i r ∧ r.Polling)
    (hother : ∀ j op, .call j op ∈ sched → j ≠ t → op.actor ≠ some i) {w : System ι Op (World π) RmqError Reply}
    (hw : w = System.exec (Op.body ids) (.init w₀) sched) :
    (∀ key, ((delivered (own t w.history)).filter (·.place = key)).Pairwise (·.offset < ·.offset)) ∧
    (∀ m ∈ delivered (own t w.history), ∃ n : Nat, m.offset = n ∧
      (w.shared.broker.backend.log m.topic m.partition).history[n]? = some m) ∧
    (∀ k e, (own t w.history)[k]? = some e → ∀ m ∈ delivered [e],
      m.place ∉ pausedAfter (w₀.consumers i).paused ((own t w.history).take k)) ∧
    (∀ m ∈ delivered (own t w.history), ∀ o : Nat, o < m.offset →
      w.shared.broker.Settled (own t w.history) m.place o) ∧
    ∀ key v, (w.shared.consumers i).position.lookup key = some v → ∀ o : Nat, o < v →
      w.shared.broker.Settled (own t w.history) key o := by
  have hin : InOrder (w₀.consumers i).paused ((World.sessionLens i).get w.shared) (own t w.history) := by
    rw [hw]
    exact inOrder_exec hi t hpos ht hother
  have hbelow : ∀ key v, (w.shared.consumers i).position.lookup key = some v → ∀ o : Nat, o < v →
      w.shared.broker.Settled (own t w.history) key o := by
    intro key v hv o ho
    obtain ⟨n, rfl, -, hsettled⟩ := hin.position key v hv
    exact hsettled o (by omega)
  refine ⟨hin.increasing, fun m hm => ?_, hin.unpaused, fun m hm o ho => ?_, hbelow⟩
  · obtain ⟨n, hn, hget, -⟩ := hin.stored m hm
    exact ⟨n, hn, hget⟩
  · obtain ⟨n, hn, -, ⟨v, hv, hlt⟩ | hlt⟩ := hin.stored m hm
    · exact hbelow m.place v hv o (ho.trans hlt)
    · refine Or.inr ?_
      change n < (w.shared.broker.logAt m.place).dropped at hlt
      omega

end

/-- A thread that polls twice while another one sends. -/
def pollsAndSends : List (Choice Nat Op) :=
  [.call 1 sendOne] ++ List.replicate 20 (.step 1) ++ [.call 0 (.consumer 0 .pollOnce), .call 1 sendOne] ++
    (List.replicate 20 [.step 0, .step 1]).flatten ++ [.call 0 (.consumer 0 .pollOnce)] ++ List.replicate 20 (.step 0)

/-- Both messages are returned, in order. -/
theorem delivered_in_order_two : ∃ b : Broker RoundRobinPartitioner,
    Broker.new (RmqClientConfig.new.set ConfigKeys.brokerId "b") = .ok b ∧
    let w₀ : World RoundRobinPartitioner :=
      ⟨b, fun _ => { ConsumerState.new with assignedPartitions := ⟨[⟨"t", 0, .stored⟩]⟩ }⟩
    let h := own 0 (System.exec (Op.body fun _ => ⟨none, "m"⟩) (.init w₀) pollsAndSends).history
    (delivered h).map (·.offset) = [0, 1] ∧
      ∀ key, ((delivered h).filter (·.place = key)).Pairwise (·.offset < ·.offset) := by
  refine ⟨_, rfl, by decide +kernel, (delivered_in_order (i := 0) rfl 0 rfl (fun op hop => ?_) (fun j op hop hj => ?_) rfl).1⟩
  · have hcall : op = .consumer 0 .pollOnce := by simpa [pollsAndSends] using hop
    exact ⟨.pollOnce, hcall, trivial⟩
  · have hcall : j = 1 ∧ op = sendOne := by simpa [pollsAndSends, hj] using hop
    rw [hcall.2]
    exact fun h => nomatch h

end RMemQueue
