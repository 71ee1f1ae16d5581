import RMemQueue.PollOnce
import RMemQueue.ResumePoint
import RMemQueue.Subscription

/-!
# No partition starves (`base_consumer.rs`)

A poll begins its pass at `poll_start`, and the next one begins after the entry whose message it has returned.  As long
as a partition is ready, every poll that returns a message of another partition therefore brings the start closer to
its entry, on the circle of the assigned entries (`pollFrom_turn`); hence the partition has its turn after at most as
many messages as there are entries (`poll_fair`).
-/

namespace RMemQueue

open Conc

variable {π : Type}

/-! ### One poll -/

namespace BaseConsumer

/-- The message that a poll has returned. -/
def returned : Outcome RmqError (Option StoredMessage) → List StoredMessage
  | .ok (some m) => [m]
  | _ => []

variable {c : BaseConsumer} {s : Session π} {key : String × Int}

/-- What a poll does while the partition is ready and its entry is `d` steps after the start of the pass: a message that
it returns is of the partition, or the next pass starts closer to the entry. -/
inductive Turn (key : String × Int) (pollStart start len d : Nat) :
    Outcome RmqError (Option StoredMessage) × Session π → Prop
  | due {m : StoredMessage} {s' : Session π} (hm : m.place = key) : Turn key pollStart start len d (.ok (some m), s')
  | closer {m : StoredMessage} {s' : Session π} (i : Nat) (hi : i < d)
    (hs : s'.state.pollStart = (start + i) % len + 1) : Turn key pollStart start len d (.ok (some m), s')
  | failed {o : Outcome RmqError (Option StoredMessage)} {s' : Session π} (ho : ∀ r, o ≠ .ok r)
    (hs : s'.state.pollStart = pollStart) : Turn key pollStart start len d (o, s')

/-- The partitions that a fetch returns a message from are the ready ones. -/
private theorem ready_of_fetch {m : StoredMessage}
    (h : ((Broker.fetchOneFromPosition key.1 key.2 (s.state.position.lookup key) c.groupId).run s.broker).1 =
      .ok (some m)) : c.Ready s key := by
  obtain ⟨-, p, o, hp, ho, hread⟩ := Broker.fetch_eq_ok h
  exact ready_of_readOne hp ho hread

private theorem fetch_of_ready (hr : s.broker.Running) (h : c.Ready s key) :
    ∃ m, ((Broker.fetchOneFromPosition key.1 key.2 (s.state.position.lookup key) c.groupId).run s.broker).1 =
      .ok (some m) := by
  obtain ⟨p, o, hp, ho, hd, hn⟩ := h
  rw [Broker.run_fetchOneFromPosition hr hp]
  have hstart : s.broker.start? p.watermarks.1 key.1 key.2 (s.state.position.lookup key) c.groupId = some o := ho
  rw [hstart, Option.elim_some]
  -- the offset is in the log, so that it has a message
  obtain ⟨m, hm⟩ := TrimmedLog.exists_get? (show p.abs.dropped ≤ o.toNat by omega) (by omega)
  have hread : p.readOne o = .ok (some m) := p.readOne_eq_some_iff.2 ⟨o.toNat, by omega, hm⟩
  exact ⟨m, by rw [hread]⟩

/-- The run lemma, over the entries that are left of the pass; the ready one is among them. -/
private theorem pollFrom_turn {start len d : Nat} {l : List Nat} (hr : s.broker.Running) (hready : c.Ready s key)
    (hp : key ∉ s.state.paused)
    (he : (s.state.assignedPartitions.elements[(start + d) % len]?).map (·.key) = some key)
    (hl : l.Pairwise (· < ·)) (hd : d ∈ l) : Turn key s.state.pollStart start len d ((c.pollFrom start len l).run s) := by
  induction l generalizing s with
  | nil => cases hd
  | cons i l ih =>
    obtain ⟨hlt, hl⟩ := List.pairwise_cons.1 hl
    rw [run_pollFrom_cons]
    rcases List.mem_cons.1 hd with rfl | hd
    · -- the round of the entry itself
      obtain ⟨e, hentry, rfl⟩ := Option.map_eq_some_iff.1 he
      obtain ⟨m, hm⟩ := fetch_of_ready hr hready
      have hround : s.state.pollEntry ((start + d) % len) = some (e.key, s.state.position.lookup e.key, false) := by
        rw [ConsumerState.pollEntry_of_getElem? hentry, decide_eq_false hp]
      rw [pollRound, hround]
      dsimp only
      rw [hm]
      exact .due (Broker.place_of_fetch hm)
    · have hround := roundOn_pollRound c s ((start + i) % len)
      generalize c.pollRound s ((start + i) % len) = r at hround
      cases hround with
      | passed => exact ih hr hready hp he hl hd
      | @moved key' position topic partition o hentry hf =>
        obtain ⟨rfl, -⟩ := ConsumerState.pollEntry_eq_some hentry
        -- another partition: the ready one is not out of range
        have hne : key ≠ key' := by
          rintro rfl
          obtain ⟨m, hm⟩ := fetch_of_ready hr hready
          rw [hm] at hf
          cases hf
        exact ih (s := moved s key' o) hr ((sameAt_moved hne o).1.2 hready) hp he hl hd
      | returned hentry hf => exact .closer i (hlt d hd) rfl
      | failed ho => exact .failed ho rfl

/-- A poll while the partition is ready. -/
private theorem pollOnce_turn {len d : Nat} (hr : s.broker.Running) (hready : c.Ready s key)
    (hp : key ∉ s.state.paused) (hlen : s.state.assignedPartitions.elements.length = len)
    (he : (s.state.assignedPartitions.elements[(s.state.pollStart + d) % len]?).map (·.key) = some key) (hd : d < len) :
    Turn key s.state.pollStart (s.state.pollStart % len) len d (c.pollOnce.run s) := by
  have hbounds : s.state.pollBounds = (s.state.pollStart % len, len) := by
    rw [ConsumerState.pollBounds, hlen]
    exact Prod.ext (if_pos (by omega)) rfl
  rw [run_pollOnce, hbounds, if_neg (by omega)]
  refine pollFrom_turn hr hready hp ?_ List.pairwise_lt_range (List.mem_range.2 hd)
  rwa [Nat.mod_add_mod]

end BaseConsumer

/-! ### Runs -/

namespace World

open BaseConsumer

variable [Partitioner π] (ids : Nat → BaseConsumer) (i : Nat)

/-- The message that an operation returns, if it is a poll of consumer `i` that returns one. -/
def pollMessage (w : World π) : Op → List StoredMessage
  | .consumer j .pollOnce => if j = i then returned (w.polled ids i) else []
  | _ => []

/-- The messages that the polls of consumer `i` return in a run. -/
def pollMessages : World π → List Op → List StoredMessage
  | _, [] => []
  | w, op :: ops => w.pollMessage ids i op ++ pollMessages (w.after ids [op]) ops

/-- When the operation is a poll of consumer `i`, the broker is running and the partition has a message for it. -/
def Offered (key : String × Int) (w : World π) (op : Op) : Prop :=
  op = .consumer i .pollOnce → w.broker.Running ∧ key ∉ (w.consumers i).paused ∧ (ids i).Ready (w.session i) key

variable {ids i} {key : String × Int} {w : World π} {op : Op}

private theorem assigned_of_keeps (ids : Nat → BaseConsumer) (hk : op.Keeps i) (w : World π) :
    ((w.after ids [op]).consumers i).assignedPartitions = (w.consumers i).assignedPartitions := by
  refine ((Op.always_stepOf ids op).mono fun _ _ h => (hk.kept h).2).run (fun _ => rfl) (fun _ _ _ h₁ h₂ => ?_) w
  exact h₂.trans h₁

/-- Only polls of the consumer move the start of its next poll. -/
private theorem pollStart_after (hop : op ≠ .consumer i .pollOnce) (w : World π) :
    ((w.after ids [op]).consumers i).pollStart = (w.consumers i).pollStart := by
  by_cases ha : op.actor = some i
  · cases op with
    | send call => cases ha
    | shutdown => cases ha
    | consumer j request =>
      obtain rfl : j = i := Option.some.inj ha
      have hpoll : request ≠ .pollOnce := fun h => hop (by rw [h])
      have hbody : (request.body (ids j) : ConsumerM π Reply).Always
          (Session.Step fun s s' => s'.pollStart = s.pollStart) :=
        request.always_body (ids j)
          { refl := fun _ => rfl
            setPosition := fun _ _ _ _ => rfl
            delivered := fun h => absurd h hpoll
            pause := fun _ _ => rfl
            resume := fun _ _ => rfl
            subscribe := fun _ _ _ _ => rfl
            assign := fun _ _ _ => rfl
            cleared := fun _ _ => rfl }
      have hrun := hbody.run (fun s => ⟨.refl _, rfl⟩) (fun _ _ _ h₁ h₂ => ⟨h₁.1.trans h₂.1, h₂.2.trans h₁.2⟩)
        (w.session j)
      have hstate : (w.after ids [.consumer j request]).consumers j =
          ((request.body (ids j)).run (w.session j)).2.state := congrArg Session.state (session_after w request)
      rw [hstate]
      exact hrun.2
  · rw [consumers_after w ha]

omit [Partitioner π] in
private theorem pollMessage_of_ne (hop : op ≠ .consumer i .pollOnce) (w : World π) : w.pollMessage ids i op = [] := by
  cases op with
  | send => rfl
  | shutdown => rfl
  | consumer j request =>
    cases request with
    | pollOnce =>
      have hj : j ≠ i := fun h => hop (by rw [h])
      exact if_neg hj
    | _ => rfl

omit [Partitioner π] in
private theorem pollMessage_cases (ids : Nat → BaseConsumer) (i : Nat) (w : World π) (op : Op) :
    w.pollMessage ids i op = [] ∨ ∃ m, w.pollMessage ids i op = [m] := by
  by_cases hop : op = .consumer i .pollOnce
  · subst hop
    have hmessage : w.pollMessage ids i (.consumer i .pollOnce) = returned (w.polled ids i) := if_pos rfl
    rw [hmessage]
    rcases w.polled ids i with (_ | m) | _ | _
    · exact Or.inl rfl
    · exact Or.inr ⟨m, rfl⟩
    · exact Or.inl rfl
    · exact Or.inl rfl
  · exact Or.inl (pollMessage_of_ne hop w)

/-- How far an entry is from the start of a pass. -/
private theorem exists_distance {n j : Nat} (start : Nat) (hj : j < n) : ∃ d < n, (start + d) % n = j := by
  have hstart : start % n < n := Nat.mod_lt _ (by omega)
  refine ⟨(j + (n - start % n)) % n, Nat.mod_lt _ (by omega), ?_⟩
  rw [Nat.add_mod_mod, ← Nat.mod_add_mod, show start % n + (j + (n - start % n)) = j + n by omega,
    Nat.add_mod_right, Nat.mod_eq_of_lt hj]

/-- The partition is offered at each poll, and its entry is `d` steps after the start of the next one: it is among the
next `d + 1` messages. -/
private theorem exists_place_of_lt {n d : Nat} {ops : List Op} (hkeep : ∀ op ∈ ops, op.Keeps i)
    (hoffer : Along ids (Offered ids i key) w ops)
    (hlen : (w.consumers i).assignedPartitions.elements.length = n) (hd : d < n)
    (he : ((w.consumers i).assignedPartitions.elements[((w.consumers i).pollStart + d) % n]?).map (·.key) = some key)
    (hmany : d < (w.pollMessages ids i ops).length) :
    ∃ k ≤ d, ∃ m, (w.pollMessages ids i ops)[k]? = some m ∧ m.place = key := by
  induction ops generalizing w d with
  | nil => cases hmany
  | cons op ops ih =>
    have hassigned := assigned_of_keeps ids (hkeep op (List.mem_cons_self ..)) w
    have hkeep' : ∀ op ∈ ops, op.Keeps i := fun op h => hkeep op (List.mem_cons_of_mem _ h)
    rw [pollMessages] at hmany ⊢
    by_cases hop : op = .consumer i .pollOnce
    · subst hop
      obtain ⟨hr, hp, hready⟩ := hoffer.1 rfl
      have hturn := pollOnce_turn (c := ids i) (s := w.session i) hr hready hp hlen he hd
      have hstate : (w.after ids [.consumer i .pollOnce]).consumers i = ((ids i).pollOnce.run (w.session i)).2.state :=
        congrArg Session.state (session_after_poll w)
      have hmessage : w.pollMessage ids i (.consumer i .pollOnce) =
          returned ((ids i).pollOnce.run (w.session i)).1 := if_pos rfl
      rw [hmessage] at hmany ⊢
      generalize (ids i).pollOnce.run (w.session i) = r at hturn hstate hmany ⊢
      cases hturn with
      | @due m s' hm => exact ⟨0, Nat.zero_le _, m, rfl, hm⟩
      | @closer m s' j hj hs =>
        -- the message is of another partition, and the entry is now closer
        have he' : (((w.after ids [.consumer i .pollOnce]).consumers i).assignedPartitions.elements[
            (((w.after ids [.consumer i .pollOnce]).consumers i).pollStart + (d - j - 1)) % n]?).map (·.key) =
            some key := by
          rw [hassigned, hstate, hs]
          have hidx : (((w.consumers i).pollStart % n + j) % n + 1 + (d - j - 1)) % n =
              ((w.consumers i).pollStart + d) % n := by
            rw [show ((w.consumers i).pollStart % n + j) % n + 1 + (d - j - 1) =
              ((w.consumers i).pollStart % n + j) % n + (d - j) by omega, Nat.mod_add_mod, Nat.add_assoc,
              Nat.mod_add_mod, show j + (d - j) = d by omega]
          exact hidx.symm ▸ he
        have hmany' : d - j - 1 < ((w.after ids [.consumer i .pollOnce]).pollMessages ids i ops).length := by
          rw [returned, List.length_append, List.length_singleton] at hmany
          omega
        obtain ⟨k, hk, m', hm', hplace⟩ := ih hkeep' hoffer.2 (by rw [hassigned, hlen]) (by omega) he' hmany'
        exact ⟨k + 1, by omega, m', hm', hplace⟩
      | @failed o s' ho hs =>
        have hnone : returned o = [] := by
          rcases o with r | _ | _
          · exact absurd rfl (ho r)
          · rfl
          · rfl
        rw [hnone] at hmany ⊢
        refine ih hkeep' hoffer.2 (by rw [hassigned, hlen]) hd ?_ hmany
        rw [hassigned, hstate, hs]
        exact he
    · rw [pollMessage_of_ne hop] at hmany ⊢
      refine ih hkeep' hoffer.2 (by rw [hassigned, hlen]) hd ?_ hmany
      rw [hassigned, pollStart_after hop]
      exact he

end World

open World BaseConsumer

/-- **No partition starves.**  In a run in which the assignment of a consumer with `n` entries is kept and one of its
partitions is offered at every poll, there is a message of that partition among any `n` consecutive messages that the
polls of the consumer return. -/
theorem poll_fair [Partitioner π] (ids : Nat → BaseConsumer) (i : Nat) (w : World π) (ops : List Op)
    (hkeep : ∀ op ∈ ops, op.Keeps i) {j : Nat} {e : TopicPartitionElem}
    (hj : (w.consumers i).assignedPartitions.elements[j]? = some e) (hoffer : Along ids (Offered ids i e.key) w ops)
    {before window after : List StoredMessage} (h : w.pollMessages ids i ops = before ++ window ++ after)
    (hwindow : window.length = (w.consumers i).assignedPartitions.elements.length) :
    ∃ m ∈ window, m.place = e.key := by
  induction ops generalizing w before with
  | nil =>
    have hnil : before ++ window ++ after = [] := h.symm
    simp only [List.append_eq_nil_iff] at hnil
    rw [hnil.1.2] at hwindow
    rw [List.length_eq_zero_iff.1 hwindow.symm] at hj
    cases hj
  | cons op ops ih =>
    have hassigned := assigned_of_keeps ids (hkeep op (List.mem_cons_self ..)) w
    cases before with
    -- the window begins here
    | nil =>
      obtain ⟨hlt, hentry⟩ := List.getElem?_eq_some_iff.1 hj
      obtain ⟨d, hd, hdist⟩ := exists_distance (w.consumers i).pollStart hlt
      have hmany : d < (w.pollMessages ids i (op :: ops)).length := by
        rw [h, List.nil_append, List.length_append]
        omega
      obtain ⟨k, hk, m, hm, hplace⟩ := exists_place_of_lt hkeep hoffer rfl hd (by rw [hdist, hj]; rfl) hmany
      rw [h, List.nil_append, List.getElem?_append_left (by omega)] at hm
      exact ⟨m, List.mem_of_getElem? hm, hplace⟩
    -- it begins after the first message, which the operation may return
    | cons m before =>
      have hrest : ∃ before', (w.after ids [op]).pollMessages ids i ops = before' ++ window ++ after := by
        rw [pollMessages] at h
        rcases pollMessage_cases ids i w op with hnone | ⟨m', hone⟩
        · rw [hnone, List.nil_append] at h
          exact ⟨m :: before, h⟩
        · rw [hone] at h
          exact ⟨before, (List.cons.inj h).2⟩
      obtain ⟨before', hrest⟩ := hrest
      exact ih (w.after ids [op]) (fun op h => hkeep op (List.mem_cons_of_mem _ h)) (by rw [hassigned]; exact hj)
        hoffer.2 hrest (by rw [hassigned]; exact hwindow)

/-- The message at an offset of the partition that `sendOne` fills. -/
private def sentOne (offset : Int) : StoredMessage := .new none none "t" 0 offset 7 none 0

private theorem offered_of_fetch {π : Type} {ids : Nat → BaseConsumer} {i : Nat} {key : String × Int} {w : World π}
    {op : Op} {m : StoredMessage} (hb : w.broker.shutdown = false) (hs : w.broker.backend.shutdown = false)
    (hp : key ∉ (w.consumers i).paused)
    (h : ((Broker.fetchOneFromPosition key.1 key.2 ((w.consumers i).position.lookup key) (ids i).groupId).run
      w.broker).1 = .ok (some m)) : Offered ids i key w op :=
  fun _ => ⟨⟨hb, hs⟩, hp, ready_of_fetch (s := w.session i) h⟩

/-- Two partitions in turns: one of two messages is of the second one. -/
theorem poll_fair_two : ∃ b : Broker RoundRobinPartitioner,
    Broker.new (RmqClientConfig.new.set ConfigKeys.brokerId "b") = .ok b ∧
    let w := (World.init b).after members [sendOne, .send ⟨"u", some 0, .raw none none, none, none, ⟨7, 0, fun _ => 0⟩⟩,
      .consumer 0 (.assign ⟨[⟨"u", 0, .stored⟩, ⟨"t", 0, .stored⟩]⟩)]
    ∃ m ∈ w.pollMessages members 0 [.consumer 0 .pollOnce, sendOne, .consumer 0 .pollOnce], m.place = ("t", 0) := by
  refine ⟨_, rfl, ?_⟩
  intro w
  have hj : (w.consumers 0).assignedPartitions.elements[1]? = some ⟨"t", 0, .stored⟩ := by decide +kernel
  have hlen : (w.pollMessages members 0 [.consumer 0 .pollOnce, sendOne, .consumer 0 .pollOnce]).length =
      (w.consumers 0).assignedPartitions.elements.length := by decide +kernel
  have hoffer : Along members (Offered members 0 ("t", 0)) w [.consumer 0 .pollOnce, sendOne, .consumer 0 .pollOnce] := by
    refine ⟨offered_of_fetch (m := sentOne 0) ?_ ?_ ?_ ?_, fun h => (nomatch h),
      offered_of_fetch (m := sentOne 0) ?_ ?_ ?_ ?_, trivial⟩ <;> decide +kernel
  have hkeep : ∀ op ∈ [Op.consumer 0 .pollOnce, sendOne, .consumer 0 .pollOnce], op.Keeps 0 := by
    intro op hop request h
    simp only [List.mem_cons, List.not_mem_nil, or_false] at hop
    rcases hop with rfl | rfl | rfl
    · obtain ⟨-, rfl⟩ := Op.consumer.inj h
      exact id
    · cases h
    · obtain ⟨-, rfl⟩ := Op.consumer.inj h
      exact id
  generalize hops : [Op.consumer 0 .pollOnce, sendOne, .consumer 0 .pollOnce] = ops at hlen hoffer hkeep ⊢
  have hwindow : w.pollMessages members 0 ops = [] ++ w.pollMessages members 0 ops ++ [] := (List.append_nil _).symm
  clear_value w
  exact poll_fair members 0 w ops hkeep hj hoffer hwindow hlen

end RMemQueue
