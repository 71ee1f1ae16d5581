import RMemQueue.GroupRestart
import RMemQueue.Ownership
import RMemQueue.WorldRun

/-!
# Where a consumer resumes a partition that it gains

A newly created consumer begins at the group's resume point: after the group's commit, or with the oldest message if
there is no commit or its successor is outside the log.  `subscribe` keeps the positions of earlier assignments, so that
a partition which is lost and gained again is read on where it was left.  When a gained partition has no position, a
poll may still store one for it without a message, namely the oldest offset when the resume point is outside the log.
`gained_resumes` says when the first message of the partition is then the one that a new consumer would poll.
-/

namespace RMemQueue

open Conc

variable {π : Type}

namespace Broker

variable {b : Broker π} {topic : String} {partition : Int} {position : Option Int} {groupId : Option String}

/-- A message carries the name of its partition. -/
theorem place_of_readOne {p : Partition} {o : Int} {m : StoredMessage}
    (hp : b.backend.partition? topic partition = some p) (hread : p.readOne o = .ok (some m)) :
    m.place = (topic, partition) := by
  obtain ⟨n, -, hg⟩ := p.readOne_eq_some_iff.1 hread
  obtain ⟨-, ht, hi⟩ := p.stamped_of_get? hg
  obtain ⟨hname, hid⟩ := InMemoryBackend.named_of_partition? hp
  exact Prod.ext (ht.trans hname) (hi.trans hid)

/-- A message that is fetched comes from the partition. -/
theorem place_of_fetch {m : StoredMessage}
    (h : ((fetchOneFromPosition topic partition position groupId).run b).1 = .ok (some m)) :
    m.place = (topic, partition) := by
  obtain ⟨-, p, o, hp, -, hread⟩ := fetch_eq_ok h
  exact place_of_readOne hp hread

end Broker

/-- The place in the log where reading from an offset begins; outside the log it begins with the oldest message. -/
def Partition.placeOf (p : Partition) (o : Int) : Nat :=
  if (p.abs.dropped : Int) ≤ o ∧ o ≤ p.abs.next then (o - p.abs.dropped).toNat else 0

private theorem placeOf_of_readOne {p : Partition} {o : Int} {m : StoredMessage} (h : p.readOne o = .ok (some m)) :
    (p.abs.dropped : Int) ≤ o ∧ p.buffer.log[p.placeOf o]? = some m := by
  obtain ⟨n, rfl, hg⟩ := p.readOne_eq_some_iff.1 h
  have hbounds := TrimmedLog.bounds_of_get? hg
  have hn : n = p.abs.dropped + (n - p.abs.dropped) := by omega
  have hplace : p.placeOf n = n - p.abs.dropped := by
    rw [Partition.placeOf, if_pos (by omega)]
    omega
  rw [hn, TrimmedLog.get?_add, p.abs_retained] at hg
  exact ⟨by omega, hplace ▸ hg⟩

/-- A message has one place in the log. -/
private theorem place_unique {p : Partition} {i j : Nat} {m : StoredMessage} (hi : p.buffer.log[i]? = some m)
    (hj : p.buffer.log[j]? = some m) : i = j := by
  rw [← p.abs_retained, ← p.abs.get?_add] at hi hj
  have h₁ := (p.stamped_of_get? hi).1
  have h₂ := (p.stamped_of_get? hj).1
  omega

namespace BaseConsumer

variable (c : BaseConsumer) {s : Session π} {key : String × Int}

/-- Where a consumer of the group without a position begins to read. -/
def resumePoint? (b : Broker π) (key : String × Int) (p : Partition) : Option Int :=
  b.start? p.watermarks.1 key.1 key.2 none c.groupId

/-- The session of a consumer that has just been created and assigned the partition. -/
def created (b : Broker π) (key : String × Int) : Session π :=
  ((BaseConsumer.assign ⟨[⟨key.1, key.2, .stored⟩]⟩).run ⟨b, .new⟩).2

/-- The first message that a newly created consumer polls from the partition. -/
def PollsFirst (b : Broker π) (key : String × Int) (m : StoredMessage) : Prop :=
  ∃ n rest s', c.deliveries n (created b key) = some (m :: rest, s')

variable {c}

private theorem head_deliveries {s : Session π} {p : Partition} {j : Nat} (h : At c s key.1 key.2 p j)
    (hj : j ≤ p.buffer.log.length) (m : StoredMessage) :
    (∃ n rest s', c.deliveries n s = some (m :: rest, s')) ↔ p.buffer.log[j]? = some m := by
  constructor
  · rintro ⟨n, rest, s', hn⟩
    obtain ⟨s'', hs''⟩ := h.deliveries hj n
    have hlist : (p.buffer.log.drop j).take n = m :: rest :=
      (Prod.mk.inj (Option.some.inj (hs''.symm.trans hn))).1
    have hhead := congrArg (·[0]?) hlist
    cases n with
    | zero => cases hlist
    | succ n => simpa using hhead
  · intro hm
    obtain ⟨s', hs'⟩ := h.deliveries hj 1
    obtain ⟨hlt, rfl⟩ := List.getElem?_eq_some_iff.1 hm
    rw [List.drop_eq_getElem_cons hlt] at hs'
    exact ⟨1, [], s', hs'⟩

/-- What a newly created consumer polls first from a partition that holds a message. -/
theorem pollsFirst_iff {b : Broker π} {p : Partition} (hr : b.Running)
    (hp : b.backend.partition? key.1 key.2 = some p) (hne : p.abs.retained ≠ []) (m : StoredMessage) :
    c.PollsFirst b key m ↔ ∃ o, c.resumePoint? b key p = some o ∧ p.buffer.log[p.placeOf o]? = some m := by
  have hrun := run_pollOnce_one (c := c) (s := created b key) rfl (by simp [created, assign, Session.updateState,
    ConsumerState.new]) hr hp
  have hfresh : (created b key).state.position.lookup key = none := rfl
  have hd := p.abs_dropped
  have hn := p.abs_next
  have hlen := p.abs.dropped_le_next
  cases ho : c.resumePoint? b key p with
  | none =>
    -- the first poll panics
    refine iff_of_false ?_ (by simp)
    rintro ⟨n, rest, s', h⟩
    cases n with
    | zero => cases h
    | succ n =>
      rw [hfresh, show (created b key).broker.start? _ _ _ none _ = none from ho] at hrun
      rw [deliveries, hrun] at h
      cases h
  | some o =>
    simp only [Option.some.injEq, exists_eq_left']
    by_cases hin : (p.abs.dropped : Int) ≤ o ∧ o ≤ p.abs.next
    · have hat : At c (created b key) key.1 key.2 p (p.placeOf o) := by
        refine ⟨hr, hp, rfl, by simp [created, assign, Session.updateState, ConsumerState.new], ?_⟩
        rw [hfresh, show (created b key).broker.start? _ _ _ none _ = some o from ho, Partition.placeOf, if_pos hin]
        congr 1
        omega
      refine head_deliveries hat ?_ m
      rw [Partition.placeOf, if_pos hin]
      omega
    · -- the first poll stores the oldest offset, the next one begins there
      have hw : p.watermarks.1 = p.abs.dropped := by rw [p.watermarks_eq, if_neg hne]
      have hread : p.readOne o = .error (p.outOfRange o) :=
        p.readOne_eq_error_iff.2 ⟨rfl, by omega, fun h => hne h.2⟩
      rw [hfresh, show (created b key).broker.start? _ _ _ none _ = some o from ho, Option.elim_some, hread] at hrun
      have hat : At c { created b key with state := (created b key).state.setPosition key p.watermarks.1 }
          key.1 key.2 p 0 := by
        refine ⟨hr, hp, rfl, by simp [created, assign, Session.updateState, ConsumerState.new,
          ConsumerState.setPosition], ?_⟩
        simp [ConsumerState.setPosition, Broker.start?, hw]
      rw [Partition.placeOf, if_neg hin, ← head_deliveries hat (Nat.zero_le _) m]
      constructor
      · rintro ⟨n, rest, s', h⟩
        cases n with
        | zero => cases h
        | succ n =>
          rw [deliveries, hrun] at h
          exact ⟨n, rest, s', by simpa [afterFetch] using h⟩
      · rintro ⟨n, rest, s', h⟩
        refine ⟨n + 1, rest, s', ?_⟩
        rw [deliveries, hrun]
        simpa [afterFetch] using h

/-! ### One poll -/

/-- A position of the partition, if there is one, is not behind the oldest message: polls have stored it, without a
message, when they found the resume point outside the log. -/
def Low (s : Session π) (key : String × Int) : Prop :=
  ∀ v, s.state.position.lookup key = some v → v ≤ (s.broker.backend.log key.1 key.2).dropped

/-- What the consumer can get as its first message: without a position what a new consumer gets, else the oldest
message. -/
def FirstAt (c : BaseConsumer) (s : Session π) (key : String × Int) (m : StoredMessage) : Prop :=
  ∃ p, s.broker.backend.partition? key.1 key.2 = some p ∧
    match s.state.position.lookup key with
    | none => ∃ o, c.resumePoint? s.broker key p = some o ∧ p.buffer.log[p.placeOf o]? = some m
    | some _ => p.buffer.log[0]? = some m

/-- What one round of a poll does for the partition. -/
private inductive RoundAt (c : BaseConsumer) (key : String × Int) (s : Session π) :
    Outcome RmqError (Option StoredMessage) × Session π ⊕ Session π → Prop
  | first (m : StoredMessage) (s' : Session π) (hm : m.place = key) (hf : FirstAt c s key m) :
    RoundAt c key s (.inl (.ok (some m), s'))
  | ended (o : Outcome RmqError (Option StoredMessage)) (s' : Session π) (ho : ∀ m, o = .ok (some m) → m.place ≠ key)
    (hb : s'.broker = s.broker) (hlow : Low s' key) : RoundAt c key s (.inl (o, s'))
  | goesOn (s' : Session π) (hb : s'.broker = s.broker) (hlow : Low s' key) (hf : ∀ m, FirstAt c s' key m → FirstAt c s key m) :
    RoundAt c key s (.inr s')

/-- Positions of other partitions play no role. -/
private theorem low_and_firstAt_of_eq (c : BaseConsumer) (hlow : Low s key) (s' : Session π) (hb : s'.broker = s.broker)
    (hl : s'.state.position.lookup key = s.state.position.lookup key) :
    Low s' key ∧ ∀ m, FirstAt c s' key m → FirstAt c s key m := by
  constructor
  · intro v hv
    rw [hb]
    exact hlow v (hl ▸ hv)
  · intro m hm
    unfold FirstAt at hm ⊢
    rwa [hb, hl] at hm

/-- The resume point is outside the log, or the log has lost the place of the position. -/
private theorem goesOn_of_moved {topic : String} {partition o : Int}
    (hf : ((Broker.fetchOneFromPosition key.1 key.2 (s.state.position.lookup key) c.groupId).run s.broker).1 =
      .err (.offsetOutOfRange topic partition o)) :
    Low { s with state := s.state.setPosition key o } key ∧
      ∀ m, FirstAt c { s with state := s.state.setPosition key o } key m → FirstAt c s key m := by
  obtain ⟨-, p, o', hp, rfl, ho, hout⟩ := Broker.fetch_eq_outOfRange hf
  have hlog := InMemoryBackend.log_of_partition? hp
  have hw : p.watermarks.1 ≤ p.abs.dropped := by
    rw [p.watermarks_eq]
    dsimp only
    split <;> omega
  have hl : ({ s with state := s.state.setPosition key p.watermarks.1 } : Session π).state.position.lookup key =
      some p.watermarks.1 := AList.lookup_insert _
  constructor
  · intro v hv
    rw [hl] at hv
    rw [← Option.some.inj hv, hlog]
    exact hw
  · intro m hm
    obtain ⟨p', hp', hm⟩ := hm
    obtain rfl : p' = p := Option.some.inj (hp'.symm.trans hp)
    rw [hl] at hm
    refine ⟨p', hp, ?_⟩
    cases hpos : s.state.position.lookup key with
    -- the resume point is outside the log, so that its place is the oldest message
    | none =>
      refine ⟨o', by rw [resumePoint?, ← ho, hpos], ?_⟩
      rw [Partition.placeOf, if_neg (by omega)]
      exact hm
    | some v => exact hm

private theorem firstAt_of_fetch (hlow : Low s key) {m : StoredMessage}
    (hf : ((Broker.fetchOneFromPosition key.1 key.2 (s.state.position.lookup key) c.groupId).run s.broker).1 =
      .ok (some m)) : FirstAt c s key m := by
  obtain ⟨-, p, o, hp, ho, hread⟩ := Broker.fetch_eq_ok hf
  obtain ⟨hge, hm⟩ := placeOf_of_readOne hread
  refine ⟨p, hp, ?_⟩
  cases hpos : s.state.position.lookup key with
  | none => exact ⟨o, by rw [resumePoint?, ← ho, hpos], hm⟩
  | some v =>
    obtain rfl : v = o := by
      rw [hpos] at ho
      exact Option.some.inj ho
    -- the position is not behind the oldest message, and the log has a message there
    have hle : v ≤ (p.abs.dropped : Int) := InMemoryBackend.log_of_partition? hp ▸ hlow v hpos
    have hzero : p.placeOf v = 0 := by
      unfold Partition.placeOf
      split <;> omega
    rwa [hzero] at hm

private theorem roundAt_pollRound (hlow : Low s key) (idx : Nat) : RoundAt c key s (c.pollRound s idx) := by
  have hround := roundOn_pollRound c s idx
  generalize c.pollRound s idx = r at hround
  cases hround with
  | passed => exact .goesOn s rfl hlow fun _ => id
  | @moved key' position _ _ o he hf =>
    obtain ⟨rfl, -⟩ := ConsumerState.pollEntry_eq_some he
    by_cases hk : key' = key
    · subst hk
      obtain ⟨hlow', hfirst⟩ := goesOn_of_moved hf
      exact .goesOn _ rfl hlow' hfirst
    · obtain ⟨hlow', hfirst⟩ := low_and_firstAt_of_eq c hlow { s with state := s.state.setPosition key' o } rfl
        (AList.lookup_insert_ne (Ne.symm hk))
      exact .goesOn _ rfl hlow' hfirst
  | @returned key' position m he hf =>
    obtain ⟨rfl, -⟩ := ConsumerState.pollEntry_eq_some he
    have hplace : m.place = key' := Broker.place_of_fetch hf
    by_cases hk : key' = key
    · subst hk
      exact .first m _ hplace (firstAt_of_fetch hlow hf)
    · refine .ended _ _ (fun m' hm h => ?_) rfl ?_
      · obtain rfl := Option.some.inj (Outcome.ok.inj hm)
        exact hk (hplace.symm.trans h)
      · exact (low_and_firstAt_of_eq c hlow { s with state := s.state.delivered key' m.offset idx } rfl
          (AList.lookup_insert_ne (Ne.symm hk))).1
  | failed ho => exact .ended _ s (fun m h => absurd h (ho _)) rfl hlow

/-- The run lemma: a poll returns the first message of the partition, or none of it. -/
private theorem pollFrom_first (hlow : Low s key) (start len : Nat) (l : List Nat) :
    (∃ m, ((c.pollFrom start len l).run s).1 = .ok (some m) ∧ m.place = key ∧ FirstAt c s key m) ∨
      ((∀ m, ((c.pollFrom start len l).run s).1 = .ok (some m) → m.place ≠ key) ∧
        ((c.pollFrom start len l).run s).2.broker = s.broker ∧ Low ((c.pollFrom start len l).run s).2 key) := by
  induction l generalizing s with
  | nil => exact Or.inr ⟨fun m h => (by rw [run_pollFrom_nil] at h; cases h), rfl, hlow⟩
  | cons i l ih =>
    rw [run_pollFrom_cons]
    have hround := roundAt_pollRound (c := c) hlow ((start + i) % len)
    generalize c.pollRound s ((start + i) % len) = r at hround
    cases hround with
    | first m s' hm hf => exact Or.inl ⟨m, rfl, hm, hf⟩
    | ended o s' ho hb hlow' => exact Or.inr ⟨ho, hb, hlow'⟩
    | goesOn s' hb hlow' hf =>
      rcases ih (s := s') hlow' with ⟨m, hm, hplace, hfirst⟩ | ⟨hother, hb', hlow''⟩
      · exact Or.inl ⟨m, hm, hplace, hf m hfirst⟩
      · exact Or.inr ⟨hother, hb'.trans hb, hlow''⟩

private theorem pollOnce_first (hlow : Low s key) :
    (∃ m, (c.pollOnce.run s).1 = .ok (some m) ∧ m.place = key ∧ FirstAt c s key m) ∨
      ((∀ m, (c.pollOnce.run s).1 = .ok (some m) → m.place ≠ key) ∧ (c.pollOnce.run s).2.broker = s.broker ∧
        Low (c.pollOnce.run s).2 key) := by
  rw [run_pollOnce]
  split
  · exact Or.inr ⟨by simp, rfl, hlow⟩
  · exact pollFrom_first hlow _ _ _

/-- Only a running broker has messages to poll. -/
private theorem running_of_pollFrom {m : StoredMessage} (start len : Nat) (l : List Nat)
    (h : ((c.pollFrom start len l).run s).1 = .ok (some m)) : s.broker.Running := by
  induction l generalizing s with
  | nil =>
    rw [run_pollFrom_nil] at h
    cases h
  | cons i l ih =>
    rw [run_pollFrom_cons] at h
    have hround := roundOn_pollRound c s ((start + i) % len)
    generalize c.pollRound s ((start + i) % len) = r at h hround
    cases hround with
    | passed => exact ih h
    | moved _ hf => exact (Broker.fetch_eq_outOfRange hf).1
    | returned _ hf => exact (Broker.fetch_eq_ok hf).1
    | failed ho => exact absurd h (ho _)

private theorem running_of_pollOnce {m : StoredMessage} (h : (c.pollOnce.run s).1 = .ok (some m)) : s.broker.Running := by
  rw [run_pollOnce] at h
  split at h
  · cases h
  · exact running_of_pollFrom _ _ _ h

variable (c) in
/-- A new consumer begins with the oldest message: the resume point is outside the log, or it is that message. -/
def ResumesAtOldest (b : Broker π) (key : String × Int) : Prop :=
  ∃ p o, b.backend.partition? key.1 key.2 = some p ∧ c.resumePoint? b key p = some o ∧
    ¬((p.abs.dropped : Int) < o ∧ o ≤ p.abs.next)

/-- The first message that a consumer gets is the one that a new consumer gets, if no position was stored meanwhile or
the new consumer begins with the oldest message. -/
private theorem FirstAt.pollsFirst_iff {m : StoredMessage} (hr : s.broker.Running) (h : FirstAt c s key m) :
    c.PollsFirst s.broker key m ↔ s.state.position.lookup key = none ∨ c.ResumesAtOldest s.broker key := by
  obtain ⟨p, hp, hm⟩ := h
  have hne : p.abs.retained ≠ [] := by
    rw [p.abs_retained]
    split at hm
    · obtain ⟨o, -, hm⟩ := hm
      exact List.ne_nil_of_mem (List.mem_of_getElem? hm)
    · exact List.ne_nil_of_mem (List.mem_of_getElem? hm)
  rw [BaseConsumer.pollsFirst_iff hr hp hne]
  cases hpos : s.state.position.lookup key with
  | none =>
    rw [hpos] at hm
    exact iff_of_true hm (Or.inl rfl)
  | some v =>
    rw [hpos] at hm
    simp only [reduceCtorEq, false_or, ResumesAtOldest, hp, Option.some.injEq, exists_and_left, exists_eq_left']
    refine exists_congr fun o => and_congr_right fun _ => ?_
    constructor
    · intro hplace hin
      have hzero := place_unique hplace hm
      rw [Partition.placeOf, if_pos (by omega)] at hzero
      omega
    · intro hout
      have hzero : p.placeOf o = 0 := by
        unfold Partition.placeOf
        split <;> omega
      rwa [hzero]

end BaseConsumer

/-! ### Runs -/

namespace World

open BaseConsumer

/-- What consumer `i` works on. -/
def session (w : World π) (i : Nat) : Session π := ⟨w.broker, w.consumers i⟩

/-- The partitions that are assigned to consumer `i`. -/
def assigned (w : World π) (i : Nat) : List (String × Int) := (w.consumers i).assignedPartitions.keys

variable [Partitioner π] (ids : Nat → BaseConsumer)

/-- What a poll of consumer `i` returns. -/
def polled (w : World π) (i : Nat) : Outcome RmqError (Option StoredMessage) := ((ids i).pollOnce.run (w.session i)).1

/-- The operations of a run, one after the other, meet a condition on the world before them. -/
def Along (P : World π → Op → Prop) : World π → List Op → Prop
  | _, [] => True
  | w, op :: ops => P w op ∧ Along P (w.after ids [op]) ops

/-- Consumer `i` gets no message of the partition by the operation, and does not move its position there. -/
def Leaves (i : Nat) (key : String × Int) (w : World π) : Op → Prop
  | .consumer j .pollOnce => j = i → ∀ m, w.polled ids i = .ok (some m) → m.place ≠ key
  | .consumer j request => j = i → ¬request.Moves key
  | _ => True

variable {ids} {i : Nat} {key : String × Int}

private theorem later_after (w : World π) (ops : List Op) : w.broker.Later (w.after ids ops).broker := by
  induction ops generalizing w with
  | nil => exact .refl _
  | cons op ops ih =>
    have hstep : w.broker.Later (w.after ids [op]).broker :=
      ((Op.always_stepOf ids op).mono fun _ _ h => h.1).run (fun _ => .refl _) (fun _ _ _ h₁ h₂ => h₁.trans h₂) w
    exact hstep.trans (ih (w.after ids [op]))

/-- What an operation of the consumer leaves to it. -/
theorem session_after (w : World π) (request : Request) :
    (w.after ids [.consumer i request]).session i = ((request.body (ids i)).run (w.session i)).2 := by
  show ((Op.body ids (.consumer i request)).run w).2.session i = _
  rw [Op.run_consumer, session]
  dsimp only
  rw [Function.update_self]
  rfl

/-- An operation of anybody else leaves the consumer as it is. -/
theorem consumers_after (w : World π) {op : Op} (h : op.actor ≠ some i) :
    (w.after ids [op]).consumers i = w.consumers i :=
  ((Op.always_stepOf ids op).mono fun _ _ hs => hs.frame h).run (fun _ => rfl) (fun _ _ _ h₁ h₂ => h₂.trans h₁) w

/-- An operation of the consumer that does not move its position keeps it or removes it. -/
private theorem position_of_not_moves (ids : Nat → BaseConsumer) (i : Nat) (w : World π) {request : Request}
    (hm : ¬request.Moves key) :
    ((w.after ids [.consumer i request]).consumers i).position.lookup key = (w.consumers i).position.lookup key ∨
      ((w.after ids [.consumer i request]).consumers i).position.lookup key = none := by
  have hbody : (request.body (ids i) : ConsumerM π Reply).Always (Session.Step fun s s' =>
      s'.position.lookup key = s.position.lookup key ∨ s'.position.lookup key = none) := by
    have hpoll : request ≠ .pollOnce := by
      rintro rfl
      exact hm trivial
    have hother : ∀ key', request.Moves key' → key ≠ key' := fun key' hmoves he => hm (he ▸ hmoves)
    exact request.always_body (ids i)
      { refl := fun _ => Or.inl rfl
        setPosition := fun key' hmoves _ _ => Or.inl (AList.lookup_insert_ne (hother key' hmoves))
        delivered := fun h => absurd h hpoll
        pause := fun _ _ => Or.inl rfl
        resume := fun _ _ => Or.inl rfl
        subscribe := fun _ _ _ _ => Or.inl rfl
        assign := fun _ _ _ => Or.inr rfl
        cleared := fun _ _ => Or.inr rfl }
  have hrun := hbody.run (fun s => ⟨.refl _, Or.inl rfl⟩)
    (fun _ _ _ h₁ h₂ => ⟨h₁.1.trans h₂.1, h₂.2.elim (fun h => h₁.2.imp h.trans h.trans) Or.inr⟩) (w.session i)
  have hstate : (w.after ids [.consumer i request]).consumers i = ((request.body (ids i)).run (w.session i)).2.state :=
    congrArg Session.state (session_after w request)
  rw [hstate]
  exact hrun.2

theorem session_after_poll (w : World π) :
    (w.after ids [.consumer i .pollOnce]).session i = ((ids i).pollOnce.run (w.session i)).2 :=
  (session_after w .pollOnce).trans (snd_run_reply ..)

omit [Partitioner π] in
private theorem low_of_later {s s' : Session π} (hb : s.broker.Later s'.broker)
    (hl : s'.state.position.lookup key = s.state.position.lookup key ∨ s'.state.position.lookup key = none)
    (h : Low s key) : Low s' key := by
  intro v hv
  have hmono : (s.broker.backend.log key.1 key.2).dropped ≤ (s'.broker.backend.log key.1 key.2).dropped :=
    TrimmedLog.dropped_mono (hb.backend.log key.1 key.2)
  rcases hl with hl | hl
  · have := h v (hl ▸ hv)
    omega
  · rw [hl] at hv
    cases hv

/-- One operation. -/
private theorem low_step {w : World π} {op : Op} (hl : Leaves ids i key w op)
    (h : Low (w.session i) key) : Low ((w.after ids [op]).session i) key := by
  have hlater : w.broker.Later (w.after ids [op]).broker := later_after w [op]
  by_cases ha : op.actor = some i
  · cases op with
    | send call => cases ha
    | shutdown => cases ha
    | consumer j request =>
      obtain rfl : j = i := Option.some.inj ha
      by_cases hpoll : request = .pollOnce
      · subst hpoll
        rw [session_after_poll]
        rcases pollOnce_first (c := ids j) h with ⟨m, hm, hplace, -⟩ | ⟨-, -, hlow⟩
        · exact absurd hplace (hl rfl m hm)
        · exact hlow
      · refine low_of_later hlater (position_of_not_moves ids j w ?_) h
        cases request <;> first | exact hl rfl | exact absurd rfl hpoll
  · exact low_of_later hlater (Or.inl (by rw [session, session, consumers_after w ha])) h

/-- The run lemma. -/
private theorem low_after {w : World π} {ops : List Op} (hl : Along ids (Leaves ids i key) w ops)
    (h : Low (w.session i) key) : Low ((w.after ids ops).session i) key := by
  induction ops generalizing w with
  | nil => exact h
  | cons op ops ih => exact ih hl.2 (low_step hl.1 h)

end World

open World BaseConsumer

/-- **A gained partition is read from the group's resume point.**  Whatever has happened before, if the `subscribe` that
adds a partition finds no position for it, the first message that the consumer polls from it is the one that a newly
created consumer of the group would poll, if and only if no position has been stored before that poll or the new
consumer would begin with the oldest message. -/
theorem gained_resumes [Partitioner π] (ids : Nat → BaseConsumer) (i : Nat) (w₀ : World π) (order : HashOrder)
    (topics : List String) (between : List Op) {w₁ w₂ : World π}
    (h₁ : w₁ = w₀.after ids [.consumer i (.subscribe order topics)]) (h₂ : w₂ = w₁.after ids between)
    (key : String × Int) (_hlost : key ∉ w₀.assigned i) (_hgained : key ∈ w₁.assigned i)
    (hnew : (w₀.consumers i).position.lookup key = none)
    (hbetween : Along ids (Leaves ids i key) w₁ between) {m : StoredMessage}
    (hm : w₂.polled ids i = .ok (some m)) (hplace : m.place = key) {c : BaseConsumer}
    (hc : c.groupId = (ids i).groupId) :
    c.PollsFirst w₂.broker key m ↔
      (w₂.consumers i).position.lookup key = none ∨ c.ResumesAtOldest w₂.broker key := by
  have hr : (w₂.session i).broker.Running := running_of_pollOnce hm
  have hlow₁ : Low (w₁.session i) key := by
    intro v hv
    rw [h₁] at hv
    have hm' : ¬(Request.subscribe order topics).Moves key := id
    rcases position_of_not_moves ids i w₀ hm' with h | h
    · rw [session, h, hnew] at hv
      cases hv
    · rw [session, h] at hv
      cases hv
  have hlow₂ : Low (w₂.session i) key := by
    rw [h₂]
    exact low_after hbetween hlow₁
  -- the polled message is the first one of the partition
  rcases pollOnce_first (c := ids i) hlow₂ with ⟨m', hm', -, hfirst⟩ | ⟨hother, -, -⟩
  · obtain rfl : m' = m := Option.some.inj (Outcome.ok.inj (hm'.symm.trans hm))
    have hfirst' : FirstAt c (w₂.session i) key m' := by
      obtain ⟨p, hp, hat⟩ := hfirst
      refine ⟨p, hp, ?_⟩
      simpa only [resumePoint?, hc] using hat
    exact hfirst'.pollsFirst_iff hr
  · exact absurd hplace (hother m hm)

/-- The message at an offset of the partition that `sendOne` fills. -/
private def sent (offset : Int) : StoredMessage := .new none none "t" 0 offset 7 none 0

/-- The partition is lost before it was polled, and gained again. -/
theorem gained_resumes_unread : ∃ b : Broker RoundRobinPartitioner,
    Broker.new (RmqClientConfig.new.set ConfigKeys.brokerId "b") = .ok b ∧
    let w₀ := (World.init b).after members [sendOne, sendOne, .consumer 0 (.subscribe default ["t"]),
      .consumer 0 (.subscribe default ["u"])]
    let w₁ := w₀.after members [.consumer 0 (.subscribe default ["t"])]
    w₁.polled members 0 = .ok (some (sent 0)) ∧
      (⟨some "g", "new"⟩ : BaseConsumer).PollsFirst w₁.broker ("t", 0) (sent 0) := by
  refine ⟨_, rfl, ?_⟩
  intro w₀ w₁
  have hm : w₁.polled members 0 = .ok (some (sent 0)) := by decide +kernel
  have hlost : ("t", 0) ∉ w₀.assigned 0 := by decide +kernel
  have hgained : ("t", 0) ∈ w₁.assigned 0 := by decide +kernel
  have hnone : (w₀.consumers 0).position.lookup ("t", 0) = none := by decide +kernel
  have hnone' : (w₁.consumers 0).position.lookup ("t", 0) = none := by decide +kernel
  have h₁ : w₁ = w₀.after members [.consumer 0 (.subscribe default ["t"])] := rfl
  clear_value w₁ w₀
  refine ⟨hm, ?_⟩
  have h := gained_resumes members 0 w₀ default ["t"] [] h₁ rfl ("t", 0) hlost hgained hnone trivial hm rfl
    (c := ⟨some "g", "new"⟩) rfl
  exact h.2 (Or.inl hnone')

/-- The partition is lost after a message of it was polled, and gained again. -/
theorem regained_reads_on : ∃ b : Broker RoundRobinPartitioner,
    Broker.new (RmqClientConfig.new.set ConfigKeys.brokerId "b") = .ok b ∧
    let w₀ := (World.init b).after members [sendOne, sendOne, .consumer 0 (.subscribe default ["t"]),
      .consumer 0 .pollOnce, .consumer 0 (.subscribe default ["u"])]
    let w₁ := w₀.after members [.consumer 0 (.subscribe default ["t"])]
    ("t", 0) ∉ w₀.assigned 0 ∧ ("t", 0) ∈ w₁.assigned 0 ∧ w₁.polled members 0 = .ok (some (sent 1)) ∧
      ((⟨some "g", "new"⟩ : BaseConsumer).pollOnce.run (created w₁.broker ("t", 0))).1 = .ok (some (sent 0)) := by
  exact ⟨_, rfl, by decide +kernel, by decide +kernel, by decide +kernel, by decide +kernel⟩

end RMemQueue
