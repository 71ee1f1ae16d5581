import RMemQueue.Broker

/-!
# What the broker's operations compute

For each operation of a running broker: what it computes when it runs alone; and that every step of every operation
leads to a later state of the broker.  `fetch_recovers` puts together what a fetch says of a position, and what the
offset is good for that it names when the position is out of range.
-/

namespace RMemQueue

open Conc

namespace Broker

variable {π : Type} {b b' : Broker π}

/-- The broker has not been shut down. -/
structure Running (b : Broker π) : Prop where
  broker : b.shutdown = false
  backend : b.backend.shutdown = false

@[simp] theorem run_onBackend {α : Type} (x : BackendM α) (b : Broker π) :
    (onBackend x).run b = ((x.run b.backend).1, { b with backend := (x.run b.backend).2 }) :=
  Act.run_zoom backendLens x b

theorem run_checkShutdown (h : b.Running) : checkShutdown.run b = (.ok (), b) := by
  simp [checkShutdown, h.broker]

/-! ### Fetching -/

theorem run_watermarks (h : b.Running) (topic : String) (partition : Int) :
    (watermarks topic partition).run b =
      ((b.backend.partition? topic partition).elim (.err (b.backend.missing topic partition)) fun p =>
        .ok p.watermarks, b) := by
  rw [watermarks, run_onBackend, InMemoryBackend.run_watermarks h.backend]

theorem run_oldestOffset (h : b.Running) (topic : String) (partition : Int) :
    (oldestOffset topic partition).run b =
      ((b.backend.partition? topic partition).elim (.err (b.backend.missing topic partition)) fun p =>
        .ok p.watermarks.1, b) := by
  rw [oldestOffset, Act.run_bind, run_watermarks h]
  cases b.backend.partition? topic partition <;> rfl

/-- The offset that a group has committed, if the group exists. -/
def committed? (b : Broker π) (groupId : Option String) (topic : String) (partition : Int) : Option Int :=
  groupId.bind fun gid =>
    if (b.consumerGroups.lookup gid).isSome then b.offsetStore.lookup (gid, topic, partition) else none

/-- Where a fetch begins; `none` is the overflow of `committed + 1`. -/
def start? (b : Broker π) (oldest : Int) (topic : String) (partition : Int) (position : Option Int)
    (groupId : Option String) : Option Int :=
  match position with
  | some o => some o
  | none =>
    match b.committed? groupId topic partition with
    | some committed => i64Checked (committed + 1)
    | none => some oldest

theorem start?_eq_none_iff {b : Broker π} {oldest : Int} {topic : String} {partition : Int} {position : Option Int}
    {groupId : Option String} :
    b.start? oldest topic partition position groupId = none ↔ position = none ∧
      ∃ committed, b.committed? groupId topic partition = some committed ∧ i64Checked (committed + 1) = none := by
  unfold start?
  cases position with
  | some o => simp
  | none => cases b.committed? groupId topic partition <;> simp

private theorem run_groupOffset (gid topic : String) (partition : Int) :
    (groupOffset gid topic partition).run b = (.ok (b.committed? (some gid) topic partition), b) := by
  unfold groupOffset committed?
  rw [Act.run_bind, Act.run_read, Outcome.andThen_ok, Option.bind_some]
  cases (b.consumerGroups.lookup gid).isSome <;> rfl

/-- A start that does not need the oldest offset. -/
private theorem run_startOffset_of_committed {topic : String} {partition : Int} {position : Option Int}
    {groupId : Option String} (h : position ≠ none ∨ b.committed? groupId topic partition ≠ none) (oldest : Int) :
    (startOffset topic partition position groupId).run b =
      ((b.start? oldest topic partition position groupId).elim .panic .ok, b) := by
  unfold startOffset start?
  split
  · rfl
  · simp [committed?] at h
  · rw [Act.run_bind, run_groupOffset, Outcome.andThen_ok]
    rename_i gid
    cases hc : b.committed? (some gid) topic partition with
    | none => simp [hc] at h
    | some committed =>
      dsimp only
      cases i64Checked (committed + 1) <;> rfl

/-- A start from the oldest message. -/
private theorem run_startOffset_of_none {topic : String} {partition : Int} {groupId : Option String}
    (h : b.committed? groupId topic partition = none) :
    (startOffset topic partition none groupId).run b = (oldestOffset topic partition).run b := by
  cases groupId with
  | none => rfl
  | some gid =>
    rw [startOffset, Act.run_bind, run_groupOffset, Outcome.andThen_ok, h]

/-- A fetch from an existing partition. -/
theorem run_fetchOneFromPosition (h : b.Running) {topic : String} {partition : Int} {p : Partition}
    (hp : b.backend.partition? topic partition = some p) (position : Option Int) (groupId : Option String) :
    (fetchOneFromPosition topic partition position groupId).run b =
      ((b.start? p.watermarks.1 topic partition position groupId).elim .panic fun o =>
        match p.readOne o with
        | .ok r => .ok r
        | .error _ => .err (.offsetOutOfRange topic partition p.watermarks.1), b) := by
  have holdest : (oldestOffset topic partition).run b = (.ok p.watermarks.1, b) := by
    rw [run_oldestOffset h, hp]; rfl
  -- a position or a committed offset is taken without a look at the backend
  have hstart : (startOffset topic partition position groupId).run b =
      ((b.start? p.watermarks.1 topic partition position groupId).elim .panic .ok, b) := by
    by_cases hc : position ≠ none ∨ b.committed? groupId topic partition ≠ none
    · exact run_startOffset_of_committed hc _
    · simp only [ne_eq, not_or, Decidable.not_not] at hc
      rw [hc.1, run_startOffset_of_none hc.2, holdest, start?, hc.2]
      rfl
  rw [fetchOneFromPosition, Act.run_bind, run_checkShutdown h, Outcome.andThen_ok, Act.run_bind, hstart]
  cases b.start? p.watermarks.1 topic partition position groupId with
  | none => rfl
  | some o =>
    simp only [Option.elim_some, Outcome.andThen_ok, Act.run_bind, Act.run_attempt, run_onBackend,
      InMemoryBackend.run_fetchOne h.backend, hp]
    cases hr : p.readOne o with
    | ok r => rfl
    -- out of range: the second look at the oldest offset goes into the error
    | error e =>
      obtain rfl := (p.readOne_eq_error_iff.1 hr).1
      simp only [InMemoryBackend.ofResult, Outcome.caught_err, Outcome.andThen_ok, Partition.outOfRange]
      rw [Act.run_bind, holdest]
      rfl

/-- A fetch from a partition that does not exist. -/
theorem run_fetchOneFromPosition_of_none (h : b.Running) {topic : String} {partition : Int}
    (hp : b.backend.partition? topic partition = none) (position : Option Int) (groupId : Option String) :
    (fetchOneFromPosition topic partition position groupId).run b =
      ((b.start? 0 topic partition position groupId).elim .panic fun _ => .err (b.backend.missing topic partition),
        b) := by
  have holdest : (oldestOffset topic partition).run b = (.err (b.backend.missing topic partition), b) := by
    rw [run_oldestOffset h, hp]; rfl
  rw [fetchOneFromPosition, Act.run_bind, run_checkShutdown h, Outcome.andThen_ok, Act.run_bind]
  by_cases hc : position ≠ none ∨ b.committed? groupId topic partition ≠ none
  · rw [run_startOffset_of_committed hc 0]
    cases b.start? 0 topic partition position groupId with
    | none => rfl
    | some o =>
      simp only [Option.elim_some, Outcome.andThen_ok, Act.run_bind, Act.run_attempt, run_onBackend,
        InMemoryBackend.run_fetchOne h.backend, hp, Option.elim_none, Outcome.caught_err,
        InMemoryBackend.missing]
      cases (b.backend.topic? topic).isSome <;> rfl
  · simp only [ne_eq, not_or, Decidable.not_not] at hc
    rw [hc.1, run_startOffset_of_none hc.2, holdest, start?, hc.2]
    rfl

/-- A fetch from a broker that is shut down fails; a group's commit may still make it panic. -/
theorem run_fetchOneFromPosition_of_not_running (h : ¬b.Running) (topic : String) (partition : Int)
    (position : Option Int) (groupId : Option String) :
    ((b.shutdown = true ∨ b.start? 0 topic partition position groupId ≠ none) ∧
        ((fetchOneFromPosition topic partition position groupId).run b).1 = .err .brokerShutdown) ∨
      (b.shutdown = false ∧ b.start? 0 topic partition position groupId = none) ∧
        ((fetchOneFromPosition topic partition position groupId).run b).1 = .panic := by
  cases hs : b.shutdown with
  | true => exact Or.inl ⟨Or.inl rfl, by simp [fetchOneFromPosition, checkShutdown, hs]⟩
  | false =>
    have hb : b.backend.shutdown = true := by
      by_contra hb
      exact h ⟨hs, by simpa using hb⟩
    have hfetch : ∀ o, (InMemoryBackend.fetchOne topic partition o).run b.backend = (.err .brokerShutdown, b.backend) := by
      intro o
      rw [InMemoryBackend.fetchOne, Act.run_bind]
      simp [InMemoryBackend.checkShutdown, hb]
    have hmarks : (InMemoryBackend.watermarks topic partition).run b.backend = (.err .brokerShutdown, b.backend) := by
      rw [InMemoryBackend.watermarks, Act.run_bind]
      simp [InMemoryBackend.checkShutdown, hb]
    have hstart : (startOffset topic partition position groupId).run b =
        ((b.start? 0 topic partition position groupId).elim .panic .ok, b) ∨
        b.start? 0 topic partition position groupId ≠ none ∧
          (startOffset topic partition position groupId).run b = (.err .brokerShutdown, b) := by
      by_cases hc : position ≠ none ∨ b.committed? groupId topic partition ≠ none
      · exact Or.inl (run_startOffset_of_committed hc 0)
      · simp only [ne_eq, not_or, Decidable.not_not] at hc
        refine Or.inr ⟨by simp [start?, hc.1, hc.2], ?_⟩
        rw [hc.1, run_startOffset_of_none hc.2, oldestOffset, Act.run_bind, watermarks, run_onBackend, hmarks]
        rfl
    rw [fetchOneFromPosition, Act.run_bind, checkShutdown, Act.run_read, hs]
    simp only [Bool.false_eq_true, ↓reduceIte, Outcome.andThen_ok, Act.run_bind]
    rcases hstart with hstart | ⟨hsome, hstart⟩
    · rw [hstart]
      cases b.start? 0 topic partition position groupId with
      | none => exact Or.inr ⟨by simp, rfl⟩
      | some o =>
        refine Or.inl ⟨Or.inr (by simp), ?_⟩
        simp only [Option.elim_some, Outcome.andThen_ok, Act.run_attempt, run_onBackend, hfetch,
          Outcome.caught_err, Act.run_fail]
    · rw [hstart]
      exact Or.inl ⟨Or.inr hsome, rfl⟩

section

variable {topic : String} {partition : Int} {position : Option Int} {groupId : Option String}

/-- The only panic of a fetch is the overflow of `committed + 1`. -/
theorem fetch_eq_panic_iff :
    ((fetchOneFromPosition topic partition position groupId).run b).1 = .panic ↔
      b.shutdown = false ∧ position = none ∧
        ∃ committed, b.committed? groupId topic partition = some committed ∧ i64Checked (committed + 1) = none := by
  have hnone : ∀ oldest, b.start? oldest topic partition position groupId = none ↔ position = none ∧
      ∃ committed, b.committed? groupId topic partition = some committed ∧ i64Checked (committed + 1) = none :=
    fun oldest => start?_eq_none_iff
  by_cases hr : b.Running
  · simp only [hr.broker, true_and]
    cases hp : b.backend.partition? topic partition with
    | none =>
      rw [run_fetchOneFromPosition_of_none hr hp, ← hnone 0]
      cases b.start? 0 topic partition position groupId <;> simp
    | some p =>
      rw [run_fetchOneFromPosition hr hp, ← hnone p.watermarks.1]
      cases b.start? p.watermarks.1 topic partition position groupId with
      | none => simp
      | some o =>
        rw [Option.elim_some]
        cases p.readOne o <;> simp
  · rw [← hnone 0]
    rcases run_fetchOneFromPosition_of_not_running hr topic partition position groupId with ⟨h, hf⟩ | ⟨h, hf⟩
    · rw [hf]
      refine iff_of_false (by simp) ?_
      rintro ⟨hs, hst⟩
      exact h.elim (fun hs' => by rw [hs] at hs'; cases hs') (absurd hst)
    · exact iff_of_true hf h

/-- A fetch that does not fail for lack of a running broker, of a partition or of a start reads the partition. -/
private theorem fetch_reads {x : Outcome RmqError (Option StoredMessage)}
    (h : ((fetchOneFromPosition topic partition position groupId).run b).1 = x) (hpanic : x ≠ .panic)
    (hdown : x ≠ .err .brokerShutdown) (hmissing : x ≠ .err (b.backend.missing topic partition)) :
    b.Running ∧ ∃ p o, b.backend.partition? topic partition = some p ∧
      b.start? p.watermarks.1 topic partition position groupId = some o ∧
      ((∃ r, p.readOne o = .ok r ∧ x = .ok r) ∨
        ∃ e, p.readOne o = .error e ∧ x = .err (.offsetOutOfRange topic partition p.watermarks.1)) := by
  have hr : b.Running := by
    by_contra hr
    rcases run_fetchOneFromPosition_of_not_running hr topic partition position groupId with ⟨-, hf⟩ | ⟨-, hf⟩
    · exact hdown (h.symm.trans hf)
    · exact hpanic (h.symm.trans hf)
  refine ⟨hr, ?_⟩
  cases hp : b.backend.partition? topic partition with
  | none =>
    exfalso
    rw [run_fetchOneFromPosition_of_none hr hp] at h
    cases hst : b.start? 0 topic partition position groupId with
    | none =>
      rw [hst] at h
      exact hpanic h.symm
    | some o =>
      rw [hst] at h
      exact hmissing h.symm
  | some p =>
    rw [run_fetchOneFromPosition hr hp] at h
    cases hst : b.start? p.watermarks.1 topic partition position groupId with
    | none =>
      rw [hst] at h
      exact absurd h.symm hpanic
    | some o =>
      rw [hst, Option.elim_some] at h
      refine ⟨p, o, rfl, hst, ?_⟩
      cases hread : p.readOne o with
      | ok r =>
        rw [hread] at h
        exact Or.inl ⟨r, rfl, h.symm⟩
      | error e =>
        rw [hread] at h
        exact Or.inr ⟨e, rfl, h.symm⟩

private theorem missing_ne_outOfRange (backend : InMemoryBackend) (topic' : String) (partition' o : Int) :
    RmqError.offsetOutOfRange topic' partition' o ≠ backend.missing topic partition := by
  unfold InMemoryBackend.missing
  split <;> simp

/-- What a fetch has read. -/
theorem fetch_eq_ok {r : Option StoredMessage}
    (h : ((fetchOneFromPosition topic partition position groupId).run b).1 = .ok r) :
    b.Running ∧ ∃ p o, b.backend.partition? topic partition = some p ∧
      b.start? p.watermarks.1 topic partition position groupId = some o ∧ p.readOne o = .ok r := by
  obtain ⟨hr, p, o, hp, hst, ⟨r', hread, hx⟩ | ⟨e, -, hx⟩⟩ := fetch_reads h (by simp) (by simp) (by simp)
  · obtain rfl := Outcome.ok.inj hx
    exact ⟨hr, p, o, hp, hst, hread⟩
  · cases hx

/-- A fetch that says that an offset is out of range has tried to read outside the log, and names the oldest offset. -/
theorem fetch_eq_outOfRange {topic' : String} {partition' o : Int}
    (h : ((fetchOneFromPosition topic partition position groupId).run b).1 =
      .err (.offsetOutOfRange topic' partition' o)) :
    b.Running ∧ ∃ p o', b.backend.partition? topic partition = some p ∧ o = p.watermarks.1 ∧
      b.start? p.watermarks.1 topic partition position groupId = some o' ∧
      (o' < p.abs.dropped ∨ p.abs.next < o') := by
  have hmissing : (.err (.offsetOutOfRange topic' partition' o) : Outcome RmqError (Option StoredMessage)) ≠
      .err (b.backend.missing topic partition) := by
    intro heq
    exact missing_ne_outOfRange _ _ _ _ (Outcome.err.inj heq)
  obtain ⟨hr, p, o', hp, hst, ⟨r, -, hx⟩ | ⟨e, hread, hx⟩⟩ := fetch_reads h (by simp) (by simp) hmissing
  · cases hx
  · cases hx
    exact ⟨hr, p, o', hp, rfl, hst, (p.readOne_eq_error_iff.1 hread).2.1⟩

end

/-! ### What every step does -/

/-- `b'` is a later state of the broker `b`. -/
structure Later (b b' : Broker π) : Prop where
  backend : b.backend.Later b'.backend
  config : b'.config = b.config
  shutdown : b.shutdown = true → b'.shutdown = true
  groups : ∀ gid, (b.consumerGroups.lookup gid).isSome → (b'.consumerGroups.lookup gid).isSome

theorem Later.refl (b : Broker π) : b.Later b := ⟨.refl _, rfl, id, fun _ => id⟩

theorem Later.trans {b₁ b₂ b₃ : Broker π} (h₁ : b₁.Later b₂) (h₂ : b₂.Later b₃) : b₁.Later b₃ :=
  ⟨h₁.backend.trans h₂.backend, h₂.config.trans h₁.config, h₂.shutdown ∘ h₁.shutdown,
    fun gid => h₂.groups gid ∘ h₁.groups gid⟩

theorem Later.running (h : b.Later b') (hr : b'.Running) : b.Running := by
  constructor
  · by_contra hs
    have hs' := h.shutdown (by simpa using hs)
    rw [hr.broker] at hs'
    cases hs'
  · by_contra hs
    have hs' := h.backend.shutdown (by simpa using hs)
    rw [hr.backend] at hs'
    cases hs'

theorem readOnly_watermarks (topic : String) (partition : Int) :
    (watermarks topic partition : BrokerM π (Int × Int)).ReadOnly :=
  Act.Always.zoom (InMemoryBackend.readOnly_watermarks topic partition) fun b s h => by rw [h]; rfl

theorem readOnly_oldestOffset (topic : String) (partition : Int) :
    (oldestOffset topic partition : BrokerM π Int).ReadOnly :=
  (readOnly_watermarks topic partition).bind fun _ => trivial

theorem readOnly_startOffset (topic : String) (partition : Int) (position : Option Int) (groupId : Option String) :
    (startOffset topic partition position groupId : BrokerM π Int).ReadOnly := by
  unfold startOffset
  split
  · trivial
  · exact readOnly_oldestOffset topic partition
  · refine Act.ReadOnly.bind ?_ fun committed => ?_
    · refine (Act.readOnly_read _).bind fun known => ?_
      cases known
      · trivial
      · exact Act.readOnly_read _
    · cases committed with
      | none => exact readOnly_oldestOffset topic partition
      | some committed =>
        dsimp only
        split <;> trivial

/-- A fetch changes nothing, whatever happens in between. -/
theorem readOnly_fetchOneFromPosition (topic : String) (partition : Int) (position : Option Int)
    (groupId : Option String) :
    (fetchOneFromPosition topic partition position groupId : BrokerM π (Option StoredMessage)).ReadOnly := by
  refine (Act.readOnly_read _).bind fun _ => ?_
  refine (readOnly_startOffset topic partition position groupId).bind fun offset => ?_
  refine Act.ReadOnly.bind (Act.Always.attempt ?_) fun result => ?_
  · exact Act.Always.zoom (InMemoryBackend.readOnly_fetchOne topic partition offset) fun b s h => by rw [h]; rfl
  · split
    · trivial
    · exact (readOnly_oldestOffset topic partition).bind fun _ => trivial
    · trivial

theorem readOnly_metadata (topic : Option String) : (metadata topic : BrokerM π Metadata).ReadOnly := by
  refine (Act.readOnly_read _).bind fun _ => (Act.readOnly_read _).bind fun config => ?_
  exact Act.Always.zoom (InMemoryBackend.readOnly_metadata _ _) fun b s h => by rw [h]; rfl

theorem readOnly_committedOffset (groupId topic : String) (partition : Int) :
    (committedOffset groupId topic partition : BrokerM π (Option Int)).ReadOnly :=
  (Act.readOnly_read _).bind fun _ => (Act.readOnly_read _).bind fun _ => Act.readOnly_read _

theorem readOnly_getPartitionNotifies (topics : List String) :
    (getPartitionNotifies topics : BrokerM π (List NotifyRef)).ReadOnly :=
  Act.Always.zoom (InMemoryBackend.readOnly_getPartitionNotifies topics) fun b s h => by rw [h]; rfl

/-- The updates that the operations make, apart from commits and the shutdown: the backend's steps are `S`-steps, and
the broker's are `R`-steps. -/
structure Updates (S : InMemoryBackend → InMemoryBackend → Prop) (R : Broker π → Broker π → Prop) : Prop where
  ensureTopic : ∀ topic n, (InMemoryBackend.ensureTopic topic n).Always S
  produce : ∀ topic partition content headers timestamp clock,
    (InMemoryBackend.produce topic partition content headers timestamp clock).Always S
  refl : ∀ b, R b b
  backend : ∀ b s, S b.backend s → R b { b with backend := s }
  partitioner : ∀ b partitioner, R b { b with partitioner }
  group : ∀ (b : Broker π) groupId g, R b { b with consumerGroups := b.consumerGroups.insert groupId g }

namespace Updates

variable {S : InMemoryBackend → InMemoryBackend → Prop} {R : Broker π → Broker π → Prop} {α : Type}

theorem always_onBackend (h : Updates S R) {x : BackendM α} (hx : x.Always S) : (onBackend x : BrokerM π α).Always R :=
  Act.Always.zoom hx fun b s => h.backend b s

theorem always_readOnly (h : Updates S R) {x : BackendM α} (hx : x.ReadOnly) : (onBackend x : BrokerM π α).Always R :=
  Act.Always.zoom hx fun b s hs => by rw [hs]; exact h.refl b

theorem always_read (h : Updates S R) (g : Broker π → Outcome RmqError α) : (Act.read g : BrokerM π α).Always R :=
  Act.always_read h.refl g

theorem always_ensureTopic (h : Updates S R) (topic : String) (n : Int) :
    (Broker.ensureTopic topic n : BrokerM π Unit).Always R :=
  h.always_onBackend (h.ensureTopic topic n)

theorem always_produce [Partitioner π] (h : Updates S R) (topic : String) (partition : Option Int) (content : Content)
    (headers : Option OwnedHeaders) (timestamp : Option Int) (clock : Clock) :
    (Broker.produce topic partition content headers timestamp clock : BrokerM π RecordMetadata).Always R := by
  refine (h.always_read _).bind fun _ => (h.always_read _).bind fun config => ?_
  refine (h.always_ensureTopic topic _).bind fun _ => ?_
  refine (h.always_readOnly (InMemoryBackend.readOnly_metadata _ _)).bind fun metadata => ?_
  refine Act.Always.bind ?_ fun p => ?_
  · cases partition with
    | some p => trivial
    | none => exact Act.always_step fun b => h.partitioner b _
  · exact (h.always_onBackend (h.produce topic _ content headers timestamp clock)).bind fun _ => trivial

theorem always_onGroup (h : Updates S R) (groupId : String) (f : ConsumerGroup → RmqResult α × ConsumerGroup) :
    (onGroup groupId f : BrokerM π α).Always R := by
  refine Act.always_step fun b => ?_
  split
  · exact h.group b groupId _
  · exact h.refl b

theorem always_joinGroup (h : Updates S R) (order : HashOrder) (groupId memberId : String) (topics : List String) :
    (joinGroup order groupId memberId topics : BrokerM π TopicPartitionList).Always R := by
  refine (h.always_read _).bind fun _ => (h.always_read _).bind fun config => ?_
  refine (Act.Always.forEach (fun topic => h.always_ensureTopic topic _) topics).bind fun _ => ?_
  refine (Act.always_modify fun b => ?_).bind fun _ => ?_
  · split
    · exact h.refl b
    · exact h.group b groupId _
  · refine (h.always_readOnly (InMemoryBackend.readOnly_getPartitionNotifies topics)).bind fun _ => ?_
    exact (h.always_readOnly (InMemoryBackend.readOnly_metadata _ _)).bind fun _ => h.always_onGroup groupId _

theorem always_leaveGroup (h : Updates S R) (order : HashOrder) (groupId memberId : String) :
    (leaveGroup order groupId memberId : BrokerM π Unit).Always R := by
  refine (h.always_read _).bind fun _ => (h.always_read _).bind fun _ => (h.always_read _).bind fun config => ?_
  exact (h.always_readOnly (InMemoryBackend.readOnly_metadata _ _)).bind fun _ => h.always_onGroup groupId _

/-- A commit takes the shutdown and the group into account before it updates the store. -/
theorem always_commitOffset (h : Updates S R)
    (hstore : ∀ (b : Broker π) key offset, R b { b with offsetStore := b.offsetStore.insert key offset })
    (groupId topic : String) (partition offset : Int) :
    (commitOffset groupId topic partition offset : BrokerM π Unit).Always R :=
  (h.always_read _).bind fun _ => (h.always_read _).bind fun _ => Act.always_modify fun b => hstore b _ offset

end Updates

/-- Every update leads to a later state. -/
theorem updates_later : Updates InMemoryBackend.Later (Later : Broker π → Broker π → Prop) where
  ensureTopic := InMemoryBackend.always_ensureTopic
  produce := InMemoryBackend.always_produce
  refl := .refl
  backend _ _ h := ⟨h, rfl, id, fun _ => id⟩
  partitioner _ _ := ⟨.refl _, rfl, id, fun _ => id⟩
  group b groupId g := by
    refine ⟨.refl _, rfl, id, fun gid h => ?_⟩
    by_cases hg : gid = groupId
    · subst hg
      simp
    · rwa [AList.lookup_insert_ne hg]

theorem always_commitOffset (groupId topic : String) (partition offset : Int) :
    (commitOffset groupId topic partition offset : BrokerM π Unit).Always Later :=
  updates_later.always_commitOffset (fun _ _ _ => ⟨.refl _, rfl, id, fun _ => id⟩) groupId topic partition offset

theorem always_shutdownBroker : (shutdownBroker : BrokerM π Unit).Always Later := by
  refine (Act.always_modify fun b => ⟨.refl _, rfl, fun _ => rfl, fun _ => id⟩).bind fun _ => ?_
  exact updates_later.always_onBackend InMemoryBackend.always_shutdownBackend

/-! ### Committed offsets -/

/-- The broker has not been shut down, and the group exists. -/
def Commits (b : Broker π) (groupId : String) : Prop :=
  b.shutdown = false ∧ (b.consumerGroups.lookup groupId).isSome = true

instance (b : Broker π) (groupId : String) : Decidable (b.Commits groupId) := inferInstanceAs (Decidable (_ ∧ _))

theorem run_commitOffset {groupId : String} (h : b.Commits groupId) (topic : String) (partition offset : Int) :
    (commitOffset groupId topic partition offset).run b =
      (.ok (), { b with offsetStore := b.offsetStore.insert (groupId, topic, partition) offset }) := by
  simp [commitOffset, checkShutdown, requireGroup, h.1, h.2]

theorem run_committedOffset {groupId : String} (h : b.Commits groupId) (topic : String) (partition : Int) :
    (committedOffset groupId topic partition).run b = (.ok (b.offsetStore.lookup (groupId, topic, partition)), b) := by
  simp [committedOffset, checkShutdown, requireGroup, h.1, h.2]

/-- Otherwise every call on the offsets of the group fails. -/
theorem run_requireGroup_of_not {α : Type} {groupId : String} (h : ¬b.Commits groupId) (f : Unit → BrokerM π α) :
    ∃ e, (checkShutdown >>= fun _ => requireGroup groupId >>= f).run b = (.err e, b) := by
  cases hs : b.shutdown with
  | true => exact ⟨.brokerShutdown, by simp [checkShutdown, hs]⟩
  | false =>
    have hg : (b.consumerGroups.lookup groupId).isSome = false := Bool.eq_false_iff.2 fun hg => h ⟨hs, hg⟩
    exact ⟨.groupNotFound groupId, by simp [checkShutdown, requireGroup, hs, hg]⟩

end Broker

open Broker

/-- The oldest watermark is where the oldest message is read, if there is one. -/
private theorem readOne_watermarks (p : Partition) : p.readOne p.watermarks.1 = .ok p.buffer.log.head? := by
  have hw := congrArg Prod.fst p.watermarks_eq
  dsimp only at hw
  rw [hw]
  split
  · rename_i hnil
    rw [p.readOne_eq_none_iff.2 (Or.inr ⟨rfl, hnil⟩), ← p.abs_retained, hnil]
    rfl
  · have hread := p.readOne_dropped_add (Nat.zero_le _)
    rwa [← List.head?_eq_getElem?, Int.natCast_zero, Int.add_zero] at hread

/-- **One correction recovers from any position.**  A fetch at a position returns the message with this offset, or
`None` when no message is retained from there on, or it names another offset; a fetch at that one returns the oldest
retained message, if there is one, and else `None`. -/
theorem fetch_recovers {π : Type} {b : Broker π} (hr : b.Running) {topic : String} {partition : Int} {p : Partition}
    (hp : b.backend.partition? topic partition = some p) (groupId : Option String) (o : Int) :
    (∃ m, ((fetchOneFromPosition topic partition (some o) groupId).run b).1 = .ok (some m) ∧ m.offset = o) ∨
    (((fetchOneFromPosition topic partition (some o) groupId).run b).1 = .ok none ∧
      ∀ m ∈ p.buffer.log, m.offset < o) ∨
    ∃ q, ((fetchOneFromPosition topic partition (some o) groupId).run b).1 =
        .err (.offsetOutOfRange topic partition q) ∧
      ((fetchOneFromPosition topic partition (some q) groupId).run b).1 = .ok p.buffer.log.head? := by
  have hok : ∀ o r, p.readOne o = .ok r → ((fetchOneFromPosition topic partition (some o) groupId).run b).1 = .ok r := by
    intro o r hread
    rw [run_fetchOneFromPosition hr hp, start?, Option.elim_some, hread]
  rcases p.readOne_cases o with ⟨n, m, rfl, hg, hread⟩ | ⟨hend, hread⟩ | ⟨-, -, hread⟩
  · exact Or.inl ⟨m, hok _ _ hread, (p.stamped_of_get? hg).1⟩
  · refine Or.inr (Or.inl ⟨hok _ _ hread, fun m hm => ?_⟩)
    -- the position is the end of the log, or the log is empty
    rcases hend with rfl | ⟨-, hnil⟩
    · obtain ⟨n, hn, hg⟩ := p.mem_log_iff.1 ⟨hm, rfl⟩
      have hbounds := TrimmedLog.bounds_of_get? hg
      omega
    · rw [← p.abs_retained, hnil] at hm
      cases hm
  · refine Or.inr (Or.inr ⟨p.watermarks.1, ?_, hok _ _ (readOne_watermarks p)⟩)
    rw [run_fetchOneFromPosition hr hp, start?, Option.elim_some, hread]

/-- A position beyond the only message of the topic `t`. -/
theorem fetch_recovers_beyond : ∃ b : Broker RoundRobinPartitioner,
    Broker.new (RmqClientConfig.new.set ConfigKeys.brokerId "b") = .ok b ∧
    let b' := ((produce "t" (some 0) (.raw none none) none none ⟨7, 0, fun _ => 0⟩).run b).2
    ∃ q, ((fetchOneFromPosition "t" 0 (some 9999) none).run b').1 = .err (.offsetOutOfRange "t" 0 q) ∧
      ((fetchOneFromPosition "t" 0 (some q) none).run b').1 = .ok (some (.new none none "t" 0 0 7 none 0)) := by
  refine ⟨_, rfl, ?_⟩
  intro b'
  obtain ⟨p, hp, hlog⟩ : ∃ p, b'.backend.partition? "t" 0 = some p ∧
      p.buffer.log.head? = some (.new none none "t" 0 0 7 none 0) := by
    rw [← Option.map_eq_some_iff]
    decide +kernel
  have hfetch : ((fetchOneFromPosition "t" 0 (some 9999) none).run b').1 = .err (.offsetOutOfRange "t" 0 0) := by
    decide +kernel
  rcases fetch_recovers ⟨by decide +kernel, by decide +kernel⟩ hp none 9999 with ⟨m, hm, -⟩ | ⟨hm, -⟩ | h
  · rw [hfetch] at hm
    cases hm
  · rw [hfetch] at hm
    cases hm
  · rwa [hlog] at h

end RMemQueue
