import RMemQueue.ConsumerRun

/-!
# When a poll finds nothing (`base_consumer.rs`)

One pass of `poll_once` over the assigned partitions, in a state that nobody else changes.  A partition is *ready* when
the consumer reads next at a retained message, and *misplaced* when it reads next outside the log although messages are
retained; then the pass moves the position to the oldest message and goes on.

* `pollOnce_eq_none_iff`: the poll returns `None` if and only if no partition is ready, no start overflows and every
  misplaced partition is listed only once.
* `poll_delivers`: hence a `None` means that there is nothing to deliver, unless a partition is misplaced and no other
  partition is ready.
-/

namespace RMemQueue

open Conc

namespace BaseConsumer

variable {π : Type} (c : BaseConsumer)

/-- The consumer polls the partition: it is assigned and not paused. -/
def Polls (s : Session π) (key : String × Int) : Prop :=
  key ∈ s.state.assignedPartitions.keys ∧ key ∉ s.state.paused

/-- Where the consumer reads next from the partition: at its stored position, else where `start?` says. -/
def point? (s : Session π) (key : String × Int) (p : Partition) : Option Int :=
  s.broker.start? p.watermarks.1 key.1 key.2 (s.state.position.lookup key) c.groupId

/-- The consumer reads next at a retained message of the partition. -/
def Ready (s : Session π) (key : String × Int) : Prop :=
  ∃ p o, s.broker.backend.partition? key.1 key.2 = some p ∧ c.point? s key p = some o ∧
    (p.abs.dropped : Int) ≤ o ∧ o < p.abs.next

/-- The consumer reads next outside the log of the partition, which retains some message. -/
def Misplaced (s : Session π) (key : String × Int) : Prop :=
  ∃ p o, s.broker.backend.partition? key.1 key.2 = some p ∧ c.point? s key p = some o ∧
    (o < p.abs.dropped ∨ p.abs.next < o) ∧ p.buffer.log ≠ []

/-- There is no stored position, and the offset after the group's commit is not an `i64`. -/
def Overflows (s : Session π) (key : String × Int) : Prop :=
  s.state.position.lookup key = none ∧
    ∃ committed, s.broker.committed? c.groupId key.1 key.2 = some committed ∧ i64Checked (committed + 1) = none

/-- The partition retains a message at or after the point where the consumer has to read next: where it reads next if
that is in the log, the oldest retained message if it is not. -/
def Pending (s : Session π) (key : String × Int) : Prop :=
  ∃ p o, s.broker.backend.partition? key.1 key.2 = some p ∧ c.point? s key p = some o ∧
    ∃ m ∈ p.buffer.log, (if (p.abs.dropped : Int) ≤ o ∧ o ≤ p.abs.next then o else p.abs.dropped) ≤ m.offset

variable {c} {s : Session π} {key : String × Int}

/-- The messages of a log are those between its bounds. -/
private theorem exists_log_ge_iff (p : Partition) (o : Int) :
    (∃ m ∈ p.buffer.log, o ≤ m.offset) ↔ p.buffer.log ≠ [] ∧ o < p.abs.next := by
  constructor
  · rintro ⟨m, hm, ho⟩
    obtain ⟨n, hn, hg⟩ := p.mem_log_iff.1 ⟨hm, rfl⟩
    have hbounds := TrimmedLog.bounds_of_get? hg
    exact ⟨List.ne_nil_of_mem hm, by omega⟩
  · rintro ⟨hne, ho⟩
    have hlt : p.abs.dropped < p.abs.next := by
      have hnil := (p.abs.retained_eq_nil_iff).not.1 (p.abs_retained ▸ hne)
      have := p.abs.dropped_le_next
      omega
    obtain ⟨m, hm⟩ := TrimmedLog.exists_get? (show p.abs.dropped ≤ p.abs.next - 1 by omega) (by omega)
    obtain ⟨hmem, hoff⟩ := p.mem_log_iff.2 ⟨p.abs.next - 1, rfl, hm⟩
    exact ⟨m, hmem, by omega⟩

theorem pending_iff : c.Pending s key ↔ c.Ready s key ∨ c.Misplaced s key := by
  simp only [Pending, Ready, Misplaced, exists_log_ge_iff]
  constructor
  · rintro ⟨p, o, hp, ho, hne, hlt⟩
    by_cases hin : (p.abs.dropped : Int) ≤ o ∧ o ≤ p.abs.next
    · rw [if_pos hin] at hlt
      exact Or.inl ⟨p, o, hp, ho, hin.1, hlt⟩
    · exact Or.inr ⟨p, o, hp, ho, by omega, hne⟩
  · rintro (⟨p, o, hp, ho, hd, hn⟩ | ⟨p, o, hp, ho, hout, hne⟩)
    · refine ⟨p, o, hp, ho, ?_, ?_⟩
      · rw [← p.abs_retained, Ne, TrimmedLog.retained_eq_nil_iff]
        omega
      · rw [if_pos ⟨hd, by omega⟩]
        exact hn
    · refine ⟨p, o, hp, ho, hne, ?_⟩
      rw [← p.abs_retained, Ne, TrimmedLog.retained_eq_nil_iff] at hne
      have := p.abs.dropped_le_next
      rw [if_neg (by omega)]
      omega

/-! ### One round -/

/-- What a round tests about a partition is the same in both states. -/
def SameAt (c : BaseConsumer) (s s' : Session π) (key : String × Int) : Prop :=
  (c.Ready s' key ↔ c.Ready s key) ∧ (c.Overflows s' key ↔ c.Overflows s key) ∧ (c.Misplaced s' key ↔ c.Misplaced s key)

private theorem SameAt.refl (s : Session π) (key : String × Int) : SameAt c s s key := ⟨.rfl, .rfl, .rfl⟩

/-- The session with a new position for one partition. -/
def moved (s : Session π) (key : String × Int) (o : Int) : Session π :=
  { s with state := s.state.setPosition key o }

theorem sameAt_moved {key' : String × Int} (h : key' ≠ key) (o : Int) : SameAt c s (moved s key o) key' := by
  have hl : (moved s key o).state.position.lookup key' = s.state.position.lookup key' := AList.lookup_insert_ne h
  simp only [SameAt, Ready, Overflows, Misplaced, point?, hl]
  exact ⟨.rfl, .rfl, .rfl⟩

theorem point?_moved (o : Int) (p : Partition) : c.point? (moved s key o) key p = some o := by
  have hl : (moved s key o).state.position.lookup key = some o := AList.lookup_insert _
  simp only [point?, hl]
  rfl

theorem not_overflows_moved (o : Int) : ¬c.Overflows (moved s key o) key := by
  rintro ⟨h, -⟩
  rw [show (moved s key o).state.position.lookup key = some o from AList.lookup_insert _] at h
  cases h

theorem ready_iff {p : Partition} {o : Int} (hp : s.broker.backend.partition? key.1 key.2 = some p)
    (ho : c.point? s key p = some o) : c.Ready s key ↔ (p.abs.dropped : Int) ≤ o ∧ o < p.abs.next := by
  simp only [Ready, hp, Option.some.injEq, exists_eq_left', exists_and_left, ho]

theorem misplaced_iff {p : Partition} {o : Int} (hp : s.broker.backend.partition? key.1 key.2 = some p)
    (ho : c.point? s key p = some o) :
    c.Misplaced s key ↔ (o < p.abs.dropped ∨ p.abs.next < o) ∧ p.buffer.log ≠ [] := by
  simp only [Misplaced, hp, Option.some.injEq, exists_eq_left', exists_and_left, ho]

private theorem not_ready_of_none (hp : s.broker.backend.partition? key.1 key.2 = none) :
    ¬c.Ready s key ∧ ¬c.Misplaced s key := by
  simp [Ready, Misplaced, hp]

/-- A round on a partition that is not paused: its start overflows, a message is delivered, there is nothing to do, or
the position of a partition that is read outside its log moves to the oldest offset. -/
inductive Round (c : BaseConsumer) (s : Session π) (key : String × Int) (idx : Nat) :
    Outcome RmqError (Option StoredMessage) × Session π ⊕ Session π → Prop
  | overflowed (h : c.Overflows s key) : Round c s key idx (.inl (.panic, s))
  | delivered {p : Partition} {o : Int} {m : StoredMessage} (hp : s.broker.backend.partition? key.1 key.2 = some p)
    (ho : c.point? s key p = some o) (hm : p.readOne o = .ok (some m)) :
    Round c s key idx (.inl (.ok (some m), { s with state := s.state.delivered key m.offset idx }))
  | stayed (hr : ¬c.Ready s key) (ho : ¬c.Overflows s key) (hm : ¬c.Misplaced s key) : Round c s key idx (.inr s)
  | reset {p : Partition} {o : Int} (hp : s.broker.backend.partition? key.1 key.2 = some p)
    (ho : c.point? s key p = some o) (hout : o < p.abs.dropped ∨ p.abs.next < o) :
    Round c s key idx (.inr (moved s key p.watermarks.1))

theorem not_overflows {oldest o : Int}
    (hst : s.broker.start? oldest key.1 key.2 (s.state.position.lookup key) c.groupId = some o) :
    ¬c.Overflows s key := by
  intro h
  rw [Broker.start?_eq_none_iff.2 h] at hst
  cases hst

theorem ready_of_readOne {p : Partition} {o : Int} {m : StoredMessage}
    (hp : s.broker.backend.partition? key.1 key.2 = some p) (ho : c.point? s key p = some o)
    (hm : p.readOne o = .ok (some m)) : c.Ready s key := by
  obtain ⟨n, rfl, hg⟩ := p.readOne_eq_some_iff.1 hm
  have hbounds := TrimmedLog.bounds_of_get? hg
  exact ⟨p, n, hp, ho, by omega, by omega⟩

/-- A partition that does not exist is passed over. -/
private theorem round_missing (hp : s.broker.backend.partition? key.1 key.2 = none) (hover : ¬c.Overflows s key)
    (idx : Nat) : Round c s key idx (afterFetch key idx s (.err (s.broker.backend.missing key.1 key.2))) := by
  have hstay : Round c s key idx (.inr s) := .stayed (not_ready_of_none hp).1 hover (not_ready_of_none hp).2
  unfold InMemoryBackend.missing
  split
  · exact hstay
  · exact hstay

/-- A round on an existing partition. -/
private theorem round_existing {p : Partition} {o : Int} (hp : s.broker.backend.partition? key.1 key.2 = some p)
    (ho : c.point? s key p = some o) (idx : Nat) {x : Outcome RmqError (Option StoredMessage)}
    (hx : (∃ r, p.readOne o = .ok r ∧ x = .ok r) ∨
      ∃ e, p.readOne o = .error e ∧ x = .err (.offsetOutOfRange key.1 key.2 p.watermarks.1)) :
    Round c s key idx (afterFetch key idx s x) := by
  rcases hx with ⟨_ | m, hread, rfl⟩ | ⟨e, hread, rfl⟩
  · -- the end of the log
    have hnil := p.abs.retained_eq_nil_iff
    have hend := p.readOne_eq_none_iff.1 hread
    have hle := p.abs.dropped_le_next
    rw [p.abs_retained] at hnil hend
    refine .stayed ?_ (not_overflows ho) ?_
    · rw [ready_iff hp ho]
      rcases hend with rfl | ⟨rfl, hlog⟩
      · omega
      · have := hnil.1 hlog
        omega
    · rw [misplaced_iff hp ho]
      rcases hend with rfl | ⟨rfl, hlog⟩
      · omega
      · exact fun h => h.2 hlog
  · exact .delivered hp ho hread
  · exact .reset hp ho (p.readOne_eq_error_iff.1 hread).2.1

theorem round_pollRound (hr : s.broker.Running) {idx : Nat} {position : Option Int}
    (he : s.state.pollEntry idx = some (key, position, false)) : Round c s key idx (c.pollRound s idx) := by
  obtain rfl := (ConsumerState.pollEntry_eq_some he).1
  rw [pollRound, he]
  dsimp only
  cases hp : s.broker.backend.partition? key.1 key.2 with
  | none =>
    rw [Broker.run_fetchOneFromPosition_of_none hr hp]
    cases hst : s.broker.start? 0 key.1 key.2 (s.state.position.lookup key) c.groupId with
    | none => exact .overflowed (Broker.start?_eq_none_iff.1 hst)
    | some o => exact round_missing hp (not_overflows hst) idx
  | some p =>
    rw [Broker.run_fetchOneFromPosition hr hp]
    cases hst : s.broker.start? p.watermarks.1 key.1 key.2 (s.state.position.lookup key) c.groupId with
    | none => exact .overflowed (Broker.start?_eq_none_iff.1 hst)
    | some o =>
      apply round_existing hp hst idx
      simp only [Option.elim_some]
      cases hread : p.readOne o with
      | ok r => exact Or.inl ⟨r, rfl, rfl⟩
      | error e => exact Or.inr ⟨e, rfl, rfl⟩

/-- What a round on a partition that is not paused does: it ends the poll, changes nothing that matters, or moves the
position of a misplaced partition to the oldest message. -/
private inductive RoundFor (c : BaseConsumer) (s : Session π) (key : String × Int) :
    Outcome RmqError (Option StoredMessage) × Session π ⊕ Session π → Prop
  | ended {o : Outcome RmqError (Option StoredMessage)} {s' : Session π} (h : c.Ready s key ∨ c.Overflows s key)
    (ho : o ≠ .ok none) : RoundFor c s key (.inl (o, s'))
  | stayed (hr : ¬c.Ready s key) (ho : ¬c.Overflows s key) (hm : ¬c.Misplaced s key) : RoundFor c s key (.inr s)
  | emptied {o : Int} (hr : ¬c.Ready s key) (ho : ¬c.Overflows s key) (hm : ¬c.Misplaced s key)
    (hr' : ¬c.Ready (moved s key o) key) (hm' : ¬c.Misplaced (moved s key o) key) :
    RoundFor c s key (.inr (moved s key o))
  | reset {o : Int} (hr : ¬c.Ready s key) (ho : ¬c.Overflows s key) (hm : c.Misplaced s key)
    (hr' : c.Ready (moved s key o) key) : RoundFor c s key (.inr (moved s key o))

/-- A round on an existing partition that is read outside its log. -/
private theorem roundFor_reset {p : Partition} {o : Int} (hp : s.broker.backend.partition? key.1 key.2 = some p)
    (ho : c.point? s key p = some o) (hout : o < p.abs.dropped ∨ p.abs.next < o) :
    RoundFor c s key (.inr (moved s key p.watermarks.1)) := by
  have hover : ¬c.Overflows s key := not_overflows ho
  have hnil := p.abs.retained_eq_nil_iff
  have hle := p.abs.dropped_le_next
  have hw := congrArg Prod.fst p.watermarks_eq
  rw [p.abs_retained] at hnil hw
  have hnr : ¬c.Ready s key := by
    rw [ready_iff hp ho]
    omega
  -- where the consumer reads next after the round
  have hpm : (moved s key p.watermarks.1).broker.backend.partition? key.1 key.2 = some p := hp
  have hready := ready_iff hpm (point?_moved (c := c) p.watermarks.1 p)
  have hmis := misplaced_iff hpm (point?_moved (c := c) p.watermarks.1 p)
  by_cases hlog : p.buffer.log = []
  · have := hnil.1 hlog
    rw [if_pos hlog] at hw
    refine .emptied hnr hover ?_ ?_ fun h => (hmis.1 h).2 hlog
    · rw [misplaced_iff hp ho]
      exact fun h => h.2 hlog
    · rw [hready]
      omega
  · have := hnil.not.1 hlog
    rw [if_neg hlog] at hw
    refine .reset hnr hover ((misplaced_iff hp ho).2 ⟨hout, hlog⟩) ?_
    rw [hready]
    dsimp only at hw
    omega

private theorem roundFor_pollRound (hr : s.broker.Running) {idx : Nat} {position : Option Int}
    (he : s.state.pollEntry idx = some (key, position, false)) : RoundFor c s key (c.pollRound s idx) := by
  have hround := round_pollRound (c := c) hr he
  generalize c.pollRound s idx = r at hround
  cases hround with
  | overflowed h => exact .ended (Or.inr h) (by simp)
  | delivered hp ho hm => exact .ended (Or.inl (ready_of_readOne hp ho hm)) (by simp)
  | stayed hr ho hm => exact .stayed hr ho hm
  | reset hp ho hout => exact roundFor_reset hp ho hout

/-! ### The whole pass -/

/-- Nothing ends a pass over the partitions: none is ready, and the misplaced ones come once. -/
def Idle (c : BaseConsumer) (s : Session π) (keys : List (String × Int)) : Prop :=
  ∀ key ∈ keys, key ∉ s.state.paused →
    ¬c.Ready s key ∧ ¬c.Overflows s key ∧ (c.Misplaced s key → keys.count key ≤ 1)

private theorem idle_congr {s' : Session π} {keys : List (String × Int)} (hp : s'.state.paused = s.state.paused)
    (h : ∀ k ∈ keys, k ∉ s.state.paused → SameAt c s s' k) : c.Idle s' keys ↔ c.Idle s keys := by
  simp only [Idle, hp]
  refine forall_congr' fun k => forall_congr' fun hk => forall_congr' fun hpk => ?_
  obtain ⟨h₁, h₂, h₃⟩ := h k hk hpk
  rw [h₁, h₂, h₃]

private theorem idle_moved {keys : List (String × Int)} (h : key ∉ keys) (o : Int) :
    c.Idle (moved s key o) keys ↔ c.Idle s keys := by
  have hsame : ∀ k ∈ keys, k ∉ s.state.paused → SameAt c s (moved s key o) k := by
    intro k hk _
    refine sameAt_moved ?_ o
    rintro rfl
    exact h hk
  exact idle_congr (s := s) rfl hsame

/-- An entry that is paused, or neither ready nor misplaced. -/
private theorem idle_cons {keys : List (String × Int)}
    (h : key ∉ s.state.paused → ¬c.Ready s key ∧ ¬c.Overflows s key ∧ ¬c.Misplaced s key) :
    c.Idle s (key :: keys) ↔ c.Idle s keys := by
  have hcount : ∀ k, k ∉ s.state.paused → c.Misplaced s k → (key :: keys).count k = keys.count k := by
    intro k hk hm
    refine List.count_cons_of_ne fun hkk => ?_
    subst hkk
    exact (h hk).2.2 hm
  constructor
  · intro hidle k hk hp
    obtain ⟨hr, ho, hm⟩ := hidle k (List.mem_cons_of_mem _ hk) hp
    exact ⟨hr, ho, fun hmk => hcount k hp hmk ▸ hm hmk⟩
  · intro hidle k hk hp
    rcases List.mem_cons.1 hk with rfl | hk
    · obtain ⟨hr, ho, hm⟩ := h hp
      exact ⟨hr, ho, fun hmk => absurd hmk hm⟩
    · obtain ⟨hr, ho, hm⟩ := hidle k hk hp
      exact ⟨hr, ho, fun hmk => (hcount k hp hmk).symm ▸ hm hmk⟩

/-- A misplaced entry. -/
private theorem idle_cons_misplaced {keys : List (String × Int)} {o : Int} (hp : key ∉ s.state.paused)
    (hr : ¬c.Ready s key) (ho : ¬c.Overflows s key) (hm : c.Misplaced s key) (hready : c.Ready (moved s key o) key) :
    c.Idle s (key :: keys) ↔ c.Idle (moved s key o) keys := by
  constructor
  · intro hidle
    have hnot : key ∉ keys := by
      have hcount := (hidle key (List.mem_cons_self ..) hp).2.2 hm
      rw [List.count_cons_self] at hcount
      exact List.count_eq_zero.1 (by omega)
    refine (idle_moved hnot o).2 fun k hk hpk => ?_
    have hne : k ≠ key := fun h => hnot (by rwa [← h])
    obtain ⟨hr', ho', hm'⟩ := hidle k (List.mem_cons_of_mem _ hk) hpk
    refine ⟨hr', ho', fun hmk => ?_⟩
    have := hm' hmk
    rwa [List.count_cons_of_ne hne.symm] at this
  · intro hidle
    have hnot : key ∉ keys := fun hk => (hidle key hk hp).1 hready
    have hidle' := (idle_moved hnot o).1 hidle
    intro k hk hpk
    rcases List.mem_cons.1 hk with rfl | hk
    · refine ⟨hr, ho, fun _ => ?_⟩
      rw [List.count_cons_self, List.count_eq_zero.2 hnot]
    · have hne : k ≠ key := fun h => hnot (by rwa [← h])
      rw [List.count_cons_of_ne hne.symm]
      exact hidle' k hk hpk

/-- The run lemma: the pass over the entries `es` returns `None` if and only if nothing ends it. -/
private theorem pollFrom_eq_none_iff {start len : Nat} {l : List Nat} {es : List TopicPartitionElem}
    (hr : s.broker.Running)
    (hl : List.Forall₂ (fun i e => s.state.assignedPartitions.elements[(start + i) % len]? = some e) l es) :
    ((c.pollFrom start len l).run s).1 = .ok none ↔ c.Idle s (es.map (·.key)) := by
  -- on the entries that are left; one of them may move the position of its partition
  induction l generalizing s es with
  | nil =>
    cases hl
    simp [run_pollFrom_nil, Idle]
  | cons i l ih =>
    cases hl with
    | cons he hl =>
      rename_i e es
      rw [run_pollFrom_cons, List.map_cons]
      by_cases hp : e.key ∈ s.state.paused
      · rw [c.pollRound_of_paused he hp, idle_cons fun h => absurd hp h]
        exact ih hr hl
      · have hentry := ConsumerState.pollEntry_of_getElem? he
        rw [decide_eq_false hp] at hentry
        have hround := roundFor_pollRound (c := c) hr hentry
        generalize c.pollRound s ((start + i) % len) = r at hround
        cases hround with
        | ended hready ho =>
          refine iff_of_false ho fun hidle => ?_
          obtain ⟨h₁, h₂, -⟩ := hidle e.key (List.mem_cons_self ..) hp
          exact hready.elim h₁ h₂
        | stayed hnr hno hnm =>
          rw [idle_cons fun _ => ⟨hnr, hno, hnm⟩]
          exact ih hr hl
        -- the reset lands at the end of the log: the partition stays idle
        | @emptied o hnr hno hnm hnr' hnm' =>
          rw [idle_cons fun _ => ⟨hnr, hno, hnm⟩]
          refine (ih (s := moved s e.key o) hr hl).trans (idle_congr rfl fun k _ _ => ?_)
          by_cases hk : k = e.key
          · subst hk
            exact ⟨iff_of_false hnr' hnr, iff_of_false (not_overflows_moved o) hno, iff_of_false hnm' hnm⟩
          · exact sameAt_moved hk o
        -- the reset makes the partition ready, but the pass goes on to the next entry
        | @reset o hnr hno hm hready =>
          rw [idle_cons_misplaced hp hnr hno hm hready]
          exact ih (s := moved s e.key o) hr hl

/-- A poll returns `None` if and only if nothing ends its pass. -/
theorem pollOnce_eq_none_iff (hr : s.broker.Running) :
    (c.pollOnce.run s).1 = .ok none ↔ c.Idle s s.state.assignedPartitions.keys := by
  have hbounds : s.state.pollBounds.2 = s.state.assignedPartitions.elements.length := rfl
  have hkeys : s.state.assignedPartitions.keys = s.state.assignedPartitions.elements.map (·.key) := rfl
  rw [run_pollOnce, hbounds, hkeys]
  split
  · rename_i h
    rw [List.length_eq_zero_iff] at h
    simp [h, Idle]
  · rw [pollFrom_eq_none_iff hr (forall₂_rotate _ s.state.pollBounds.1)]
    have hperm := (List.rotate_perm s.state.assignedPartitions.elements s.state.pollBounds.1).map (·.key)
    simp only [Idle, hperm.mem_iff, hperm.count_eq]

/-- A poll of a broker that is shut down ends at the first entry that is not paused, and changes nothing. -/
theorem pollRound_of_not_running (hr : ¬s.broker.Running) {idx : Nat} {position : Option Int}
    (he : s.state.pollEntry idx = some (key, position, false)) :
    ∃ o, o ≠ .ok none ∧ c.pollRound s idx = .inl (o, s) := by
  rw [pollRound, he]
  dsimp only
  rcases Broker.run_fetchOneFromPosition_of_not_running hr key.1 key.2 position c.groupId with ⟨-, hf⟩ | ⟨-, hf⟩
  · exact ⟨.err .brokerShutdown, by simp, by rw [hf]; rfl⟩
  · exact ⟨.panic, by simp, by rw [hf]; rfl⟩

/-- The consumer only polls a running broker without an error. -/
theorem running_of_pollOnce_none (h : (c.pollOnce.run s).1 = .ok none) (hkey : ∃ key, Polls s key) :
    s.broker.Running := by
  by_contra hr
  -- a pass that returns `None` has met paused entries only
  have hpass : ∀ {start len : Nat} {l : List Nat} {es : List TopicPartitionElem},
      List.Forall₂ (fun i e => s.state.assignedPartitions.elements[(start + i) % len]? = some e) l es →
      ((c.pollFrom start len l).run s).1 = .ok none → ∀ e ∈ es, e.key ∈ s.state.paused := by
    intro start len l es hl hnone
    induction hl with
    | nil => simp
    | @cons i e l es he hl ih =>
      rw [run_pollFrom_cons] at hnone
      by_cases hp : e.key ∈ s.state.paused
      · rw [c.pollRound_of_paused he hp] at hnone
        exact List.forall_mem_cons.2 ⟨hp, ih hnone⟩
      · have hentry := ConsumerState.pollEntry_of_getElem? he
        rw [decide_eq_false hp] at hentry
        obtain ⟨o, ho, hround⟩ := pollRound_of_not_running (c := c) hr hentry
        rw [hround] at hnone
        exact absurd hnone ho
  obtain ⟨key, hk, hp⟩ := hkey
  obtain ⟨e, he, rfl⟩ := List.mem_map.1 hk
  have hlen : s.state.pollBounds.2 = s.state.assignedPartitions.elements.length := rfl
  rw [run_pollOnce, hlen, if_neg (List.length_pos_of_mem he).ne'] at h
  exact hp (hpass (forall₂_rotate _ s.state.pollBounds.1) h e (List.mem_rotate.2 he))

/-- A consumer that polls no partition finds nothing, on any broker. -/
theorem pollOnce_of_not_polls (h : ∀ key, ¬Polls s key) : c.pollOnce.run s = (.ok none, s) := by
  have hround : ∀ idx, c.pollRound s idx = .inr s := by
    intro idx
    cases he : s.state.assignedPartitions.elements[idx]? with
    | none =>
      rw [pollRound, ConsumerState.pollEntry, he]
      rfl
    | some e =>
      apply c.pollRound_of_paused he
      by_contra hp
      exact h e.key ⟨List.mem_map.2 ⟨e, List.mem_of_getElem? he, rfl⟩, hp⟩
  have hpass : ∀ (start len : Nat) (l : List Nat), (c.pollFrom start len l).run s = (.ok none, s) := by
    intro start len l
    induction l with
    | nil => rfl
    | cons i l ih =>
      rw [run_pollFrom_cons, hround]
      exact ih
  rw [run_pollOnce]
  split
  · rfl
  · exact hpass _ _ _

/-! ### What a poll that returns `None` leaves -/

/-- The sessions differ in positions only, and what is pending now has been pending before. -/
structure Passed (c : BaseConsumer) (s s' : Session π) : Prop where
  broker : s'.broker = s.broker
  subscribed : s'.state.subscribedTopics = s.state.subscribedTopics
  assigned : s'.state.assignedPartitions = s.state.assignedPartitions
  paused : s'.state.paused = s.state.paused
  pending : ∀ key, c.Pending s' key → c.Pending s key

private theorem Passed.refl (s : Session π) : c.Passed s s := ⟨rfl, rfl, rfl, rfl, fun _ => id⟩

private theorem Passed.trans {s₁ s₂ s₃ : Session π} (h₁ : c.Passed s₁ s₂) (h₂ : c.Passed s₂ s₃) : c.Passed s₁ s₃ :=
  ⟨h₂.broker.trans h₁.broker, h₂.subscribed.trans h₁.subscribed, h₂.assigned.trans h₁.assigned,
    h₂.paused.trans h₁.paused, fun key h => h₁.pending key (h₂.pending key h)⟩

private theorem passed_moved {o : Int} (h : c.Pending (moved s key o) key → c.Pending s key) :
    c.Passed s (moved s key o) := by
  refine ⟨rfl, rfl, rfl, rfl, fun k hk => ?_⟩
  by_cases hkk : k = key
  · subst hkk
    exact h hk
  · obtain ⟨hr, -, hm⟩ := sameAt_moved (c := c) (s := s) hkk o
    rwa [pending_iff, hr, hm, ← pending_iff] at hk

private theorem ne_none_of_pollRound {idx : Nat} {o : Outcome RmqError (Option StoredMessage)} {s' : Session π}
    (h : c.pollRound s idx = .inl (o, s')) : o ≠ .ok none := by
  have hround := roundOn_pollRound c s idx
  rw [h] at hround
  cases hround with
  | returned => simp
  | failed ho => exact ho none

private theorem passed_of_pollRound {s' : Session π} {idx : Nat} (h : c.pollRound s idx = .inr s') : c.Passed s s' := by
  have hround := roundOn_pollRound c s idx
  rw [h] at hround
  cases hround with
  | passed => exact .refl s
  | moved he hf =>
    obtain ⟨rfl, -⟩ := ConsumerState.pollEntry_eq_some he
    obtain ⟨-, p, o, hp, rfl, hst, hout⟩ := Broker.fetch_eq_outOfRange hf
    -- the partition has been misplaced
    refine passed_moved fun hpending => pending_iff.2 (Or.inr ⟨p, o, hp, hst, hout, ?_⟩)
    obtain ⟨p', -, hp', -, m, hm, -⟩ := hpending
    obtain rfl := Option.some.inj (hp.symm.trans hp')
    exact List.ne_nil_of_mem hm

/-- A poll that returns `None` has changed positions only, and has made nothing pending. -/
theorem passed_of_pollOnce (h : (c.pollOnce.run s).1 = .ok none) : c.Passed s (c.pollOnce.run s).2 := by
  have hpass : ∀ (start len : Nat) (l : List Nat) (t : Session π), ((c.pollFrom start len l).run t).1 = .ok none →
      c.Passed t ((c.pollFrom start len l).run t).2 := by
    intro start len l
    induction l with
    | nil => exact fun t _ => .refl t
    | cons i l ih =>
      intro t hnone
      rw [run_pollFrom_cons] at hnone ⊢
      rcases hround : c.pollRound t ((start + i) % len) with ⟨o, t'⟩ | t'
      · rw [hround] at hnone
        exact absurd hnone (ne_none_of_pollRound hround)
      · rw [hround] at hnone
        exact (passed_of_pollRound hround).trans (ih t' hnone)
  rw [run_pollOnce] at h ⊢
  split
  · exact .refl s
  · rename_i hlen
    rw [if_neg hlen] at h
    exact hpass _ _ _ s h

end BaseConsumer

open BaseConsumer

/-- On a running broker a poll that returns `None` has left nothing to deliver if and only if no polled partition is
misplaced, or the pass ends otherwise: some partition is ready, a start overflows, or a misplaced one is listed
twice. -/
theorem poll_delivers {π : Type} (c : BaseConsumer) {s : Session π} (hr : s.broker.Running) :
    ((c.pollOnce.run s).1 = .ok none → ∀ key, Polls s key → ¬c.Pending s key) ↔
      ((∃ key, Polls s key ∧ c.Misplaced s key) → ∃ key, Polls s key ∧ (c.Ready s key ∨ c.Overflows s key ∨
        c.Misplaced s key ∧ 2 ≤ s.state.assignedPartitions.keys.count key)) := by
  rw [pollOnce_eq_none_iff hr]
  constructor
  · rintro hnone ⟨key, hpolls, hm⟩
    by_contra hcon
    refine hnone (fun k hk hp => ⟨fun h => ?_, fun h => ?_, fun h => ?_⟩) key hpolls (pending_iff.2 (Or.inr hm))
    · exact hcon ⟨k, ⟨hk, hp⟩, Or.inl h⟩
    · exact hcon ⟨k, ⟨hk, hp⟩, Or.inr (Or.inl h)⟩
    · by_contra hcount
      exact hcon ⟨k, ⟨hk, hp⟩, Or.inr (Or.inr ⟨h, by omega⟩)⟩
  · intro hcond hidle key hpolls hpending
    rcases pending_iff.1 hpending with h | h
    · exact (hidle key hpolls.1 hpolls.2).1 h
    · obtain ⟨k, hk, h | h | ⟨h, hcount⟩⟩ := hcond ⟨key, hpolls, h⟩
      · exact (hidle k hk.1 hk.2).1 h
      · exact (hidle k hk.1 hk.2).2.1 h
      · have := (hidle k hk.1 hk.2).2.2 h
        omega

/-- A consumer of the only partition of the topic `t`, which holds one message. -/
def oneMessage (b : Broker RoundRobinPartitioner) : Session RoundRobinPartitioner :=
  (BaseConsumer.assign ⟨[⟨"t", 0, .stored⟩]⟩).run
    ⟨((Broker.produce "t" (some 0) (.raw none none) none none ⟨7, 0, fun _ => 0⟩).run b).2, .new⟩ |>.2

/-- The consumer has no position: a poll that returned `None` would have left nothing. -/
theorem poll_delivers_first : ∃ b : Broker RoundRobinPartitioner,
    Broker.new (RmqClientConfig.new.set ConfigKeys.brokerId "b") = .ok b ∧
    let c : BaseConsumer := ⟨none, "m"⟩
    ((c.pollOnce.run (oneMessage b)).1 = .ok none → ∀ key, Polls (oneMessage b) key → ¬c.Pending (oneMessage b) key) := by
  refine ⟨_, rfl, (poll_delivers ⟨none, "m"⟩ ⟨rfl, rfl⟩).2 ?_⟩
  rintro ⟨key, ⟨hkey, -⟩, p, o, hp, ho, hout, -⟩
  obtain rfl : key = ("t", 0) := List.mem_singleton.1 hkey
  obtain rfl := Option.some.inj hp
  obtain rfl := Option.some.inj ho
  exact absurd hout (by decide +kernel)

/-- The consumer seeks beyond the end: the next poll returns `None` although the partition has a message for it. -/
theorem poll_misses_misplaced : ∃ b : Broker RoundRobinPartitioner,
    Broker.new (RmqClientConfig.new.set ConfigKeys.brokerId "b") = .ok b ∧
    let c : BaseConsumer := ⟨none, "m"⟩
    let s := ((c.seek "t" 0 (.offset 9999)).run (oneMessage b)).2
    (c.pollOnce.run s).1 = .ok none ∧ Polls s ("t", 0) ∧ c.Pending s ("t", 0) := by
  refine ⟨_, rfl, by decide +kernel, ⟨by decide +kernel, by decide +kernel⟩, ?_⟩
  refine pending_iff.2 (Or.inr ⟨_, 9999, rfl, rfl, ?_, ?_⟩) <;> decide +kernel

end RMemQueue
