import RMemQueue.Commits
import RMemQueue.PollOnce
import RMemQueue.ResumePoint

/-!
# Offsets that a caller passes in (`base_consumer.rs`, `broker.rs`, `partition.rs`)

`seek`, `store_offset` and `commit` take any `i64`, and the arithmetic comes later: `newest + 1 - tail` in the seek,
`committed + 1` in a fetch and `offset - oldest` in `read_one`.  The last one is always in range
(`Partition.readOneChecked_eq`).  The other two go wrong for a negative tail, whose place is past the end of the log or
not an `i64` at all, and for a commit of `i64::MAX`.

* `caller_offsets_sound_iff`: in any run the offsets are handled soundly if and only if no such value is passed in.
-/

namespace RMemQueue

open Conc WriteLog

variable {π : Type}

namespace Op

/-- The offsets that the operation is given are `i64`s. -/
def Int64 (ids : Nat → BaseConsumer) (op : Op) : Prop :=
  (∀ e ∈ op.writes ids, i64Min ≤ e.2 ∧ e.2 ≤ i64Max) ∧
    ∀ i topic partition tail, op = .consumer i (.seek topic partition (.offsetTail tail)) →
      i64Min ≤ tail ∧ tail ≤ i64Max

end Op

/-! ### Seeks -/

namespace Broker

variable {b : Broker π}

/-- The watermarks are those of an existing partition of a backend that has not been shut down. -/
theorem run_watermarks_cases (b : Broker π) (topic : String) (partition : Int) :
    (∃ p, b.backend.shutdown = false ∧ b.backend.partition? topic partition = some p ∧
        (watermarks topic partition).run b = (.ok p.watermarks, b)) ∨
      (b.backend.shutdown = true ∨ b.backend.partition? topic partition = none) ∧
        ∃ e, (watermarks topic partition).run b = (.err e, b) := by
  cases hs : b.backend.shutdown with
  | true =>
    refine Or.inr ⟨Or.inl rfl, .brokerShutdown, ?_⟩
    rw [watermarks, run_onBackend, InMemoryBackend.watermarks, Act.run_bind]
    simp [InMemoryBackend.checkShutdown, hs]
  | false =>
    have hrun := InMemoryBackend.run_watermarks hs topic partition
    cases hp : b.backend.partition? topic partition with
    | none =>
      refine Or.inr ⟨Or.inr rfl, b.backend.missing topic partition, ?_⟩
      rw [watermarks, run_onBackend, hrun, hp]
      rfl
    | some p =>
      refine Or.inl ⟨p, rfl, rfl, ?_⟩
      rw [watermarks, run_onBackend, hrun, hp]
      rfl

end Broker

namespace BaseConsumer

variable {c : BaseConsumer} {s : Session π} {topic : String} {partition : Int}

/-- A seek stores the place that it has found. -/
private theorem run_seek_eq (offset : Offset) : (c.seek topic partition offset).run s =
    ((c.seekTarget topic partition offset).run s).1.andThen s fun target _ =>
      (.ok (), moved s (topic, partition) target) := by
  rw [seek, Act.run_bind]
  have hkeep := (c.readOnly_seekTarget topic partition offset).run s
  generalize (c.seekTarget topic partition offset).run s = r at hkeep
  obtain ⟨o, s'⟩ := r
  obtain rfl : s' = s := hkeep
  rfl

/-- The arithmetic of a seek to the tail. -/
private theorem run_seek_tail {p : Partition}
    (hw : (Broker.watermarks topic partition).run s.broker = (.ok p.watermarks, s.broker)) (tail : Int) :
    (c.seek topic partition (.offsetTail tail)).run s =
      match i64Checked (p.buffer.nextOffset - tail) with
      | some o => (.ok (), moved s (topic, partition) (max o 0))
      | none => (.panic, s) := by
  rw [run_seek_eq, seekTarget, Act.run_bind, Session.run_onBroker, hw, Outcome.andThen_ok]
  dsimp only [Partition.watermarks]
  rw [Int.sub_add_cancel]
  cases i64Checked (p.buffer.nextOffset - tail) <;> rfl

/-- Only a seek to the tail has arithmetic. -/
private theorem seek_ne_panic {offset : Offset} (h : ∀ tail, offset ≠ .offsetTail tail) :
    ((c.seek topic partition offset).run s).1 ≠ .panic := by
  have hfound : ((c.seekTarget topic partition offset).run s).1 ≠ .panic →
      ((c.seek topic partition offset).run s).1 ≠ .panic := by
    rw [run_seek_eq]
    cases ((c.seekTarget topic partition offset).run s).1 <;> simp
  apply hfound
  cases offset with
  | offset o => simp [seekTarget]
  | offsetTail tail => exact absurd rfl (h tail)
  | stored =>
    rw [seekTarget]
    cases c.groupId with
    | none => simp
    | some gid =>
      dsimp only
      rw [Act.run_bind, Session.run_onBroker]
      by_cases hg : s.broker.Commits gid
      · rw [Broker.run_committedOffset hg]
        simp
      · obtain ⟨e, he⟩ := Broker.run_requireGroup_of_not hg fun _ => .read fun b =>
          .ok (b.offsetStore.lookup (gid, topic, partition))
        rw [Broker.committedOffset, he]
        simp
  | _ =>
    rw [seekTarget, Act.run_bind, Session.run_onBroker]
    rcases s.broker.run_watermarks_cases topic partition with ⟨p, -, -, hw⟩ | ⟨-, e, hw⟩
    · rw [hw]
      simp
    · rw [hw]
      simp

end BaseConsumer

/-! ### One operation -/

namespace World

variable [Partitioner π] (ids : Nat → BaseConsumer)

/-- The offsets are handled soundly by the operation and by any fetch after it: nothing overflows, and a seek to the
tail of a partition moves the position to a place of the partition. -/
structure Sound (w : World π) (op : Op) : Prop where
  seek : ∀ i topic partition offset, op = .consumer i (.seek topic partition offset) →
    ((op.body ids).run w).1 ≠ .panic
  tail : ∀ i topic partition tail, op = .consumer i (.seek topic partition (.offsetTail tail)) →
    ((op.body ids).run w).1 = .ok .unit →
      ∃ p o, w.broker.backend.partition? topic partition = some p ∧
        ((w.after ids [op]).consumers i).position.lookup (topic, partition) = some o ∧
        0 ≤ o ∧ o ≤ p.buffer.nextOffset
  fetch : ∀ topic partition position groupId,
    ((Broker.fetchOneFromPosition topic partition position groupId).run (w.after ids [op]).broker).1 ≠ .panic
  read : ∀ topic partition p, (w.after ids [op]).broker.backend.partition? topic partition = some p →
    ∀ o, p.readOneChecked o ≠ none

/-- A seek to the tail of an existing partition does not ask for a negative number of messages, and a commit that goes
through does not leave `i64::MAX` as the offset of a partition. -/
structure Proper (w : World π) (op : Op) : Prop where
  tail : ∀ i topic partition tail, op = .consumer i (.seek topic partition (.offsetTail tail)) →
    w.broker.backend.shutdown = false → w.broker.backend.partition? topic partition ≠ none → 0 ≤ tail
  commit : ∀ i request gid, op = .consumer i request → (ids i).groupId = some gid → w.broker.Commits gid →
    ∀ key, latest (request.writes (ids i)) key ≠ some i64Max

/-- Every offset of the store has a successor. -/
def Storable (w : World π) : Prop :=
  ∀ key v, w.broker.offsetStore.lookup key = some v → i64Min ≤ v ∧ v < i64Max

variable {ids} {w : World π} {op : Op}

/-- The store after an operation. -/
private theorem lookup_after (w : World π) (op : Op) (key : String × String × Int) :
    (w.after ids [op]).broker.offsetStore.lookup key =
      (latest (op.committed ids w) key).or (w.broker.offsetStore.lookup key) := by
  rw [show (w.after ids [op]).broker.offsetStore = _ from offsetStore_run w op, lookup_writeAll]

private theorem storable_step (h64 : op.Int64 ids) (hp : Proper ids w op) (hw : Storable w) :
    Storable (w.after ids [op]) := by
  intro key v hv
  rw [lookup_after] at hv
  cases hl : latest (op.committed ids w) key with
  | none =>
    rw [hl, Option.none_or] at hv
    exact hw key v hv
  | some v' =>
    rw [hl] at hv
    obtain rfl : v' = v := Option.some.inj hv
    obtain ⟨i, request, rfl, hi, hg, heq⟩ := Op.exists_of_mem_committed (mem_of_latest hl)
    rw [heq] at hl
    have hrange := h64.1 _ (mem_of_latest hl)
    have hne : v' ≠ i64Max := fun h => hp.commit i request _ rfl hi hg key (h ▸ hl)
    exact ⟨hrange.1, by omega⟩

/-- A commit that goes through leaves what was written last. -/
private theorem commits_after {i : Nat} {request : Request} {gid : String} (hi : (ids i).groupId = some gid)
    (hg : w.broker.Commits gid) (hreq : request.Commits) :
    (w.after ids [.consumer i request]).broker.Commits gid := by
  obtain ⟨tpl, hbody, -⟩ := Request.exists_commit (π := π) hreq (ids i)
  have hsession : (w.after ids [.consumer i request]).session i = ((request.body (ids i)).run (w.session i)).2 :=
    session_after w request
  rw [hbody, snd_run_reply, (ids i).run_commit (s := w.session i) hi hg] at hsession
  rw [show (w.after ids [.consumer i request]).broker = _ from congrArg Session.broker hsession]
  exact hg

section Seek

variable {i : Nat} {topic : String} {partition : Int} {offset : Offset}

private theorem fst_run_seek (w : World π) : (((Op.consumer i (.seek topic partition offset)).body ids).run w).1 =
    (((ids i).seek topic partition offset).run (w.session i)).1.map fun _ => .unit := by
  rw [Op.run_consumer, Request.body, run_reply]
  rfl

private theorem consumers_after_seek (w : World π) :
    (w.after ids [.consumer i (.seek topic partition offset)]).consumers i =
      (((ids i).seek topic partition offset).run (w.session i)).2.state := by
  refine (congrArg Session.state (session_after w _)).trans ?_
  rw [Request.body, snd_run_reply]

variable {tail : Int} {p : Partition}

omit [Partitioner π] in
/-- A seek to the tail of an existing partition. -/
private theorem run_tail (hs : w.broker.backend.shutdown = false)
    (hp : w.broker.backend.partition? topic partition = some p) :
    ((ids i).seek topic partition (.offsetTail tail)).run (w.session i) =
      match i64Checked (p.buffer.nextOffset - tail) with
      | some o => (.ok (), BaseConsumer.moved (w.session i) (topic, partition) (max o 0))
      | none => (.panic, w.session i) := by
  rcases w.broker.run_watermarks_cases topic partition with ⟨p', -, hp', hw⟩ | ⟨hnot, -⟩
  · obtain rfl : p' = p := Option.some.inj (hp'.symm.trans hp)
    exact BaseConsumer.run_seek_tail (s := w.session i) hw tail
  · rw [hs, hp] at hnot
    simp at hnot

omit [Partitioner π] in
/-- A seek with a tail that is not negative. -/
private theorem run_tail_cases (h64 : tail ≤ i64Max) (hn : w.broker.backend.shutdown = false →
    w.broker.backend.partition? topic partition ≠ none → 0 ≤ tail) :
    (∃ p, w.broker.backend.partition? topic partition = some p ∧ 0 ≤ tail ∧
        ((ids i).seek topic partition (.offsetTail tail)).run (w.session i) =
          (.ok (), BaseConsumer.moved (w.session i) (topic, partition) (max (p.buffer.nextOffset - tail) 0))) ∨
      ∃ e, (((ids i).seek topic partition (.offsetTail tail)).run (w.session i)).1 = .err e := by
  rcases w.broker.run_watermarks_cases topic partition with ⟨p, hs, hp, -⟩ | ⟨-, e, hw⟩
  · have h0 : 0 ≤ tail := hn hs (by rw [hp]; simp)
    have hmax := p.holds.bound
    have hnext := p.holds.next
    have hchecked : i64Checked (p.buffer.nextOffset - tail) = some (p.buffer.nextOffset - tail) := by
      refine i64Checked_eq_some.2 ⟨rfl, ?_, by omega⟩
      simp only [i64Min, i64Max] at h64 ⊢
      omega
    refine Or.inl ⟨p, hp, h0, ?_⟩
    rw [run_tail hs hp, hchecked]
  · refine Or.inr ⟨e, ?_⟩
    rw [BaseConsumer.run_seek_eq, BaseConsumer.seekTarget, Act.run_bind, Session.run_onBroker]
    rw [show (w.session i).broker = w.broker from rfl, hw]
    rfl

end Seek

/-- In a state whose offsets all have a successor an operation is sound if and only if it is proper. -/
private theorem sound_iff (h64 : op.Int64 ids) (hw : Storable w) : Sound ids w op ↔ Proper ids w op := by
  constructor
  · intro hs
    refine ⟨?_, ?_⟩
    · rintro i topic partition tail rfl hdown hp
      by_contra hneg
      obtain ⟨p, hp⟩ := Option.ne_none_iff_exists'.1 hp
      have hrun : ((ids i).seek topic partition (.offsetTail tail)).run (w.session i) = _ := run_tail hdown hp
      have hok := hs.seek i topic partition _ rfl
      have htail := hs.tail i topic partition tail rfl
      rw [fst_run_seek, hrun] at hok
      rw [fst_run_seek, consumers_after_seek, hrun] at htail
      cases hc : i64Checked (p.buffer.nextOffset - tail) with
      | none =>
        rw [hc] at hok
        exact hok rfl
      | some o =>
        rw [hc] at htail
        obtain ⟨p', o', hp', ho', -, hle⟩ := htail rfl
        obtain rfl : p = p' := Option.some.inj (hp.symm.trans hp')
        have hlookup : (BaseConsumer.moved (w.session i) (topic, partition) (max o 0)).state.position.lookup
            (topic, partition) = some (max o 0) := AList.lookup_insert _
        obtain rfl : max o 0 = o' := Option.some.inj (hlookup.symm.trans ho')
        obtain ⟨rfl, -⟩ := i64Checked_eq_some.1 hc
        omega
    · rintro i request gid rfl hi hg key hl
      have hmem := mem_of_latest hl
      have hreq : request.Commits := by
        by_contra hreq
        rw [Request.writes_of_not_commits hreq] at hmem
        cases hmem
      obtain rfl : gid = key.1 := Option.some.inj (hi.symm.trans (Request.groupId_of_mem_writes hmem))
      have hafter := commits_after hi hg hreq
      refine hs.fetch key.2.1 key.2.2 none (some key.1) (Broker.fetch_eq_panic_iff.2 ⟨hafter.1, rfl, i64Max, ?_, rfl⟩)
      rw [Broker.committed?, Option.bind_some, if_pos hafter.2, lookup_after, Op.committed_eq hi, if_pos hg, hl]
      rfl
  · intro hp
    refine ⟨?_, ?_, fun topic partition position groupId hpanic => ?_, fun topic partition p _ o => ?_⟩
    · rintro i topic partition offset rfl
      rw [fst_run_seek]
      have hne : (((ids i).seek topic partition offset).run (w.session i)).1 ≠ .panic := by
        cases offset with
        | offsetTail tail =>
          rcases run_tail_cases (h64.2 i topic partition tail rfl).2 (hp.tail i topic partition tail rfl) with
            ⟨p, -, -, hrun⟩ | ⟨e, hrun⟩
          · rw [hrun]
            simp
          · rw [hrun]
            simp
        | _ => exact BaseConsumer.seek_ne_panic (by simp)
      cases h : (((ids i).seek topic partition offset).run (w.session i)).1 with
      | panic => exact absurd h hne
      | _ => simp [Outcome.map]
    · rintro i topic partition tail rfl hok
      rw [fst_run_seek] at hok
      rw [consumers_after_seek]
      rcases run_tail_cases (h64.2 i topic partition tail rfl).2 (hp.tail i topic partition tail rfl) with
        ⟨p, hp, h0, hrun⟩ | ⟨e, hrun⟩
      · have hnext := p.holds.next
        rw [hrun]
        exact ⟨p, _, hp, AList.lookup_insert _, by omega, by omega⟩
      · rw [hrun] at hok
        cases hok
    · obtain ⟨-, -, committed, hc, hover⟩ := Broker.fetch_eq_panic_iff.1 hpanic
      obtain ⟨gid, rfl, hlookup⟩ : ∃ gid, groupId = some gid ∧
          (w.after ids [op]).broker.offsetStore.lookup (gid, topic, partition) = some committed := by
        cases groupId with
        | none => cases hc
        | some gid =>
          rw [Broker.committed?, Option.bind_some] at hc
          split at hc
          · exact ⟨gid, rfl, hc⟩
          · cases hc
      have hrange := storable_step h64 hp hw _ _ hlookup
      rw [i64Checked_eq_none] at hover
      omega
    · rw [p.readOneChecked_eq]
      simp

/-- The run lemma. -/
private theorem along_iff {ops : List Op} (h64 : ∀ op ∈ ops, op.Int64 ids) (hw : Storable w) :
    Along ids (Sound ids) w ops ↔ Along ids (Proper ids) w ops := by
  induction ops generalizing w with
  | nil => exact Iff.rfl
  | cons op ops ih =>
    have hop := h64 op List.mem_cons_self
    have hstep : Proper ids w op →
        (Along ids (Sound ids) (w.after ids [op]) ops ↔ Along ids (Proper ids) (w.after ids [op]) ops) :=
      fun hp => ih (fun op' hop' => h64 op' (List.mem_cons_of_mem _ hop')) (storable_step hop hp hw)
    rw [Along, Along, sound_iff hop hw]
    exact and_congr_right hstep

end World

/-! ### Every run -/

open World

/-- **What a caller has to keep to.**  In a run of operations on a new broker no offset that is passed in makes a seek
or a fetch overflow, and no seek to a tail leaves the partition, if and only if no operation seeks to a negative tail of
an existing partition, and none that goes through commits `i64::MAX`. -/
theorem caller_offsets_sound_iff [Partitioner π] {config : RmqClientConfig} {partitioner : π} {b : Broker π}
    (hb : Broker.withPartitioner config partitioner = .ok b) (ids : Nat → BaseConsumer) {ops : List Op}
    (h64 : ∀ op ∈ ops, op.Int64 ids) :
    Along ids (Sound ids) (World.init b) ops ↔ Along ids (Proper ids) (World.init b) ops := by
  have hstore : Storable (World.init b) := by
    obtain ⟨c, -, rfl⟩ := Broker.withPartitioner_eq_ok.1 hb
    intro key v hv
    cases hv
  exact along_iff h64 hstore

/-- A seek to the last message of a partition, and a commit. -/
theorem caller_offsets_sound_last : ∃ b : Broker RoundRobinPartitioner,
    Broker.withPartitioner (RmqClientConfig.new.set ConfigKeys.brokerId "b") .new = .ok b ∧
    let ids : Nat → BaseConsumer := fun _ => ⟨some "g", "m"⟩
    let ops := [sendOne, .consumer 0 (.subscribe default ["t"]), .consumer 0 (.seek "t" 0 (.offsetTail 1)),
      .consumer 0 (.commit ⟨[⟨"t", 0, .offset i64Max⟩, ⟨"t", 0, .offset 0⟩]⟩)]
    (∀ op ∈ ops, op.Int64 ids) ∧
      (Along ids (Sound ids) (World.init b) ops ↔ Along ids (Proper ids) (World.init b) ops) := by
  have hb : Broker.withPartitioner (RmqClientConfig.new.set ConfigKeys.brokerId "b") RoundRobinPartitioner.new =
      .ok _ := rfl
  refine ⟨_, hb, ?_⟩
  intro ids ops
  have h64 : ∀ op ∈ ops, op.Int64 ids := by
    intro op hop
    simp only [ops, List.mem_cons, List.not_mem_nil, or_false] at hop
    rcases hop with rfl | rfl | rfl | rfl
    · exact ⟨by decide, fun _ _ _ _ h => by cases h⟩
    · exact ⟨by decide, fun _ _ _ _ h => by cases h⟩
    · exact ⟨by decide, fun _ _ _ _ h => by cases h; decide⟩
    · exact ⟨by decide, fun _ _ _ _ h => by cases h⟩
  exact ⟨h64, caller_offsets_sound_iff hb ids h64⟩

/-- After a seek one message beyond the end of a partition with one message, the position is 2; after a commit of
`i64::MAX` the next poll of a member panics. -/
theorem caller_offsets_unsound : ∃ b : Broker RoundRobinPartitioner,
    Broker.withPartitioner (RmqClientConfig.new.set ConfigKeys.brokerId "b") .new = .ok b ∧
    let ids : Nat → BaseConsumer := fun _ => ⟨some "g", "m"⟩
    let w := (World.init b).after ids [sendOne, .consumer 0 (.subscribe default ["t"])]
    (((w.after ids [.consumer 0 (.seek "t" 0 (.offsetTail (-1)))]).consumers 0).position.lookup ("t", 0) = some 2 ∧
        (w.broker.backend.partition? "t" 0).map (·.buffer.nextOffset) = some 1) ∧
      (((Op.consumer 0 .pollOnce).body ids).run
        (w.after ids [.consumer 0 (.commit ⟨[⟨"t", 0, .offset i64Max⟩]⟩)])).1 = .panic := by
  refine ⟨_, rfl, ?_⟩
  intro ids w
  refine ⟨⟨?_, ?_⟩, ?_⟩
  · decide +kernel
  · decide +kernel
  · decide +kernel

end RMemQueue
