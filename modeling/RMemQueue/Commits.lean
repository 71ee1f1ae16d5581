import RMemQueue.WorldRun

/-!
# Committed offsets (`base_consumer.rs`, `broker.rs`, `offset_store.rs`)

The consumers of all groups commit to the one store of the broker.  The commit log of a run lists what its successful
commits have written: absolute offsets, each under a group, a topic and a partition.

* `World.offsetStore_after`: the store is the map that the log leaves.
* `committed_last_write`: `committed` lists the assignment of a consumer, each entry with what its group wrote last.
-/

namespace RMemQueue

open Conc WriteLog

variable {π : Type}

/-- What a request writes if it succeeds. -/
def Request.writes (c : BaseConsumer) (request : Request) : List ((String × String × Int) × Int) :=
  match c.groupId with
  | none => []
  | some gid =>
    match request with
    | commit tpl => BaseConsumer.writes gid tpl
    | commitMessage msg => [((gid, msg.topic, msg.partition), msg.offset + 1)]
    | _ => []

/-- Only a commit has anything to write. -/
theorem Request.writes_of_not_commits {c : BaseConsumer} {request : Request} (h : ¬request.Commits) :
    request.writes c = [] := by
  unfold Request.writes
  cases c.groupId with
  | none => rfl
  | some gid => cases request <;> first | rfl | exact absurd trivial h

/-- A consumer writes under its group. -/
theorem Request.groupId_of_mem_writes {c : BaseConsumer} {request : Request} {e : (String × String × Int) × Int}
    (h : e ∈ request.writes c) : c.groupId = some e.1.1 := by
  unfold Request.writes at h
  cases hc : c.groupId with
  | none =>
    rw [hc] at h
    cases h
  | some gid =>
    rw [hc] at h
    cases request with
    | commit tpl =>
      obtain ⟨elem, -, he⟩ := List.mem_flatMap.1 h
      unfold BaseConsumer.elemWrites at he
      split at he
      · rw [List.mem_singleton.1 he]
      · cases he
    | commitMessage msg => rw [List.mem_singleton.1 h]
    | _ => cases h

/-- Each commit is the commit of a list. -/
theorem Request.exists_commit {request : Request} (h : request.Commits) (c : BaseConsumer) :
    ∃ tpl, (request.body c : ConsumerM π Reply) = reply (c.commit tpl) (fun _ => .unit) ∧
      request.writes c = (Request.commit tpl).writes c := by
  cases request with
  | commit tpl => exact ⟨tpl, rfl, rfl⟩
  | commitMessage msg =>
    refine ⟨_, rfl, ?_⟩
    unfold Request.writes
    cases c.groupId <;> rfl
  | _ => cases h

namespace Op

def writes (ids : Nat → BaseConsumer) : Op → List ((String × String × Int) × Int)
  | consumer i request => request.writes (ids i)
  | _ => []

variable [Partitioner π] (ids : Nat → BaseConsumer)

/-- What an operation writes. -/
def committed (w : World π) (op : Op) : List ((String × String × Int) × Int) :=
  match ((op.body ids).run w).1 with
  | .ok _ => op.writes ids
  | _ => []

theorem committed_of_writes {ids : Nat → BaseConsumer} {w : World π} {op : Op} (h : op.writes ids = []) :
    op.committed ids w = [] := by
  rw [committed, h]
  split <;> rfl

/-- A consumer of a group writes if the broker takes commits for the group. -/
theorem committed_eq {ids : Nat → BaseConsumer} {i : Nat} {gid : String} (hi : (ids i).groupId = some gid)
    (w : World π) (request : Request) : (consumer i request).committed ids w =
      if w.broker.Commits gid then request.writes (ids i) else [] := by
  by_cases hcommit : request.Commits
  · obtain ⟨tpl, hbody, hwrites⟩ := Request.exists_commit (π := π) hcommit (ids i)
    have hgroup : (Request.commit tpl).writes (ids i) = BaseConsumer.writes gid tpl := by
      rw [Request.writes, hi]
    rw [committed, run_consumer, hbody, run_reply, writes, hwrites, hgroup]
    by_cases h : w.broker.Commits gid
    · rw [(ids i).run_commit (s := ⟨w.broker, w.consumers i⟩) hi h, if_pos h]
      rfl
    · rw [if_neg h]
      rcases (ids i).run_commit_of_not (s := ⟨w.broker, w.consumers i⟩) hi h tpl with ⟨hnil, hrun⟩ | ⟨e, hrun⟩
      · rw [hrun, hnil]
        rfl
      · rw [hrun]
        rfl
  · have hnil : (consumer i request).writes ids = [] := Request.writes_of_not_commits hcommit
    rw [committed_of_writes hnil, Request.writes_of_not_commits hcommit, ite_self]

/-- What an operation writes is what a request of a consumer is to write. -/
theorem exists_of_mem_committed {ids : Nat → BaseConsumer} {w : World π} {op : Op}
    {e : (String × String × Int) × Int} (h : e ∈ op.committed ids w) :
    ∃ i request, op = .consumer i request ∧ (ids i).groupId = some e.1.1 ∧ w.broker.Commits e.1.1 ∧
      op.committed ids w = request.writes (ids i) := by
  have hmem : e ∈ op.writes ids := by
    unfold committed at h
    split at h
    · exact h
    · cases h
  cases op with
  | consumer i request =>
    have hi := Request.groupId_of_mem_writes hmem
    rw [committed_eq hi] at h
    by_cases hg : w.broker.Commits e.1.1
    · exact ⟨i, request, rfl, hi, hg, by rw [committed_eq hi, if_pos hg]⟩
    · rw [if_neg hg] at h
      cases h
  | _ => cases hmem

end Op

namespace World

variable [Partitioner π] {ids : Nat → BaseConsumer}

/-- The writes of operations that are executed one after the other. -/
def commitLog (ids : Nat → BaseConsumer) : World π → List Op → List ((String × String × Int) × Int)
  | _, [] => []
  | w, op :: ops => op.committed ids w ++ commitLog ids (w.after ids [op]) ops

theorem commitLog_append (w : World π) (ops ops' : List Op) :
    commitLog ids w (ops ++ ops') = commitLog ids w ops ++ commitLog ids (w.after ids ops) ops' := by
  induction ops generalizing w with
  | nil => rfl
  | cons op ops ih =>
    rw [List.cons_append, commitLog, commitLog, ih, List.append_assoc]
    rfl

/-! ### One operation -/

/-- Everything but a commit leaves the store as it is. -/
private theorem offsetStore_of_not_commits (w : World π) {op : Op}
    (h : ∀ i request, op = .consumer i request → ¬request.Commits) :
    ((op.body ids).run w).2.broker.offsetStore = w.broker.offsetStore := by
  by_cases hop : op = .shutdown
  · subst hop
    rfl
  · have hkeep : Broker.Updates InMemoryBackend.Later fun b b' : Broker π => b'.offsetStore = b.offsetStore :=
      { ensureTopic := InMemoryBackend.always_ensureTopic
        produce := InMemoryBackend.always_produce
        refl := fun _ => rfl
        backend := fun _ _ _ => rfl
        partitioner := fun _ _ => rfl
        group := fun _ _ _ => rfl }
    have hbody := Op.always_updates ids hop hkeep fun i request hreq hcommit => absurd hcommit (h i request hreq)
    exact hbody.run (fun _ => rfl) (fun _ _ _ h₁ h₂ => h₂.trans h₁) w

omit [Partitioner π] in
/-- A commit of a group has written the list, or nothing. -/
private theorem offsetStore_of_commit {c : BaseConsumer} {gid : String} (hc : c.groupId = some gid)
    (tpl : TopicPartitionList) (s : Session π) :
    ((c.commit tpl).run s).2.broker.offsetStore =
      writeAll s.broker.offsetStore (if s.broker.Commits gid then BaseConsumer.writes gid tpl else []) := by
  by_cases h : s.broker.Commits gid
  · rw [c.run_commit hc h, if_pos h]
    rfl
  · rw [if_neg h]
    rcases c.run_commit_of_not hc h tpl with ⟨-, hrun⟩ | ⟨e, hrun⟩
    · rw [hrun]
      rfl
    · rw [hrun]
      rfl

/-- The step lemma. -/
theorem offsetStore_run (w : World π) (op : Op) :
    ((op.body ids).run w).2.broker.offsetStore = writeAll w.broker.offsetStore (op.committed ids w) := by
  by_cases hop : ∃ i request, op = .consumer i request ∧ request.Commits
  · obtain ⟨i, request, rfl, hcommit⟩ := hop
    obtain ⟨tpl, hbody, hwrites⟩ := Request.exists_commit (π := π) hcommit (ids i)
    cases hi : (ids i).groupId with
    | none =>
      have hnil : (Op.consumer i request).writes ids = [] := by
        rw [Op.writes, Request.writes, hi]
      rw [Op.committed_of_writes hnil, Op.run_consumer, hbody, run_reply, BaseConsumer.commit, hi]
      rfl
    | some gid =>
      rw [Op.committed_eq hi, Op.run_consumer, hbody, run_reply, hwrites, Request.writes, hi]
      exact offsetStore_of_commit hi tpl ⟨w.broker, w.consumers i⟩
  · have hnot : ∀ i request, op = .consumer i request → ¬request.Commits := by
      rintro i request rfl hcommit
      exact hop ⟨i, request, rfl, hcommit⟩
    have hnil : op.writes ids = [] := by
      cases op with
      | consumer i request => exact Request.writes_of_not_commits (hnot i request rfl)
      | _ => rfl
    rw [offsetStore_of_not_commits w hnot, Op.committed_of_writes hnil]
    rfl

/-- The run lemma: **the store is the map that the log leaves**. -/
theorem offsetStore_after (w : World π) (ops : List Op) :
    (w.after ids ops).broker.offsetStore = writeAll w.broker.offsetStore (commitLog ids w ops) := by
  induction ops generalizing w with
  | nil => rfl
  | cons op ops ih =>
    rw [commitLog, writeAll_append]
    refine (ih (w.after ids [op])).trans ?_
    rw [show (w.after ids [op]).broker.offsetStore = _ from offsetStore_run w op]

/-- What no operation writes is written last where it was before. -/
theorem latest_commitLog_of_not_mem {key : String × String × Int} (w : World π) {ops : List Op}
    (h : ∀ op ∈ ops, key ∉ (op.writes ids).map (·.1)) : latest (commitLog ids w ops) key = none := by
  induction ops generalizing w with
  | nil => rfl
  | cons op ops ih =>
    rw [commitLog, latest_append, ih _ fun op' hop' => h op' (List.mem_cons_of_mem _ hop'), Option.none_or]
    refine latest_eq_none fun e he hkey => h op List.mem_cons_self ?_
    unfold Op.committed at he
    split at he
    · exact List.mem_map.2 ⟨e, he, hkey⟩
    · cases he

end World

/-! ### What is committed -/

open World

/-- **The last commit of a group wins.**  After any operations of producers and of the consumers of any groups, joins
and leaves among them, a consumer whose group exists lists its assignment, each entry with the offset that a member of
the group has committed last there, or `-1`.  It never lists anything else.  Whatever is not written under the group,
the topic and the partition does not change what counts as committed there. -/
theorem committed_last_write [Partitioner π] {config : RmqClientConfig} {partitioner : π} {b : Broker π}
    (hb : Broker.withPartitioner config partitioner = .ok b) (ids : Nat → BaseConsumer) (ops : List Op) (i : Nat)
    {gid : String} (hi : (ids i).groupId = some gid) :
    let w := (World.init b).after ids ops
    let last := fun topic partition => latest (commitLog ids (World.init b) ops) (gid, topic, partition)
    let listed := (w.consumers i).assignedPartitions.elements.map fun elem =>
      (⟨elem.topic, elem.partition, .offset ((last elem.topic elem.partition).getD (-1))⟩ : TopicPartitionElem)
    (w.broker.Commits gid → ((Op.consumer i .committed).body ids).run w = (.ok (.partitions ⟨listed⟩), w)) ∧
      (∀ r, (((Op.consumer i .committed).body ids).run w).1 = .ok r → r = .partitions ⟨listed⟩) ∧
      ∀ topic partition later, (∀ op ∈ later, (gid, topic, partition) ∉ (op.writes ids).map (·.1)) →
        latest (commitLog ids (World.init b) (ops ++ later)) (gid, topic, partition) = last topic partition := by
  intro w last listed
  have hstore : w.broker.offsetStore = writeAll ∅ (commitLog ids (World.init b) ops) := by
    obtain ⟨c, -, rfl⟩ := Broker.withPartitioner_eq_ok.1 hb
    exact offsetStore_after _ ops
  have hlisted : BaseConsumer.committedList ⟨w.broker, w.consumers i⟩ gid = ⟨listed⟩ := by
    refine congrArg TopicPartitionList.mk (List.map_congr_left fun elem _ => ?_)
    rw [show (⟨w.broker, w.consumers i⟩ : Session π).broker.offsetStore = _ from hstore, lookup_writeAll]
    show _ = (⟨elem.topic, elem.partition, .offset ((last elem.topic elem.partition).getD (-1))⟩ : TopicPartitionElem)
    rw [AList.lookup_empty, Option.or_none]
  have hbody : ((Op.consumer i .committed).body ids).run w =
      ((((ids i).committed.run ⟨w.broker, w.consumers i⟩).1.map .partitions), w) := by
    rw [Op.run_consumer, Request.body, run_reply, (ids i).readOnly_committed.run]
    exact congrArg (Prod.mk _) ((sessionLens i).put_get w)
  refine ⟨fun h => ?_, fun r hr => ?_, fun topic partition later h => ?_⟩
  · rw [hbody, (ids i).run_committed hi h, hlisted]
    rfl
  · by_cases h : w.broker.Commits gid
    · rw [hbody, (ids i).run_committed hi h, hlisted] at hr
      exact (Outcome.ok.inj hr).symm
    · rw [hbody] at hr
      rcases (ids i).run_committed_of_not (s := ⟨w.broker, w.consumers i⟩) hi h with ⟨hnil, hrun⟩ | ⟨e, hrun⟩
      · rw [hrun] at hr
        rw [← Outcome.ok.inj hr, show listed = [] from congrArg (List.map _) hnil]
        rfl
      · rw [hrun] at hr
        cases hr
  · rw [commitLog_append, latest_append, latest_commitLog_of_not_mem _ h, Option.none_or]

/-- A commit with a repeated partition, one of another group in between, and a commit of another member. -/
theorem committed_last_write_interleaved : ∃ b : Broker RoundRobinPartitioner,
    Broker.withPartitioner (RmqClientConfig.new.set ConfigKeys.brokerId "b") .new = .ok b ∧
    let ids : Nat → BaseConsumer := fun i => ⟨some (if i = 2 then "h" else "g"), toString i⟩
    let commits := [Op.consumer 0 (.commit ⟨[⟨"t", 0, .offset 3⟩, ⟨"t", 0, .end_⟩, ⟨"t", 0, .offset 4⟩]⟩),
      .consumer 2 (.commit ⟨[⟨"t", 0, .offset 9⟩]⟩), .consumer 1 (.commit ⟨[⟨"t", 1, .offset 5⟩, ⟨"t", 0, .offset 6⟩]⟩)]
    let w := (World.init b).after ids ([0, 1, 2].map (.consumer · (.subscribe default ["t"])) ++
      .consumer 0 (.assign ⟨[⟨"t", 0, .end_⟩, ⟨"t", 7, .end_⟩]⟩) :: commits)
    ((Op.consumer 0 .committed).body ids).run w =
      (.ok (.partitions ⟨[⟨"t", 0, .offset 6⟩, ⟨"t", 7, .offset (-1)⟩]⟩), w) := by
  have hb : Broker.withPartitioner (RmqClientConfig.new.set ConfigKeys.brokerId "b") RoundRobinPartitioner.new =
      .ok _ := rfl
  refine ⟨_, hb, ?_⟩
  intro ids commits w
  refine ((committed_last_write hb ids _ 0 rfl).1 ?_).trans ?_
  · decide +kernel
  · refine congrArg (fun l => (Outcome.ok (Reply.partitions ⟨l⟩), w)) ?_
    decide +kernel

end RMemQueue
