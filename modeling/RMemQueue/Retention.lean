import RMemQueue.PartitionRun

/-!
# Retention (`partition.rs`)

What the eviction passes of a partition remove, over any run of appends and passes.  One operation removes messages
from the front as long as a policy has them removed (`Pass`, `pass_applyOp`).

* `retention_exact`: with a clock that never runs backwards, a pass leaves no message that is too old and no more
  messages than the capacity limit, and it is the only cause for which an unbounded buffer loses a message.
-/

namespace RMemQueue

/-- The message is older than the time limit. -/
def PartitionConfig.Expired (config : PartitionConfig) (now : Nat) (m : StoredMessage) : Prop :=
  ∃ retentionMs, config.retentionMs = some retentionMs ∧ retentionMs < (now - m.createdAt) / 1000000

/-- The `n`-th of `total` messages is not among the last ones that the capacity limit allows. -/
def PartitionConfig.Exceeded (config : PartitionConfig) (n total : Nat) : Prop :=
  ∃ retentionCapacity, config.retentionCapacity = some retentionCapacity ∧ n + retentionCapacity < total

/-- The policies of a configuration have a message removed by its time limit or by its capacity limit. -/
theorem evicts_buildPolicies {config : PartitionConfig} {now bufferLen : Nat} {m : StoredMessage} :
    evicts config.buildPolicies now bufferLen m = true ↔
      (∃ r, config.retentionMs = some r ∧ r < (now - m.createdAt) / 1000000 % (u64Max + 1)) ∨
        ∃ k, config.retentionCapacity = some k ∧ k < bufferLen := by
  rcases config with ⟨-, _ | r, _ | k⟩ <;>
    simp [evicts, PartitionConfig.buildPolicies, EvictionPolicy.shouldEvict]

/-- What a pass removes is too old or beyond the capacity limit. -/
theorem cause_of_evicts {config : PartitionConfig} {now n total : Nat} {m : StoredMessage}
    (h : evicts config.buildPolicies now (total - n) m = true) : config.Expired now m ∨ config.Exceeded n total := by
  rcases evicts_buildPolicies.1 h with ⟨r, hr, hlt⟩ | ⟨k, hk, hlt⟩
  · exact Or.inl ⟨r, hr, lt_of_lt_of_le hlt (Nat.mod_le _ _)⟩
  · exact Or.inr ⟨k, hk, by omega⟩

/-- A message that a pass leaves is not too old, as long as its age fits into a `u64`. -/
theorem not_expired_of_evicts {config : PartitionConfig} {now bufferLen : Nat} {m : StoredMessage}
    (h : evicts config.buildPolicies now bufferLen m = false) (hage : (now - m.createdAt) / 1000000 ≤ u64Max) :
    ¬config.Expired now m := by
  rintro ⟨r, hr, hlt⟩
  rw [← Nat.mod_eq_of_lt (Nat.lt_succ_of_le hage)] at hlt
  have := evicts_buildPolicies.2 (Or.inl ⟨r, hr, hlt⟩ : _ ∨ ∃ k, _ ∧ k < bufferLen)
  rw [h] at this
  cases this

/-- A message created before one that is not too old is not too old. -/
theorem PartitionConfig.Expired.of_le {config : PartitionConfig} {now : Nat} {m m' : StoredMessage}
    (h : config.Expired now m) (hle : m'.createdAt ≤ m.createdAt) : config.Expired now m' := by
  obtain ⟨r, hr, hlt⟩ := h
  exact ⟨r, hr, lt_of_lt_of_le hlt (Nat.div_le_div_right (Nat.sub_le_sub_left hle now))⟩

/-! ### Operations on a partition -/

/-- A call that runs a pass on a partition. -/
inductive PartitionOp where
  | append (call : AppendCall)
  | evict (clock : Nat → Nat)

namespace PartitionOp

/-- The clock of the pass. -/
def clock : PartitionOp → Nat → Nat
  | .append call => call.clock.evict
  | .evict clock => clock

/-- The readings of the monotonic clock, in order, when it stands still during the pass. -/
def readings : PartitionOp → List Nat
  | .append call => [call.clock.created, call.clock.evict 0]
  | .evict clock => [clock 0]

def call? : PartitionOp → Option AppendCall
  | .append call => some call
  | .evict _ => none

theorem clock_mem_readings (op : PartitionOp) : op.clock 0 ∈ op.readings := by
  cases op <;> simp [clock, readings]

end PartitionOp

/-- The appends of a run. -/
def appends (ops : List PartitionOp) : List AppendCall := ops.filterMap PartitionOp.call?

theorem appends_concat_append (ops : List PartitionOp) (call : AppendCall) :
    appends (ops ++ [.append call]) = appends ops ++ [call] := by
  simp [appends, PartitionOp.call?]

theorem appends_concat_evict (ops : List PartitionOp) (clock : Nat → Nat) :
    appends (ops ++ [.evict clock]) = appends ops := by
  simp [appends, PartitionOp.call?]

namespace Partition

def applyOp (p : Partition) : PartitionOp → Option Partition
  | .append call => p.appendCall call
  | .evict clock => some (p.evict clock)

/-- Operations in a row; `none` is a panic. -/
def runOps (p : Partition) (ops : List PartitionOp) : Option Partition := ops.foldlM applyOp p

theorem runOps_concat (p : Partition) (ops : List PartitionOp) (op : PartitionOp) :
    p.runOps (ops ++ [op]) = (p.runOps ops).bind fun q => q.applyOp op := by
  simp only [runOps, List.foldlM_append, List.foldlM_cons, List.foldlM_nil]
  cases List.foldlM applyOp p ops <;> simp

/-- A pass has removed the messages from the `d`-th one on that a policy has removed, up to the first one that stays. -/
structure Pass (clock : Nat → Nat) (d : Nat) (p : Partition) : Prop where
  le : d ≤ p.abs.dropped
  removed : ∀ n m, d ≤ n → n < p.abs.dropped → p.appended[n]? = some m →
    evicts p.buffer.policies (clock (n - d)) (p.appended.length - n) m = true
  kept : ∀ m, p.appended[p.abs.dropped]? = some m →
    evicts p.buffer.policies (clock (p.abs.dropped - d)) p.buffer.log.length m = false

private theorem pass_of_log {p : Partition} {clock : Nat → Nat} {d : Nat} (hd : d ≤ p.appended.length)
    (h : p.buffer.log = evictFront p.buffer.policies clock 0 (p.appended.drop d)) : p.Pass clock d := by
  obtain ⟨n, hn, hdrop, hremoved, hkept⟩ := evictFront_spec p.buffer.policies clock 0 (p.appended.drop d)
  rw [List.length_drop] at hn
  have hlen : p.buffer.log.length = p.appended.length - (d + n) := by
    rw [h, hdrop, List.drop_drop, List.length_drop]
  have hdn : p.abs.dropped = d + n := by
    simp only [Partition.abs, hlen]
    omega
  refine ⟨by omega, fun j m hj hlt hm => ?_, fun m hm => ?_⟩
  · have := hremoved (j - d) m (by omega) (by rwa [List.getElem?_drop, Nat.add_sub_cancel' hj])
    rwa [Nat.zero_add, List.length_drop, Nat.sub_sub, Nat.add_sub_cancel' hj] at this
  · have := hkept m (by rwa [List.getElem?_drop, ← hdn])
    rwa [Nat.zero_add, List.length_drop, Nat.sub_sub, ← hlen, show n = p.abs.dropped - d by omega] at this

/-- What an operation does: it appends its message and runs a pass, before which an append to a bounded buffer may
remove the front message. -/
theorem pass_applyOp {p p' : Partition} {op : PartitionOp} (h : p.applyOp op = some p') :
    ∃ d, p.abs.dropped ≤ d ∧ (p.buffer.maxCapacity = 0 → d = p.abs.dropped) ∧ p'.Pass op.clock d := by
  have hlog : p.buffer.log = p.appended.drop p.abs.dropped := p.holds.log
  have hle : p.abs.dropped ≤ p.appended.length := by simp [Partition.abs]
  cases op with
  | append call =>
    obtain ⟨⟨r, q⟩, ha, rfl⟩ := Option.map_eq_some_iff.1 h
    unfold appendContent at ha
    split at ha
    · cases ha
    · rename_i offset buffer hbuf
      simp only [Option.some.injEq, Prod.mk.injEq] at ha
      obtain ⟨-, rfl⟩ := ha
      -- the pass starts behind the message that a full buffer has lost
      obtain ⟨rfl, -, d, hd1, hd, rfl⟩ := PartitionBuffer.append_pass hbuf
      refine ⟨p.abs.dropped + d, by omega, fun h0 => by rw [hd h0, Nat.add_zero], pass_of_log ?_ ?_⟩
      · simp only [List.length_append, List.length_singleton]
        omega
      · simp only [PartitionBuffer.evictBuffer, PartitionOp.clock]
        rw [hlog, ← List.drop_append_of_le_length hle, List.drop_drop]
  | evict clock =>
    cases h
    refine ⟨p.abs.dropped, le_refl _, fun _ => rfl, pass_of_log hle ?_⟩
    simp only [evict, PartitionBuffer.evictBuffer, PartitionOp.clock]
    rw [← hlog]

theorem appended_applyOp {p p' : Partition} {op : PartitionOp} (h : p.applyOp op = some p') :
    ∃ more, p'.appended = p.appended ++ more := by
  cases op with
  | append call =>
    obtain ⟨⟨r, q⟩, ha, rfl⟩ := Option.map_eq_some_iff.1 h
    obtain ⟨-, -, -, n, habs⟩ := appendContent_eq_some ha
    exact ⟨_, congrArg TrimmedLog.history habs⟩
  | evict clock =>
    cases h
    exact ⟨[], (List.append_nil _).symm⟩

/-! ### Runs -/

variable {config : PartitionConfig} {topic : String} {id : Int} {ops : List PartitionOp} {p p' : Partition}

theorem given_runOps (ops : List PartitionOp) :
    ∀ p, (new topic id config).runOps ops = some p → Given config topic id (appends ops) p := by
  induction ops using List.reverseRecOn with
  | nil =>
    intro p h
    cases h
    exact ⟨rfl, rfl, rfl, rfl, rfl⟩
  | append_singleton ops op ih =>
    intro p h
    rw [runOps_concat, Option.bind_eq_some_iff] at h
    obtain ⟨q, hq, hop⟩ := h
    have hgiven := ih q hq
    cases op with
    | append call =>
      rw [appends_concat_append]
      exact hgiven.appendCall hop
    | evict clock =>
      cases hop
      rw [appends_concat_evict]
      exact ⟨hgiven.policies, hgiven.maxCapacity, hgiven.topicName, hgiven.partitionId, hgiven.appended⟩

/-- The operations only panic when there are too many appends. -/
theorem runOps_eq_none (h : (new topic id config).runOps ops = none) : i64Max < (appends ops).length := by
  induction ops using List.reverseRecOn with
  | nil => cases h
  | append_singleton ops op ih =>
    rw [runOps_concat] at h
    cases hq : (new topic id config).runOps ops with
    | none =>
      have := ih hq
      simp only [appends, List.filterMap_append, List.length_append] at this ⊢
      omega
    | some q =>
      rw [hq, Option.bind_some] at h
      cases op with
      | append call =>
        have := (given_runOps ops q hq).appendCall_eq_none h
        rw [appends_concat_append, List.length_append, List.length_singleton]
        omega
      | evict clock => cases h

/-! ### Retention -/

/-- The pass of a run that removed the `n`-th message, and the limit that it was beyond. -/
def Removed (config : PartitionConfig) (ops : List PartitionOp) (n : Nat) (m : StoredMessage) : Prop :=
  ∃ before op after, ops = before ++ op :: after ∧ n < (appends (before ++ [op])).length ∧
    (config.Expired (op.clock 0) m ∨ config.Exceeded n (appends (before ++ [op])).length)

/-- What the passes of a run leave of its messages. -/
structure Retains (config : PartitionConfig) (ops : List PartitionOp) (messages : List StoredMessage) (p : Partition) :
    Prop where
  suffix : p.buffer.log <:+ messages
  fresh : ∀ op, ops.getLast? = some op → ∀ m ∈ p.buffer.log, ¬config.Expired (op.clock 0) m
  bounded : ∀ retentionCapacity, config.retentionCapacity = some retentionCapacity →
    p.buffer.log.length ≤ retentionCapacity
  cause : config.maxCapacity = 0 → ∀ n m, messages[n]? = some m → n + p.buffer.log.length < messages.length →
    Removed config ops n m

end Partition

/-- The clock of a run never runs backwards and stands still during a pass, and the milliseconds between two of its
readings fit into a `u64`, as they have to in `should_evict`. -/
structure Timed (ops : List PartitionOp) : Prop where
  sorted : (ops.flatMap PartitionOp.readings).Pairwise (· ≤ ·)
  still : ∀ op ∈ ops, ∀ i, op.clock i = op.clock 0
  short : ∀ s ∈ ops.flatMap PartitionOp.readings, ∀ t ∈ ops.flatMap PartitionOp.readings, (t - s) / 1000000 ≤ u64Max

namespace Timed

variable {ops : List PartitionOp} {op : PartitionOp}

theorem of_concat (h : Timed (ops ++ [op])) : Timed ops where
  sorted := by
    have := h.sorted
    rw [List.flatMap_append] at this
    exact (List.pairwise_append.1 this).1
  still := fun op' hop' => h.still op' (List.mem_append_left _ hop')
  short := by
    have := h.short
    rw [List.flatMap_append] at this
    exact fun s hs t ht => this s (List.mem_append_left _ hs) t (List.mem_append_left _ ht)

private theorem created_sublist (ops : List PartitionOp) :
    ((appends ops).map fun c => c.clock.created).Sublist (ops.flatMap PartitionOp.readings) := by
  induction ops with
  | nil => exact List.Sublist.slnil
  | cons op ops ih =>
    rw [List.flatMap_cons]
    cases op with
    | append call => exact (ih.cons (call.clock.evict 0)).cons_cons call.clock.created
    | evict clock => exact ih.cons (clock 0)

private theorem created_messagesOf (topic : String) (id : Int) (calls : List AppendCall) :
    ((messagesOf topic id calls).map fun m => m.createdAt) = calls.map fun c => c.clock.created := by
  refine List.ext_getElem (by simp [messagesOf]) fun n h₁ h₂ => ?_
  simp [messagesOf, AppendCall.message]

/-- The messages were created in the order of their offsets. -/
theorem created_sorted (h : Timed ops) (topic : String) (id : Int) :
    ((messagesOf topic id (appends ops)).map fun m => m.createdAt).Pairwise (· ≤ ·) := by
  rw [created_messagesOf]
  exact h.sorted.sublist (created_sublist ops)

/-- The age of a message at a pass fits into a `u64`. -/
theorem age_lt (h : Timed ops) (hop : op ∈ ops) {topic : String} {id : Int} {m : StoredMessage}
    (hm : m ∈ messagesOf topic id (appends ops)) : (op.clock 0 - m.createdAt) / 1000000 ≤ u64Max := by
  have hcreated := List.mem_map_of_mem (f := fun m : StoredMessage => m.createdAt) hm
  rw [created_messagesOf] at hcreated
  exact h.short _ ((created_sublist ops).mem hcreated) _ (List.mem_flatMap.2 ⟨op, hop, op.clock_mem_readings⟩)

end Timed

namespace Partition

variable {config : PartitionConfig} {topic : String} {id : Int} {ops : List PartitionOp} {op : PartitionOp}
  {p p' : Partition} {d : Nat}

/-- Behind a message that is not too old there is none that is, because it was created earlier. -/
private theorem Pass.fresh (h : p.Pass op.clock d) (hgiven : Given config topic id (appends ops) p) (ht : Timed ops)
    (hop : op ∈ ops) : ∀ m ∈ p.buffer.log, ¬config.Expired (op.clock 0) m := by
  intro m hm hexp
  obtain ⟨j, hj⟩ := List.mem_iff_getElem?.1 hm
  rw [← p.abs_retained, ← p.abs.get?_add, TrimmedLog.get?_of_dropped_le (by omega)] at hj
  change p.appended[p.abs.dropped + j]? = some m at hj
  obtain ⟨hlt, rfl⟩ := List.getElem?_eq_some_iff.1 hj
  have hfront : p.appended[p.abs.dropped]? = some p.appended[p.abs.dropped] := List.getElem?_eq_getElem (by omega)
  have hkept := h.kept _ hfront
  rw [hgiven.policies, ht.still op hop] at hkept
  have hmem : p.appended[p.abs.dropped] ∈ messagesOf topic id (appends ops) :=
    hgiven.appended ▸ List.getElem_mem _
  refine not_expired_of_evicts hkept (ht.age_lt hop hmem) (hexp.of_le ?_)
  have hsorted := ht.created_sorted topic id
  rw [← hgiven.appended, List.pairwise_map] at hsorted
  rcases Nat.eq_zero_or_pos j with rfl | hpos
  · exact le_refl _
  · exact List.pairwise_iff_getElem.1 hsorted _ _ _ _ (by omega)

theorem Pass.bounded {clock : Nat → Nat} (h : p.Pass clock d) (hpolicies : p.buffer.policies = config.buildPolicies)
    {k : Nat} (hk : config.retentionCapacity = some k) : p.buffer.log.length ≤ k := by
  by_contra hlt
  have hle := p.holds.length_le
  have hlt' : p.abs.dropped < p.appended.length := by
    simp only [Partition.abs]
    omega
  have hfront : p.appended[p.abs.dropped]? = some p.appended[p.abs.dropped] := List.getElem?_eq_getElem hlt'
  have hkept := h.kept _ hfront
  rw [hpolicies, Bool.eq_false_iff] at hkept
  exact hkept (evicts_buildPolicies.2 (Or.inr ⟨k, hk, by omega⟩))

private theorem Removed.concat {n : Nat} {m : StoredMessage} (h : Removed config ops n m) (op : PartitionOp) :
    Removed config (ops ++ [op]) n m := by
  obtain ⟨before, op', after, rfl, hn, hcause⟩ := h
  exact ⟨before, op', after ++ [op], by simp, hn, hcause⟩

private theorem Pass.cause (h : p.Pass op.clock d) (hgiven : Given config topic id (appends (ops ++ [op])) p)
    (hstill : ∀ i, op.clock i = op.clock 0) {n : Nat} (hd : d ≤ n) (hn : n < p.abs.dropped) {m : StoredMessage}
    (hm : p.appended[n]? = some m) : Removed config (ops ++ [op]) n m := by
  have hev := h.removed n m hd hn hm
  rw [hgiven.policies, hstill, hgiven.length_appended] at hev
  have hlt := (List.getElem?_eq_some_iff.1 hm).1
  rw [hgiven.length_appended] at hlt
  exact ⟨ops, op, [], rfl, hlt, cause_of_evicts hev⟩

/-- The run lemma: an unbounded buffer has lost nothing but what its passes removed. -/
private theorem removed_runOps (hconfig : config.maxCapacity = 0) (ops : List PartitionOp) (ht : Timed ops) :
    ∀ p, (new topic id config).runOps ops = some p → ∀ n m, n < p.abs.dropped → p.appended[n]? = some m →
      Removed config ops n m := by
  induction ops using List.reverseRecOn with
  | nil =>
    intro p h n m hn
    cases h
    cases hn
  | append_singleton ops op ih =>
    intro p h n m hn hm
    have hgiven := given_runOps _ p h
    rw [runOps_concat, Option.bind_eq_some_iff] at h
    obtain ⟨q, hq, hop⟩ := h
    obtain ⟨d, -, hd, hpass⟩ := pass_applyOp hop
    have hdq : d = q.abs.dropped := hd ((given_runOps ops q hq).maxCapacity.trans hconfig)
    rcases Nat.lt_or_ge n d with hlt | hge
    -- the message was gone before the operation
    · refine (ih ht.of_concat q hq n m (hdq ▸ hlt) ?_).concat op
      have hlt' : n < q.appended.length := lt_of_lt_of_le (hdq ▸ hlt) q.abs.dropped_le_next
      obtain ⟨more, hmore⟩ := appended_applyOp hop
      rw [hmore, List.getElem?_append_left hlt'] at hm
      exact hm
    · exact hpass.cause hgiven (ht.still op (List.mem_append_right _ (List.mem_singleton_self op))) hge hn hm

end Partition

open RMemQueue.Partition

/-- The passes of any run with a clock that never runs backwards remove the messages that are too old or too many, the
oldest first, and with an unbounded buffer no others.  The appends only panic when there are more of them than
offsets.  Two readings of the clock are at most `u64Max` milliseconds apart (`Timed.short`), as the `as u64` of
`should_evict` would otherwise shorten an age. -/
theorem retention_exact (config : PartitionConfig) (topic : String) (id : Int) {ops : List PartitionOp}
    (ht : Timed ops) :
    (∃ p, (Partition.new topic id config).runOps ops = some p ∧
      p.Retains config ops (messagesOf topic id (appends ops))) ∨
    ((Partition.new topic id config).runOps ops = none ∧ i64Max < (appends ops).length) := by
  cases hp : (Partition.new topic id config).runOps ops with
  | none => exact Or.inr ⟨rfl, runOps_eq_none hp⟩
  | some p =>
    have hgiven := given_runOps ops p hp
    -- the limits hold because the last operation has run a pass
    have hpass : ∀ before op, ops = before ++ [op] → ∃ d, p.Pass op.clock d := by
      rintro before op rfl
      rw [runOps_concat, Option.bind_eq_some_iff] at hp
      obtain ⟨q, -, happly⟩ := hp
      obtain ⟨d, -, -, hpass⟩ := pass_applyOp happly
      exact ⟨d, hpass⟩
    refine Or.inl ⟨p, rfl, ?_, ?_, ?_, ?_⟩
    · rw [← hgiven.appended, p.holds.log]
      exact List.drop_suffix _ _
    · intro op hop
      obtain ⟨before, hops⟩ := List.getLast?_eq_some_iff.1 hop
      obtain ⟨d, hd⟩ := hpass before op hops
      exact hd.fresh hgiven ht (hops ▸ List.mem_append_right _ (List.mem_singleton_self op))
    · intro k hk
      rcases List.eq_nil_or_concat ops with rfl | ⟨before, op, hops⟩
      · cases hp
        exact Nat.zero_le k
      · rw [List.concat_eq_append] at hops
        obtain ⟨d, hd⟩ := hpass before op hops
        exact hd.bounded hgiven.policies hk
    · intro hconfig n m hm hn
      rw [← hgiven.appended] at hm hn
      exact removed_runOps hconfig ops ht p hp n m (by simp only [Partition.abs]; omega) hm

/-- An append at a reading of the monotonic clock. -/
def appendAt (now : Nat) : AppendCall := ⟨.raw none (some [1]), none, none, ⟨7, now, fun _ => now⟩⟩

/-- With a limit of `5` milliseconds, an append after `6` milliseconds removes the first message. -/
theorem retention_exact_six : ∃ p, (Partition.new "t" 0 ⟨0, some 5, some 2⟩).runOps
      [.append (appendAt 0), .append (appendAt 6000000)] = some p ∧ p.buffer.log.length = 1 ∧
    p.Retains ⟨0, some 5, some 2⟩ [.append (appendAt 0), .append (appendAt 6000000)]
      (messagesOf "t" 0 [appendAt 0, appendAt 6000000]) := by
  have ht : Timed [.append (appendAt 0), .append (appendAt 6000000)] :=
    ⟨by decide, by simp [PartitionOp.clock, appendAt], by decide⟩
  rcases retention_exact ⟨0, some 5, some 2⟩ "t" 0 ht with ⟨p, hp, h⟩ | ⟨h, -⟩
  · refine ⟨p, hp, ?_, h⟩
    have hlen : ((Partition.new "t" 0 ⟨0, some 5, some 2⟩).runOps
        [.append (appendAt 0), .append (appendAt 6000000)]).map (fun p => p.buffer.log.length) = some 1 := by
      decide +kernel
    rw [hp] at hlen
    exact Option.some.inj hlen
  · cases h

end RMemQueue
