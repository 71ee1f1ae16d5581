import RMemQueue.Drain
import RMemQueue.ProduceRun

/-!
# Seeking (`base_consumer.rs`)

A seek stores a position, and the polls after it return what `Drain` says of that position.  `seek_selects` is about the
symbolic offsets.  `seek_stored_agrees_iff` compares a seek to the group's commit with what a consumer reads that has no
position: one begins at the committed offset and the other one after it.  Both depend on the other partitions of the
consumer only where the start of one of them overflows, since a poll that comes to it panics.
-/

namespace RMemQueue

open Conc

namespace BaseConsumer

variable {π : Type} {c : BaseConsumer} {s s' : Session π} {key : String × Int}

/-! ### What a seek stores -/

private theorem run_seek {offset : Offset} {target : Int}
    (h : (c.seekTarget key.1 key.2 offset).run s = (.ok target, s)) :
    (c.seek key.1 key.2 offset).run s = (.ok (), moved s key target) := by
  rw [seek, Act.run_bind, h]
  rfl

private theorem run_seekTarget_stored {gid : String} (hc : c.groupId = some gid) (hr : s.broker.Running)
    (hg : (s.broker.consumerGroups.lookup gid).isSome) : (c.seekTarget key.1 key.2 .stored).run s =
      (.ok ((s.broker.offsetStore.lookup (gid, key.1, key.2)).getD 0), s) := by
  rw [seekTarget, hc]
  dsimp only
  rw [Act.run_bind, Session.run_onBroker, Broker.run_committedOffset ⟨hr.broker, hg⟩]
  rfl

variable {p : Partition}

private theorem watermarks_le (p : Partition) : p.watermarks.1 ≤ p.abs.dropped := by
  have hw := congrArg Prod.fst p.watermarks_eq
  dsimp only at hw
  split at hw <;> omega

/-! ### A seek to the commit -/

private theorem visits?_moved (o : Int) : c.visits? (moved s key o) key = c.visits? s key := by
  have hstops : c.Stops (moved s key o) key = c.Stops s key := by
    funext k
    refine propext (and_congr_right fun hne => and_congr .rfl ?_)
    exact (sameAt_moved hne o).2.1
  simp only [visits?, hstops]
  rfl

variable {visits : Option Nat} {o : Int}

private theorem served_within (hd : (p.abs.dropped : Int) ≤ o) (hn : o ≤ p.abs.next) :
    served p o visits = visits.elim (p.abs.since o) fun n => (p.abs.since o).take n := by
  have hin : ((p.abs.dropped : Int) ≤ o ∧ o ≤ p.abs.next) ∨ p.buffer.log = [] := Or.inl ⟨hd, hn⟩
  simp only [served, if_pos hin]

/-- Outside the log the first visit does not deliver. -/
private theorem served_out (h : o < p.abs.dropped ∨ p.abs.next < o) :
    served p o visits = visits.elim p.buffer.log fun n => p.buffer.log.take (n - 1) := by
  rw [served, TrimmedLog.since_of_out h, p.abs_retained]
  by_cases hlog : p.buffer.log = []
  · simp [hlog]
  · have hout : ¬(((p.abs.dropped : Int) ≤ o ∧ o ≤ p.abs.next) ∨ p.buffer.log = []) := by
      rintro (hin | hnil)
      · omega
      · exact hlog hnil
    simp only [if_neg hout]

private theorem served_dropped :
    served p p.abs.dropped visits = visits.elim p.buffer.log fun n => p.buffer.log.take n := by
  have hle := p.abs.dropped_le_next
  rw [served_within (Int.le_refl _) (by omega), TrimmedLog.since_of_le (Int.le_refl _), p.abs_retained]

private theorem served_next : served p p.abs.next visits = [] := by
  have hle := p.abs.dropped_le_next
  rw [served_within (by omega) (Int.le_refl _), p.abs.since_next]
  cases visits <;> simp

/-- A visit that does not deliver makes a difference when the visits do not suffice for the log. -/
private theorem served_dropped_iff (h : o < p.abs.dropped) : served p p.abs.dropped visits = served p o visits ↔
    visits = some 0 ∨ ∀ n ∈ visits, p.buffer.log.length < n := by
  rw [served_dropped, served_out (Or.inl h)]
  cases visits with
  | none => simp
  | some n =>
    simp only [Option.elim_some, Option.some.injEq, Option.mem_def, forall_eq']
    constructor
    · intro heq
      have hlen := congrArg List.length heq
      rw [List.length_take, List.length_take] at hlen
      omega
    · rintro (rfl | hlt)
      · rfl
      · rw [List.take_of_length_le (by omega), List.take_of_length_le (by omega)]

/-- Within the log the message at the offset makes the difference. -/
private theorem served_succ_iff_of_lt (hd : (p.abs.dropped : Int) ≤ o) (hn : o < p.abs.next) :
    served p (o + 1) visits = served p o visits ↔ visits = some 0 := by
  obtain ⟨n, rfl⟩ := Int.eq_ofNat_of_zero_le (show 0 ≤ o by omega)
  obtain ⟨m, hm⟩ := TrimmedLog.exists_get? (show p.abs.dropped ≤ n by omega) (by omega)
  rw [served_within (by omega) (by omega), served_within hd (by omega), TrimmedLog.since_eq_cons hm]
  -- the messages after it have larger offsets
  have hnot : m ∉ p.abs.since (n + 1) := by
    intro hmem
    rw [TrimmedLog.since_eq_drop (by omega), Nat.max_eq_left (by omega)] at hmem
    obtain ⟨i, hi⟩ := List.mem_iff_getElem?.1 hmem
    rw [List.getElem?_drop] at hi
    have h₁ := (p.stamped hi).1
    have h₂ := (p.stamped_of_get? hm).1
    omega
  cases visits with
  | none =>
    simp only [Option.elim_none, reduceCtorEq, iff_false]
    exact fun heq => hnot (heq ▸ List.mem_cons_self ..)
  | some k =>
    simp only [Option.elim_some, Option.some.injEq]
    constructor
    · intro heq
      cases k with
      | zero => rfl
      | succ k =>
        rw [List.take_succ_cons] at heq
        exact absurd (List.mem_of_mem_take (heq ▸ List.mem_cons_self ..)) hnot
    · rintro rfl
      rfl

/-- After the end of the log the position is moved to the oldest message. -/
private theorem served_succ_next_iff : served p (p.abs.next + 1) visits = served p p.abs.next visits ↔
    visits = some 0 ∨ visits = some 1 ∨ p.buffer.log = [] := by
  rw [served_next, served_out (Or.inr (by omega))]
  cases visits with
  | none => simp
  | some n =>
    rw [Option.elim_some, List.take_eq_nil_iff, Option.some.injEq, Option.some.injEq, ← or_assoc]
    exact or_congr_left (by omega)

/-- When a reader that seeks to the commit and one that starts without a position deliver the same, if the polls come to
the partition as often as `visits` says (`none`: again and again). -/
def StoredAgrees (p : Partition) (visits : Option Nat) : Option Int → Prop
  | none => visits = some 0 ∨ p.abs.dropped = 0 ∨ ∀ n ∈ visits, p.buffer.log.length < n
  | some v => visits = some 0 ∨ v + 1 < p.abs.dropped ∨
      (v + 1 = p.abs.dropped ∧ ∀ n ∈ visits, p.buffer.log.length < n) ∨
      (v = p.abs.next ∧ (visits = some 1 ∨ p.buffer.log = [] ∨ v = i64Max))

/-- Without a commit one begins with the oldest message, and the other one at zero. -/
private theorem served_none_iff :
    served p p.watermarks.1 visits = served p 0 visits ↔ StoredAgrees p visits none := by
  have hw := congrArg Prod.fst p.watermarks_eq
  rw [p.abs_retained] at hw
  dsimp only [StoredAgrees] at hw ⊢
  by_cases hlog : p.buffer.log = []
  · rw [if_pos hlog] at hw
    rw [hw]
    refine iff_of_true rfl ?_
    cases visits with
    | none => simp
    | some n =>
      simp only [hlog, Option.some.injEq, Option.mem_def, forall_eq', List.length_nil]
      omega
  · rw [if_neg hlog] at hw
    rw [hw]
    by_cases hd : p.abs.dropped = 0
    · simp [hd]
    · rw [served_dropped_iff (by omega)]
      simp only [hd, false_or]

private theorem served_some_iff {v : Int} (h0 : 0 ≤ v) (hle : v ≤ p.abs.next) (hlt : v < i64Max) :
    served p (v + 1) visits = served p v visits ↔ StoredAgrees p visits (some v) := by
  dsimp only [StoredAgrees]
  have hd := p.abs.dropped_le_next
  rcases lt_trichotomy (v + 1) p.abs.dropped with hv | hv | hv
  · rw [served_out (Or.inl hv), served_out (Or.inl (by omega))]
    exact iff_of_true rfl (Or.inr (Or.inl hv))
  · rw [hv, served_dropped_iff (by omega)]
    have h₁ : ¬v = p.abs.next := by omega
    simp [h₁]
  · have h₁ : ¬v + 1 < p.abs.dropped := by omega
    have h₂ : ¬v + 1 = p.abs.dropped := by omega
    rcases Int.lt_or_eq_of_le hle with hn | rfl
    · rw [served_succ_iff_of_lt (by omega) hn]
      have h₃ : ¬v = p.abs.next := by omega
      simp [h₁, h₂, h₃]
    · rw [served_succ_next_iff]
      have h₃ : ¬(p.abs.next : Int) = i64Max := by omega
      simp [h₁, h₂, h₃]

end BaseConsumer

open BaseConsumer

/-- **A seek to the group's commit** makes no difference to what a consumer without a position reads from a partition by
repeated polling, up to a poll that panics if one does, if and only if `StoredAgrees` holds. -/
theorem seek_stored_agrees_iff {π : Type} {c : BaseConsumer} {s : Session π} {gid : String} (hc : c.groupId = some gid)
    (hr : s.broker.Running) (hg : (s.broker.consumerGroups.lookup gid).isSome) {key : String × Int} {p : Partition}
    (hp : s.broker.backend.partition? key.1 key.2 = some p) (hk : Polls s key)
    (hposition : s.state.position.lookup key = none)
    (hcommit : ∀ v, s.broker.offsetStore.lookup (gid, key.1, key.2) = some v → 0 ≤ v ∧ v ≤ p.abs.next) :
    (∃ l, c.Delivers s key l ∧ c.Delivers ((c.seek key.1 key.2 .stored).run s).2 key l) ↔
      StoredAgrees p (c.visits? s key) (s.broker.offsetStore.lookup (gid, key.1, key.2)) := by
  rw [run_seek (run_seekTarget_stored hc hr hg)]
  have hcommitted : s.broker.committed? c.groupId key.1 key.2 = s.broker.offsetStore.lookup (gid, key.1, key.2) := by
    rw [Broker.committed?, hc, Option.bind_some, if_pos hg]
  have hafter : ∀ o, c.Delivers (moved s key o) key (served p o (c.visits? s key)) := by
    intro o
    have hdelivers := delivers_served (c := c) (s := moved s key o) hr hk hp (point?_moved o p)
    rwa [visits?_moved] at hdelivers
  -- what both deliver is determined
  have hsame : ∀ {l o}, c.Delivers s key l →
      ((∃ l', c.Delivers s key l' ∧ c.Delivers (moved s key o) key l') ↔ l = served p o (c.visits? s key)) := by
    intro l o hl
    constructor
    · rintro ⟨l', h, h'⟩
      rw [hl.unique h, h'.unique (hafter o)]
    · rintro rfl
      exact ⟨_, hl, hafter o⟩
  cases hv : s.broker.offsetStore.lookup (gid, key.1, key.2) with
  | none =>
    have hpoint : c.point? s key p = some p.watermarks.1 := by
      rw [point?, hposition, Broker.start?, hcommitted, hv]
    rw [hsame (delivers_served hr hk hp hpoint), Option.getD_none, served_none_iff]
  | some v =>
    obtain ⟨h0, hle⟩ := hcommit v hv
    have hmax := p.next_le_i64Max
    rw [Option.getD_some]
    by_cases hlt : v < i64Max
    · have hpoint : c.point? s key p = some (v + 1) := by
        rw [point?, hposition, Broker.start?, hcommitted, hv]
        exact i64Checked_eq_some.2 ⟨rfl, by simp only [i64Min, i64Max] at hlt ⊢; omega, by omega⟩
      rw [hsame (delivers_served hr hk hp hpoint), served_some_iff h0 hle hlt]
    · -- the polls panic at the partition itself, which has nothing after the commit
      obtain rfl : v = p.abs.next := by omega
      have hpoint : c.point? s key p = none := by
        rw [point?, hposition, Broker.start?, hcommitted, hv]
        refine i64Checked_eq_none.2 (Or.inr ?_)
        omega
      have hnil : c.unread s key = [] := by
        rw [unread, hp, Option.bind_some, hpoint]
        rfl
      rw [hsame (delivers_nil hr hnil), served_next]
      refine iff_of_true rfl (Or.inr (Or.inr (Or.inr ⟨rfl, Or.inr (Or.inr ?_)⟩)))
      omega

/-- A member of a group with two messages to read, and what the group has committed. -/
private def afterTwoMessages (b : Broker RoundRobinPartitioner) (commits : List Op) : Session RoundRobinPartitioner :=
  ((World.init b).after members ([sendOne, sendOne, .consumer 0 (.subscribe default ["t"])] ++ commits)).session 0

/-- Without a commit both begin with the oldest message. -/
theorem seek_stored_agrees_fresh : ∃ b : Broker RoundRobinPartitioner,
    Broker.new (RmqClientConfig.new.set ConfigKeys.brokerId "b") = .ok b ∧
    ∃ l, (members 0).Delivers (afterTwoMessages b []) ("t", 0) l ∧
      (members 0).Delivers (((members 0).seek "t" 0 .stored).run (afterTwoMessages b [])).2 ("t", 0) l := by
  refine ⟨_, rfl, ?_⟩
  generalize hs : afterTwoMessages _ [] = s
  have hnone : s.broker.offsetStore.lookup ("g", "t", 0) = none := by
    rw [← hs]
    decide +kernel
  obtain ⟨p, hp, hdropped⟩ : ∃ p, s.broker.backend.partition? "t" 0 = some p ∧ p.abs.dropped = 0 := by
    rw [← Option.map_eq_some_iff, ← hs]
    decide +kernel
  have hr : s.broker.Running := by
    rw [← hs]
    exact ⟨by decide +kernel, by decide +kernel⟩
  have hk : Polls s ("t", 0) := by
    rw [← hs]
    decide +kernel
  have hg : (s.broker.consumerGroups.lookup "g").isSome := by
    rw [← hs]
    decide +kernel
  have hposition : s.state.position.lookup ("t", 0) = none := by
    rw [← hs]
    decide +kernel
  refine (seek_stored_agrees_iff (c := members 0) rfl hr hg hp hk hposition fun v hv => ?_).2 ?_
  · cases hnone.symm.trans hv
  · rw [hnone]
    exact Or.inr (Or.inl hdropped)

private theorem length_of_delivers {π : Type} {c : BaseConsumer} {s : Session π} {key : String × Int}
    {l : List StoredMessage} (hr : s.broker.Running) (hk : Polls s key) (hl : c.Delivers s key l) {n : Nat}
    (h : ((s.broker.backend.partition? key.1 key.2).bind fun p => (c.point? s key p).map fun o =>
      (served p o (c.visits? s key)).length) = some n) : l.length = n := by
  obtain ⟨p, hp, h⟩ := Option.bind_eq_some_iff.1 h
  obtain ⟨o, ho, rfl⟩ := Option.map_eq_some_iff.1 h
  rw [hl.unique (delivers_served hr hk hp ho)]

/-- The group has committed the offset of the first message: after a seek to the commit it is read again, and without
the seek it is not. -/
theorem seek_stored_differs : ∃ b : Broker RoundRobinPartitioner,
    Broker.new (RmqClientConfig.new.set ConfigKeys.brokerId "b") = .ok b ∧
    let s := afterTwoMessages b [.consumer 0 (.commit ⟨[⟨"t", 0, .offset 0⟩]⟩)]
    s.broker.Running ∧ (s.broker.consumerGroups.lookup "g").isSome ∧ Polls s ("t", 0) ∧
      s.state.position.lookup ("t", 0) = none ∧ s.broker.offsetStore.lookup ("g", "t", 0) = some 0 ∧
      ¬∃ l, (members 0).Delivers s ("t", 0) l ∧
        (members 0).Delivers (((members 0).seek "t" 0 .stored).run s).2 ("t", 0) l := by
  refine ⟨_, rfl, ?_⟩
  intro s
  have hr : s.broker.Running := ⟨by decide +kernel, by decide +kernel⟩
  have hk : Polls s ("t", 0) := by decide +kernel
  have hr' : (((members 0).seek "t" 0 .stored).run s).2.broker.Running := ⟨by decide +kernel, by decide +kernel⟩
  have hk' : Polls (((members 0).seek "t" 0 .stored).run s).2 ("t", 0) := by decide +kernel
  refine ⟨hr, by decide +kernel, hk, by decide +kernel, by decide +kernel, ?_⟩
  rintro ⟨l, hl, hl'⟩
  have hless : l.length = 1 := length_of_delivers hr hk hl (by decide +kernel)
  have hmore : l.length = 2 := length_of_delivers hr' hk' hl' (by decide +kernel)
  omega

/-! ### Symbolic offsets -/

namespace BaseConsumer

variable {π : Type}

/-- What the symbolic offsets select from the messages of a log. -/
inductive Selects : Offset → List StoredMessage → List StoredMessage → Prop
  | beginning (log : List StoredMessage) : Selects .beginning log log
  | end_ (log : List StoredMessage) : Selects .end_ log []
  | offsetTail (log : List StoredMessage) {n : Int} (h0 : 0 ≤ n) (hmax : n ≤ i64Max) :
    Selects (.offsetTail n) log (log.drop (log.length - n.toNat))

/-- Repeated polls return these messages of the partition, in this order: every poll returns, what the polls have
returned of the partition comes first among the messages, and from some number of polls on it is all of them. -/
structure Reads (c : BaseConsumer) (s : Session π) (key : String × Int) (l : List StoredMessage) : Prop where
  returns : ∀ n, (c.deliveries n s).isSome
  first : ∀ n msgs s', c.deliveries n s = some (msgs, s') → msgs.filter (·.place = key) <+: l
  all : ∃ n, ∀ n₁ ≥ n, ∀ msgs s', c.deliveries n₁ s = some (msgs, s') → msgs.filter (·.place = key) = l

/-- Polls return these messages of the partition; and if after some of the polls produce calls append to the partition
and evict nothing that is left to read, polls go on with what is left and then the new messages.  This may happen `k`
times. -/
def ReadsOn [Partitioner π] (c : BaseConsumer) (key : String × Int) : Nat → Session π → List StoredMessage → Prop
  | 0, s, l => c.Reads s key l
  | k + 1, s, l => c.Reads s key l ∧
    ∀ n msgs s' rest, c.deliveries n s = some (msgs, s') → l = msgs.filter (·.place = key) ++ rest →
      ∀ calls b new, s'.broker.produced calls = b →
        new = (b.backend.log key.1 key.2).history.drop (s'.broker.backend.log key.1 key.2).next →
        (∀ m ∈ rest ++ new, m ∈ (b.backend.log key.1 key.2).retained) →
        ReadsOn c key k { s' with broker := b } (rest ++ new)

variable {c : BaseConsumer} {s s' : Session π} {key : String × Int} {p : Partition} {l : List StoredMessage}

/-- The consumer polls the partition, from a position that is not beyond the end of its log, and no start overflows. -/
private structure Reading (c : BaseConsumer) (s : Session π) (key : String × Int) (l : List StoredMessage) : Prop where
  running : s.broker.Running
  polls : Polls s key
  within : Within s key
  starts : ∀ k, Polls s k → ¬c.Overflows s k
  unread : c.unread s key = l

private theorem Reading.reads (h : Reading c s key l) : c.Reads s key l where
  returns := (deliveries_isSome_iff h.running).2 h.starts
  first n msgs s' hn := by
    rw [← h.unread, (unread_deliveries h.running hn).2 key]
    exact List.prefix_append ..
  all := by
    refine ⟨c.remaining s + 1, fun n hn msgs s' hsome => ?_⟩
    rw [← h.unread, (unread_deliveries h.running hsome).2 key, unread_drained h.running hsome (by omega) h.polls,
      List.append_nil]

private theorem Reading.deliveries (h : Reading c s key l) {n : Nat} {msgs rest : List StoredMessage}
    (hn : c.deliveries n s = some (msgs, s')) (hl : l = msgs.filter (·.place = key) ++ rest) :
    Reading c s' key rest := by
  obtain ⟨hsame, hunread⟩ := unread_deliveries h.running hn
  refine ⟨hsame.running h.running, hsame.polls_iff.2 h.polls, hsame.within key h.within, fun k hk hover => ?_, ?_⟩
  · exact h.starts k (hsame.polls_iff.1 hk) ((hsame.overflows k).1 hover)
  · have hsplit := hunread key
    rw [h.unread, hl] at hsplit
    exact (List.append_cancel_left hsplit).symm

/-- The log grows, and loses nothing that is left to read. -/
private theorem Reading.later (h : Reading c s key l) {b : Broker π} (hl : s.broker.Later b) (hr : b.Running)
    (hcommitted : b.committed? = s.broker.committed?) {new : List StoredMessage}
    (hnew : new = (b.backend.log key.1 key.2).history.drop (s.broker.backend.log key.1 key.2).next)
    (hkeep : ∀ m ∈ l ++ new, m ∈ (b.backend.log key.1 key.2).retained) :
    Reading c { s with broker := b } key (l ++ new) := by
  obtain ⟨p, v, hp, hv, hle⟩ := h.within
  obtain ⟨p', hp', hpl⟩ := hl.backend.partition? hp
  have hpoint : c.point? s key p = some v := by rw [point?, hv]; rfl
  have hpoint' : c.point? { s with broker := b } key p' = some v := by
    rw [point?]
    dsimp only
    rw [hv]
    rfl
  rw [InMemoryBackend.log_of_partition? hp, InMemoryBackend.log_of_partition? hp'] at hnew
  rw [InMemoryBackend.log_of_partition? hp'] at hkeep
  have hnext := TrimmedLog.next_mono hpl.abs
  have hover : ∀ k, c.Overflows { s with broker := b } k ↔ c.Overflows s k := by
    intro k
    simp only [Overflows, hcommitted]
  refine ⟨hr, h.polls, ⟨p', v, hp', hv, by omega⟩, fun k hk => mt (hover k).1 (h.starts k hk), ?_⟩
  rw [unread_eq (s := { s with broker := b }) hp' hpoint', ← h.unread, unread_eq hp hpoint, hnew]
  rw [← h.unread, unread_eq hp hpoint, hnew] at hkeep
  refine TrimmedLog.since_later hpl.abs hle fun hne => ?_
  -- the first message that is left to read is still retained
  obtain ⟨t, ht⟩ := hpl.abs.1
  have hwithin : max v.toNat p.abs.dropped ≤ p.abs.history.length := by
    have := p.abs.dropped_le_next
    rw [← TrimmedLog.next]
    omega
  have hall : p.abs.since v ++ p'.abs.history.drop p.abs.next = p'.abs.history.drop (max v.toNat p.abs.dropped) := by
    rw [TrimmedLog.since_eq_drop hle, ← ht, TrimmedLog.next, List.drop_left, List.drop_append_of_le_length hwithin]
  rw [hall] at hne hkeep
  have hlt : max v.toNat p.abs.dropped < p'.abs.history.length := by
    by_contra hge
    exact hne (List.drop_eq_nil_iff.2 (by omega))
  rw [List.drop_eq_getElem_cons hlt] at hkeep
  obtain ⟨i, hi⟩ := List.mem_iff_getElem?.1 (hkeep _ (List.mem_cons_self ..))
  rw [← TrimmedLog.get?_add] at hi
  have h₁ := (p'.stamped_of_get? hi).1
  have h₂ := (p'.stamped (List.getElem?_eq_getElem hlt)).1
  omega

private theorem Reading.readsOn [Partitioner π] (h : Reading c s key l) (k : Nat) : c.ReadsOn key k s l := by
  induction k generalizing s l with
  | zero => exact h.reads
  | succ k ih =>
    refine ⟨h.reads, fun n msgs s' rest hn hl calls b new hb hnew hkeep => ?_⟩
    have hrest := h.deliveries hn hl
    subst hb
    have hr := Broker.running_produced hrest.running calls
    exact ih (hrest.later (Broker.later_produced _ calls) hr (Broker.committed?_produced _ calls) hnew hkeep)

/-- The place that a symbolic offset names, and what is read from there. -/
private theorem run_seekTarget_symbolic (hr : s.broker.Running)
    (hp : s.broker.backend.partition? key.1 key.2 = some p) {offset : Offset} (h : Selects offset p.buffer.log l) :
    ∃ target, (c.seekTarget key.1 key.2 offset).run s = (.ok target, s) ∧ target ≤ p.abs.next ∧
      p.abs.since target = l := by
  have hw : (Session.onBroker (Broker.watermarks key.1 key.2)).run s = (.ok p.watermarks, s) := by
    rw [Session.run_onBroker, Broker.run_watermarks hr, hp]
    rfl
  have hle := p.abs.dropped_le_next
  have hmax := p.next_le_i64Max
  have hnewest : p.watermarks.2 + 1 = p.abs.next := by
    rw [p.watermarks_eq]
    exact Int.sub_add_cancel ..
  cases h with
  | beginning =>
    refine ⟨p.watermarks.1, ?_, ?_, ?_⟩
    · rw [seekTarget, Act.run_bind, hw]
      rfl
    · have := watermarks_le p
      omega
    · rw [TrimmedLog.since_of_le (watermarks_le p), p.abs_retained]
  | end_ =>
    refine ⟨p.abs.next, ?_, Int.le_refl _, p.abs.since_next⟩
    rw [seekTarget, Act.run_bind, hw, ← hnewest]
    rfl
  | @offsetTail _ n h0 htail =>
    have hchecked : i64Checked ((p.abs.next : Int) - n) = some (p.abs.next - n) := by
      refine i64Checked_eq_some.2 ⟨rfl, ?_, by omega⟩
      simp only [i64Min, i64Max] at htail ⊢
      omega
    refine ⟨max (p.abs.next - n) 0, ?_, by omega, ?_⟩
    · generalize p.watermarks = w at hw hnewest
      obtain ⟨oldest, newest⟩ := w
      rw [seekTarget, Act.run_bind, hw, Outcome.andThen_ok]
      dsimp only at hnewest ⊢
      rw [hnewest, hchecked]
      rfl
    · have hlen := p.abs.length_retained
      rw [← p.abs_retained]
      obtain ⟨k, rfl⟩ := Int.eq_ofNat_of_zero_le h0
      by_cases hk : k ≤ p.abs.next
      · rw [max_eq_left (by omega), TrimmedLog.since_sub hk, Int.toNat_natCast]
      · -- more than there has ever been
        rw [max_eq_right (by omega), TrimmedLog.since_of_le (by omega), Int.toNat_natCast,
          show p.abs.retained.length - k = 0 by omega, List.drop_zero]

end BaseConsumer

/-- **Symbolic seeks select the right suffix.**  After a seek to the beginning, to the end or to a distance from the end
the polls return all retained messages of the partition, none, or the last ones, and go on with what is left and then
what is appended, any number of times, if and only if the start of no other polled partition overflows. -/
theorem seek_selects {π : Type} [Partitioner π] {c : BaseConsumer} {s : Session π} (hr : s.broker.Running)
    {key : String × Int} {p : Partition} (hp : s.broker.backend.partition? key.1 key.2 = some p) (hk : Polls s key)
    {offset : Offset} {l : List StoredMessage} (h : Selects offset p.buffer.log l) :
    (∃ s', (c.seek key.1 key.2 offset).run s = (.ok (), s') ∧ ∀ k, c.ReadsOn key k s' l) ↔
      ∀ key', key' ≠ key → Polls s key' → ¬c.Overflows s key' := by
  obtain ⟨target, hrun, hle, hsince⟩ := run_seekTarget_symbolic (c := c) hr hp h
  constructor
  · rintro ⟨s', hseek, hreads⟩ key' hne hk' hover
    obtain rfl : moved s key target = s' := by
      rw [run_seek hrun] at hseek
      exact (Prod.mk.inj hseek).2
    have hreturns := (hreads 0).returns
    exact (deliveries_isSome_iff (s := moved s key target) hr).1 hreturns key' hk' ((sameAt_moved hne target).2.1.2 hover)
  · intro hstarts
    refine ⟨moved s key target, run_seek hrun, Reading.readsOn ⟨hr, hk, ?_, fun key' hk' hover => ?_, ?_⟩⟩
    · exact ⟨p, target, hp, AList.lookup_insert _, hle⟩
    · by_cases hne : key' = key
      · exact not_overflows_moved target (hne ▸ hover)
      · exact hstarts key' hne hk' ((sameAt_moved hne target).2.1.1 hover)
    · rw [unread_eq (s := moved s key target) hp (point?_moved target p), hsince]

/-- The `n`-th message of the topic `t`. -/
private def messageOf (n : Int) : StoredMessage := .new none none "t" 0 n 7 none 0

/-- A member of a group that reads the topic `t` with three messages and the topic `u` with one, and what the group has
committed. -/
private def twoTopics (b : Broker RoundRobinPartitioner) (commits : List Op) : Session RoundRobinPartitioner :=
  ((World.init b).after members ([sendOne, sendOne, sendOne,
    .send ⟨"u", some 0, .raw none none, none, none, ⟨7, 0, fun _ => 0⟩⟩,
    .consumer 0 (.subscribe default ["t", "u"])] ++ commits)).session 0

/-- The last two of the three messages; the group has read the other topic. -/
theorem seek_selects_tail : ∃ b : Broker RoundRobinPartitioner,
    Broker.new (RmqClientConfig.new.set ConfigKeys.brokerId "b") = .ok b ∧
    let s := twoTopics b [.consumer 0 (.commit ⟨[⟨"u", 0, .offset 0⟩]⟩)]
    ∃ s', ((members 0).seek "t" 0 (.offsetTail 2)).run s = (.ok (), s') ∧
      ∀ k, (members 0).ReadsOn ("t", 0) k s' [messageOf 1, messageOf 2] := by
  refine ⟨_, rfl, ?_⟩
  generalize hs : twoTopics _ _ = s
  have hr : s.broker.Running := by
    rw [← hs]
    exact ⟨by decide +kernel, by decide +kernel⟩
  have hk : Polls s ("t", 0) := by
    rw [← hs]
    decide +kernel
  obtain ⟨p, hp, hlog⟩ : ∃ p, s.broker.backend.partition? "t" 0 = some p ∧
      p.buffer.log = [messageOf 0, messageOf 1, messageOf 2] := by
    rw [← Option.map_eq_some_iff, ← hs]
    decide +kernel
  have hselects := Selects.offsetTail p.buffer.log (n := 2) (by decide) (by decide)
  rw [hlog] at hselects
  have hother : ∀ key ∈ s.state.assignedPartitions.keys, ¬(members 0).Overflows s key := by
    rw [← hs]
    decide +kernel
  exact (seek_selects (c := members 0) hr hp hk (hlog ▸ hselects)).2 fun key _ hkey => hother key hkey.1

/-- The group has committed the largest offset of the other topic: after a seek to the beginning the first poll returns
the first of the three messages, and the second one panics. -/
theorem seek_selects_overflow : ∃ b : Broker RoundRobinPartitioner,
    Broker.new (RmqClientConfig.new.set ConfigKeys.brokerId "b") = .ok b ∧
    let s := twoTopics b [.consumer 0 (.commit ⟨[⟨"u", 0, .offset i64Max⟩]⟩)]
    let log := [messageOf 0, messageOf 1, messageOf 2]
    s.broker.Running ∧ Polls s ("t", 0) ∧ (∃ p, s.broker.backend.partition? "t" 0 = some p ∧ p.buffer.log = log) ∧
      Selects .beginning log log ∧
      ¬∃ s', ((members 0).seek "t" 0 .beginning).run s = (.ok (), s') ∧ ∀ k, (members 0).ReadsOn ("t", 0) k s' log := by
  refine ⟨_, rfl, ?_⟩
  intro s log
  have hlog : ∃ p, s.broker.backend.partition? "t" 0 = some p ∧ p.buffer.log = log := by
    rw [← Option.map_eq_some_iff]
    decide +kernel
  refine ⟨⟨by decide +kernel, by decide +kernel⟩, by decide +kernel, hlog, .beginning log, ?_⟩
  rintro ⟨s', hseek, hreads⟩
  have hreturns := (hreads 0).returns 2
  rw [show s' = (((members 0).seek "t" 0 .beginning).run s).2 by rw [hseek]] at hreturns
  revert hreturns
  decide +kernel

end RMemQueue
