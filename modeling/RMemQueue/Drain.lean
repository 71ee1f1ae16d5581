import RMemQueue.PollOnce
import RMemQueue.ResumePoint
import Mathlib.Algebra.Order.BigOperators.Group.Finset

/-!
# Polling until nothing is left (`base_consumer.rs`)

What repeated polls return while nobody else works on the broker.  `unread` is what a consumer has still to read from a
partition.  A poll takes the first message off the unread ones of one partition, or finds nothing and has put every
position into its log (`pass_pollOnce`); so `n` polls return the first unread messages of each partition, in order, and
enough of them return all (`unread_deliveries`, `unread_drained`).  Polls keep returning exactly as long as no start
overflows (`deliveries_isSome_iff`); if one does, they come to each entry before it once (`delivers_served`).
-/

namespace RMemQueue

open Conc

namespace BaseConsumer

variable {π : Type} (c : BaseConsumer)

/-- The messages of the partition that the consumer has still to read. -/
def unread (s : Session π) (key : String × Int) : List StoredMessage :=
  ((s.broker.backend.partition? key.1 key.2).bind fun p => (c.point? s key p).map p.abs.since).getD []

variable {c} {s s' : Session π} {key : String × Int} {p : Partition} {o : Int}

theorem unread_eq (hp : s.broker.backend.partition? key.1 key.2 = some p) (ho : c.point? s key p = some o) :
    c.unread s key = p.abs.since o := by
  rw [unread, hp, Option.bind_some, ho]
  rfl

theorem unread_eq_nil_iff : c.unread s key = [] ↔ ¬c.Ready s key ∧ ¬c.Misplaced s key := by
  cases hp : s.broker.backend.partition? key.1 key.2 with
  | none => simp [unread, Ready, Misplaced, hp]
  | some p =>
    cases ho : c.point? s key p with
    | none => simp [unread, Ready, Misplaced, hp, ho]
    | some o =>
      rw [unread_eq hp ho, ready_iff hp ho, misplaced_iff hp ho, TrimmedLog.since_eq_nil_iff, ← p.abs_retained]
      have hnil := p.abs.retained_eq_nil_iff
      have hle := p.abs.dropped_le_next
      by_cases hr : p.abs.retained = []
      · have := hnil.1 hr
        simp only [hr, true_or, ne_eq, not_true_eq_false, and_false, not_false_eq_true, and_true, true_iff]
        omega
      · have := hnil.not.1 hr
        simp only [hr, false_or, ne_eq, not_false_eq_true, and_true]
        omega

private theorem unread_moved (hp : s.broker.backend.partition? key.1 key.2 = some p) (o : Int) :
    c.unread (moved s key o) key = p.abs.since o :=
  unread_eq (s := moved s key o) hp (point?_moved o p)

private theorem unread_moved_of_ne {key' : String × Int} (h : key' ≠ key) (o : Int) :
    c.unread (moved s key o) key' = c.unread s key' := by
  have hl : (moved s key o).state.position.lookup key' = s.state.position.lookup key' := AList.lookup_insert_ne h
  simp only [unread, point?, hl]
  rfl

/-! ### One poll -/

/-- The partition exists and has a stored position, which is not beyond the end of its log. -/
def Within (s : Session π) (key : String × Int) : Prop :=
  ∃ p v, s.broker.backend.partition? key.1 key.2 = some p ∧ s.state.position.lookup key = some v ∧ v ≤ p.abs.next

/-- The sessions differ in positions only, and every position that was in its log still is. -/
structure Same (c : BaseConsumer) (s s' : Session π) : Prop where
  broker : s'.broker = s.broker
  assigned : s'.state.assignedPartitions = s.state.assignedPartitions
  paused : s'.state.paused = s.state.paused
  overflows : ∀ key, c.Overflows s' key ↔ c.Overflows s key
  misplaced : ∀ key, c.Misplaced s' key → c.Misplaced s key
  within : ∀ key, Within s key → Within s' key

theorem Same.refl (s : Session π) : c.Same s s := ⟨rfl, rfl, rfl, fun _ => .rfl, fun _ => id, fun _ => id⟩

theorem Same.trans {s₁ s₂ s₃ : Session π} (h₁ : c.Same s₁ s₂) (h₂ : c.Same s₂ s₃) : c.Same s₁ s₃ :=
  ⟨h₂.broker.trans h₁.broker, h₂.assigned.trans h₁.assigned, h₂.paused.trans h₁.paused,
    fun key => (h₂.overflows key).trans (h₁.overflows key), fun key => h₁.misplaced key ∘ h₂.misplaced key,
    fun key => h₂.within key ∘ h₁.within key⟩

theorem Same.polls_iff (h : c.Same s s') : Polls s' key ↔ Polls s key := by
  rw [Polls, Polls, h.assigned, h.paused]

theorem Same.running (h : c.Same s s') (hr : s.broker.Running) : s'.broker.Running := h.broker ▸ hr

/-- A position within the bounds of the log is stored for a partition with a start. -/
private theorem same_moved (hp : s.broker.backend.partition? key.1 key.2 = some p) (hover : ¬c.Overflows s key)
    (hin : p.buffer.log = [] ∨ (p.abs.dropped : Int) ≤ o) (hle : o ≤ p.abs.next) :
    c.Same s (moved s key o) ∧ ¬c.Misplaced (moved s key o) key := by
  have hplaced : ¬c.Misplaced (moved s key o) key := by
    have hpm : (moved s key o).broker.backend.partition? key.1 key.2 = some p := hp
    rw [misplaced_iff hpm (point?_moved o p)]
    rintro ⟨hout, hne⟩
    rcases hin with hlog | hin
    · exact hne hlog
    · omega
  -- the start of `key` did not overflow and does not now; the other keys are where they were
  refine ⟨⟨rfl, rfl, rfl, fun key' => ?_, fun key' => ?_, fun key' => ?_⟩, hplaced⟩
  · by_cases hk : key' = key
    · subst hk
      exact iff_of_false (not_overflows_moved o) hover
    · exact (sameAt_moved hk o).2.1
  · by_cases hk : key' = key
    · subst hk
      exact fun h => absurd h hplaced
    · exact (sameAt_moved hk o).2.2.1
  · by_cases hk : key' = key
    · subst hk
      exact fun _ => ⟨p, o, hp, AList.lookup_insert _, hle⟩
    · rintro ⟨p', v, hp', hv, hle'⟩
      exact ⟨p', v, hp', (AList.lookup_insert_ne hk).trans hv, hle'⟩

/-- The oldest offset of a partition is in its log, and leaves the same messages to read as an offset outside. -/
private theorem same_reset (hp : s.broker.backend.partition? key.1 key.2 = some p) (ho : c.point? s key p = some o)
    (hout : o < p.abs.dropped ∨ p.abs.next < o) :
    c.Same s (moved s key p.watermarks.1) ∧ ¬c.Misplaced (moved s key p.watermarks.1) key ∧
      ∀ key', c.unread (moved s key p.watermarks.1) key' = c.unread s key' := by
  have hw := congrArg Prod.fst p.watermarks_eq
  have hle := p.abs.dropped_le_next
  dsimp only at hw
  have hin : p.buffer.log = [] ∨ (p.abs.dropped : Int) ≤ p.watermarks.1 := by
    rw [← p.abs_retained]
    split at hw
    · exact Or.inl ‹_›
    · exact Or.inr (by omega)
  have hlow : p.watermarks.1 ≤ p.abs.dropped := by
    split at hw <;> omega
  obtain ⟨hsame, hplaced⟩ := same_moved hp (not_overflows ho) hin (by omega)
  refine ⟨hsame, hplaced, fun key' => ?_⟩
  by_cases hk : key' = key
  · subst hk
    rw [unread_moved hp, unread_eq hp ho, TrimmedLog.since_of_le hlow, TrimmedLog.since_of_out hout]
  · exact unread_moved_of_ne hk _

/-- What a pass over the keys does on a running broker. -/
inductive Pass (c : BaseConsumer) (s : Session π) (keys : List (String × Int)) :
    Outcome RmqError (Option StoredMessage) × Session π → Prop
  | message {m : StoredMessage} {s' : Session π} (h : c.Same s s') (hpolls : m.place ∈ keys ∧ m.place ∉ s.state.paused)
    (hself : c.unread s m.place = m :: c.unread s' m.place)
    (hother : ∀ key, key ≠ m.place → c.unread s' key = c.unread s key) : Pass c s keys (.ok (some m), s')
  | nothing {s' : Session π} (h : c.Same s s') (hunread : ∀ key, c.unread s' key = c.unread s key)
    (hplaced : ∀ key ∈ keys, key ∉ s.state.paused → ¬c.Misplaced s' key) : Pass c s keys (.ok none, s')
  | failed {o : Outcome RmqError (Option StoredMessage)} {s' : Session π} (ho : ∀ r, o ≠ .ok r)
    (hover : ∃ key ∈ keys, key ∉ s.state.paused ∧ c.Overflows s key) : Pass c s keys (o, s')

/-- A pass goes on after its first entry. -/
private theorem Pass.cons {keys : List (String × Int)} {r : Outcome RmqError (Option StoredMessage) × Session π}
    (h : c.Same s s') (hunread : ∀ key, c.unread s' key = c.unread s key)
    (hplaced : key ∉ s.state.paused → ¬c.Misplaced s' key) (hr : Pass c s' keys r) : Pass c s (key :: keys) r := by
  cases hr with
  | @message m s'' h' hpolls hself hother =>
    refine .message (h.trans h') ⟨List.mem_cons_of_mem _ hpolls.1, h.paused ▸ hpolls.2⟩ ?_ fun key hk => ?_
    · rw [← hunread, hself]
    · rw [hother key hk, hunread]
  | @nothing s'' h' hunread' hplaced' =>
    refine .nothing (h.trans h') (fun key => (hunread' key).trans (hunread key)) fun k hk hp => ?_
    rcases List.mem_cons.1 hk with rfl | hk
    · exact fun hm => hplaced hp (h'.misplaced _ hm)
    · exact hplaced' k hk (h.paused.symm ▸ hp)
  | failed ho hover =>
    obtain ⟨k, hk, hp, hover⟩ := hover
    exact .failed ho ⟨k, List.mem_cons_of_mem _ hk, h.paused ▸ hp, (h.overflows k).1 hover⟩

/-- The round that delivers a message. -/
private theorem pass_delivered {m : StoredMessage} (hp : s.broker.backend.partition? key.1 key.2 = some p)
    (ho : c.point? s key p = some o) (hm : p.readOne o = .ok (some m)) (hpaused : key ∉ s.state.paused)
    (keys : List (String × Int)) (idx : Nat) :
    Pass c s (key :: keys) (.ok (some m), { s with state := s.state.delivered key m.offset idx }) := by
  have hplace : m.place = key := Broker.place_of_readOne hp hm
  obtain ⟨n, rfl, hg⟩ := p.readOne_eq_some_iff.1 hm
  have hoff : m.offset = n := (p.stamped_of_get? hg).1
  have hbounds := TrimmedLog.bounds_of_get? hg
  have hsame : c.Same s (moved s key (m.offset + 1)) :=
    (same_moved hp (not_overflows ho) (Or.inr (by omega)) (by omega)).1
  refine .message { hsame with } ?_ ?_ fun k hk => ?_
  · rw [hplace]
    exact ⟨List.mem_cons_self .., hpaused⟩
  · rw [hplace, unread_eq hp ho, TrimmedLog.since_eq_cons hg, ← hoff]
    exact congrArg (m :: ·) (unread_moved hp (m.offset + 1)).symm
  · rw [hplace] at hk
    exact unread_moved_of_ne hk (m.offset + 1)

/-- The run lemma, over the entries that are left of the pass. -/
private theorem pass_pollFrom {start len : Nat} {l : List Nat} {es : List TopicPartitionElem} (hr : s.broker.Running)
    (hl : List.Forall₂ (fun i e => s.state.assignedPartitions.elements[(start + i) % len]? = some e) l es) :
    Pass c s (es.map (·.key)) ((c.pollFrom start len l).run s) := by
  induction l generalizing s es with
  | nil =>
    cases hl
    exact .nothing (.refl s) (fun _ => rfl) fun _ h => nomatch h
  | cons i l ih =>
    cases hl with
    | cons he hl =>
      rename_i e es
      rw [run_pollFrom_cons, List.map_cons]
      by_cases hp : e.key ∈ s.state.paused
      · rw [c.pollRound_of_paused he hp]
        exact .cons (.refl s) (fun _ => rfl) (fun h => absurd hp h) (ih hr hl)
      · have hentry := ConsumerState.pollEntry_of_getElem? he
        rw [decide_eq_false hp] at hentry
        have hround := round_pollRound (c := c) hr hentry
        generalize c.pollRound s ((start + i) % len) = r at hround
        cases hround with
        | overflowed h => exact .failed (by simp) ⟨e.key, List.mem_cons_self .., hp, h⟩
        | delivered hpart ho hm => exact pass_delivered hpart ho hm hp _ _
        | stayed hnr hno hnm => exact .cons (.refl s) (fun _ => rfl) (fun _ => hnm) (ih hr hl)
        | @reset p o hpart ho hout =>
          obtain ⟨hsame, hplaced, hunread⟩ := same_reset hpart ho hout
          exact .cons hsame hunread (fun _ => hplaced) (ih (s := moved s e.key p.watermarks.1) hr hl)

/-- What a poll does on a running broker. -/
theorem pass_pollOnce (hr : s.broker.Running) : Pass c s s.state.assignedPartitions.keys (c.pollOnce.run s) := by
  have hbounds : s.state.pollBounds.2 = s.state.assignedPartitions.elements.length := rfl
  rw [run_pollOnce, hbounds]
  split
  · rename_i h
    rw [List.length_eq_zero_iff] at h
    refine .nothing (.refl s) (fun _ => rfl) fun key hk => ?_
    simp [TopicPartitionList.keys, h] at hk
  · have hpass := pass_pollFrom (c := c) hr (forall₂_rotate s.state.assignedPartitions.elements s.state.pollBounds.1)
    have hperm := (List.rotate_perm s.state.assignedPartitions.elements s.state.pollBounds.1).map (·.key)
    generalize (c.pollFrom _ _ _).run s = r at hpass
    cases hpass with
    | message h hpolls hself hother => exact .message h ⟨hperm.mem_iff.1 hpolls.1, hpolls.2⟩ hself hother
    | nothing h hunread hplaced => exact .nothing h hunread fun key hk => hplaced key (hperm.mem_iff.2 hk)
    | failed ho hover =>
      obtain ⟨key, hk, hover⟩ := hover
      exact .failed ho ⟨key, hperm.mem_iff.1 hk, hover⟩

/-! ### Several polls -/

theorem deliveries_succ {n : Nat} {msgs : List StoredMessage} (h : c.deliveries (n + 1) s = some (msgs, s')) :
    ∃ r s₁ rest, c.pollOnce.run s = (.ok r, s₁) ∧ c.deliveries n s₁ = some (rest, s') ∧ msgs = r.toList ++ rest := by
  rw [deliveries] at h
  rcases hrun : c.pollOnce.run s with ⟨r | e | _, s₁⟩
  · rw [hrun] at h
    obtain ⟨⟨rest, s₂⟩, hrest, he⟩ := Option.map_eq_some_iff.1 h
    obtain ⟨rfl, rfl⟩ := Prod.mk.inj he
    exact ⟨r, s₁, rest, rfl, hrest, rfl⟩
  · rw [hrun] at h
    cases h
  · rw [hrun] at h
    cases h

/-- Polling goes on where it was left. -/
theorem deliveries_add {n : Nat} {msgs : List StoredMessage} (h : c.deliveries n s = some (msgs, s')) (k : Nat) :
    c.deliveries (n + k) s = (c.deliveries k s').map fun r => (msgs ++ r.1, r.2) := by
  induction n generalizing s msgs with
  | zero =>
    obtain ⟨rfl, rfl⟩ := Prod.mk.inj (Option.some.inj h)
    rw [Nat.zero_add]
    cases c.deliveries k s <;> rfl
  | succ n ih =>
    obtain ⟨r, s₁, rest, hrun, hrest, rfl⟩ := deliveries_succ h
    rw [Nat.succ_add, deliveries, hrun]
    dsimp only
    rw [ih hrest]
    cases c.deliveries k s' with
    | none => rfl
    | some r' => simp

/-- **What polls return** of each partition is what comes first among its unread messages. -/
theorem unread_deliveries (hr : s.broker.Running) {n : Nat} {msgs : List StoredMessage}
    (h : c.deliveries n s = some (msgs, s')) :
    c.Same s s' ∧ ∀ key, c.unread s key = msgs.filter (·.place = key) ++ c.unread s' key := by
  induction n generalizing s msgs with
  | zero =>
    obtain ⟨rfl, rfl⟩ := Prod.mk.inj (Option.some.inj h)
    exact ⟨.refl s, fun key => rfl⟩
  | succ n ih =>
    obtain ⟨r, s₁, rest, hrun, hrest, rfl⟩ := deliveries_succ h
    have hpass := pass_pollOnce (c := c) hr
    rw [hrun] at hpass
    cases hpass with
    -- the message was the first unread one of its partition, and nothing else has been read
    | @message m _ hsame _ hself hother =>
      obtain ⟨hsame', hunread⟩ := ih (hsame.running hr) hrest
      refine ⟨hsame.trans hsame', fun key => ?_⟩
      by_cases hk : key = m.place
      · subst hk
        rw [hself, hunread]
        simp
      · rw [← hother key hk, hunread]
        simp [Ne.symm hk]
    | nothing hsame hunread _ =>
      obtain ⟨hsame', hunread'⟩ := ih (hsame.running hr) hrest
      refine ⟨hsame.trans hsame', fun key => ?_⟩
      rw [← hunread, hunread']
      rfl
    | failed ho => exact absurd rfl (ho r)

variable (c) in
/-- The number of messages that the consumer has still to read. -/
def remaining (s : Session π) : Nat :=
  ∑ key ∈ s.state.assignedPartitions.keys.toFinset \ s.state.paused, (c.unread s key).length

private theorem mem_polled : key ∈ s.state.assignedPartitions.keys.toFinset \ s.state.paused ↔ Polls s key := by
  rw [Finset.mem_sdiff, List.mem_toFinset, Polls]

private theorem remaining_lt {m : StoredMessage} (h : c.Same s s') (hpolls : Polls s m.place)
    (hself : c.unread s m.place = m :: c.unread s' m.place)
    (hother : ∀ key, key ≠ m.place → c.unread s' key = c.unread s key) : c.remaining s' < c.remaining s := by
  rw [remaining, remaining, h.assigned, h.paused]
  refine Finset.sum_lt_sum (fun key _ => ?_) ⟨m.place, mem_polled.2 hpolls, ?_⟩
  · by_cases hk : key = m.place
    · rw [hk, hself]
      exact Nat.le_succ _
    · rw [hother key hk]
  · rw [hself]
    exact Nat.lt_succ_self _

/-- Enough polls, when each position is in its log. -/
private theorem unread_drained_of_placed (hr : s.broker.Running) (hplaced : ∀ key, Polls s key → ¬c.Misplaced s key)
    {n : Nat} {msgs : List StoredMessage} (h : c.deliveries n s = some (msgs, s')) (hn : c.remaining s ≤ n)
    (hk : Polls s key) : c.unread s' key = [] := by
  induction n generalizing s msgs with
  | zero =>
    obtain ⟨-, rfl⟩ := Prod.mk.inj (Option.some.inj h)
    have hsum : c.remaining s = 0 := Nat.le_zero.1 hn
    rw [remaining, Finset.sum_eq_zero_iff] at hsum
    exact List.length_eq_zero_iff.1 (hsum key (mem_polled.2 hk))
  | succ n ih =>
    obtain ⟨r, s₁, rest, hrun, hrest, rfl⟩ := deliveries_succ h
    have hpass := pass_pollOnce (c := c) hr
    rw [hrun] at hpass
    cases hpass with
    | message hsame hpolls hself hother =>
      have hlt := remaining_lt hsame hpolls hself hother
      exact ih (hsame.running hr) (fun k hk' hm => hplaced k (hsame.polls_iff.1 hk') (hsame.misplaced k hm)) hrest
        (by omega) (hsame.polls_iff.2 hk)
    | nothing hsame hunread _ =>
      -- nothing was ready, and nothing is out of place
      have hidle := (pollOnce_eq_none_iff (c := c) hr).1 (by rw [hrun]) key hk.1 hk.2
      have hnil : c.unread s₁ key = [] := (hunread key).trans (unread_eq_nil_iff.2 ⟨hidle.1, hplaced key hk⟩)
      have hsplit := (unread_deliveries (hsame.running hr) hrest).2 key
      rw [hnil] at hsplit
      exact (List.append_eq_nil_iff.1 hsplit.symm).2
    | failed ho => exact absurd rfl (ho r)

/-- **Enough polls return everything.** -/
theorem unread_drained (hr : s.broker.Running) {n : Nat} {msgs : List StoredMessage}
    (h : c.deliveries n s = some (msgs, s')) (hn : c.remaining s < n) (hk : Polls s key) : c.unread s' key = [] := by
  induction n generalizing s msgs with
  | zero => cases hn
  | succ n ih =>
    obtain ⟨r, s₁, rest, hrun, hrest, rfl⟩ := deliveries_succ h
    have hpass := pass_pollOnce (c := c) hr
    rw [hrun] at hpass
    cases hpass with
    | message hsame hpolls hself hother =>
      have hlt := remaining_lt hsame hpolls hself hother
      exact ih (hsame.running hr) hrest (by omega) (hsame.polls_iff.2 hk)
    | nothing hsame hunread hplaced =>
      have hremaining : c.remaining s₁ = c.remaining s := by
        rw [remaining, remaining, hsame.assigned, hsame.paused]
        exact Finset.sum_congr rfl fun key _ => by rw [hunread]
      refine unread_drained_of_placed (hsame.running hr) (fun k hk' => ?_) hrest (by omega) (hsame.polls_iff.2 hk)
      obtain ⟨hmem, hp⟩ := hsame.polls_iff.1 hk'
      exact hplaced k hmem hp
    | failed ho => exact absurd rfl (ho r)

/-- **Polls keep returning** as long as no start overflows. -/
theorem deliveries_isSome_iff (hr : s.broker.Running) :
    (∀ n, (c.deliveries n s).isSome) ↔ ∀ key, Polls s key → ¬c.Overflows s key := by
  constructor
  · intro h key hk hover
    obtain ⟨⟨msgs, s₁⟩, hn⟩ := Option.isSome_iff_exists.1 (h (c.remaining s + 1))
    obtain ⟨hsame, -⟩ := unread_deliveries hr hn
    -- one more poll finds no message, and comes to the partition that overflows
    have hmore := h (c.remaining s + 1 + 1)
    rw [deliveries_add hn, Option.isSome_map] at hmore
    obtain ⟨⟨msgs', s₂⟩, hpoll⟩ := Option.isSome_iff_exists.1 hmore
    obtain ⟨r, s₃, -, hrun, -, -⟩ := deliveries_succ hpoll
    have hpass := pass_pollOnce (c := c) (hsame.running hr)
    rw [hrun] at hpass
    cases hpass with
    | @message m _ hsame' hpolls hself hother =>
      rw [unread_drained hr hn (Nat.lt_succ_self _) (hsame.polls_iff.1 hpolls)] at hself
      cases hself
    | nothing =>
      have hk' := hsame.polls_iff.2 hk
      have hidle := (pollOnce_eq_none_iff (c := c) (hsame.running hr)).1 (by rw [hrun]) key hk'.1 hk'.2
      exact hidle.2.1 ((hsame.overflows key).2 hover)
    | failed ho => exact absurd rfl (ho r)
  · intro h n
    induction n generalizing s with
    | zero => rfl
    | succ n ih =>
      have hpass := pass_pollOnce (c := c) hr
      rw [deliveries]
      rcases hrun : c.pollOnce.run s with ⟨r | e | _, s₁⟩
      · have hsame : c.Same s s₁ := by
          rw [hrun] at hpass
          cases hpass with
          | message hsame => exact hsame
          | nothing hsame => exact hsame
          | failed ho => exact absurd rfl (ho r)
        have hrest := ih (hsame.running hr) fun key hk hover =>
          h key (hsame.polls_iff.1 hk) ((hsame.overflows key).1 hover)
        dsimp only
        rw [Option.isSome_map]
        exact hrest
      · rw [hrun] at hpass
        cases hpass with
        | failed _ hover =>
          obtain ⟨key, hk, hp, hover⟩ := hover
          exact absurd hover (h key ⟨hk, hp⟩)
      · rw [hrun] at hpass
        cases hpass with
        | failed _ hover =>
          obtain ⟨key, hk, hp, hover⟩ := hover
          exact absurd hover (h key ⟨hk, hp⟩)

/-! ### Up to a poll that panics -/

instance (key : String × Int) : Decidable (Polls s key) :=
  inferInstanceAs (Decidable (key ∈ s.state.assignedPartitions.keys ∧ key ∉ s.state.paused))

instance (key : String × Int) : Decidable (c.Overflows s key) :=
  decidable_of_iff (s.state.position.lookup key = none ∧
    (s.broker.committed? c.groupId key.1 key.2).map (fun v => i64Checked (v + 1)) = some none) <|
      and_congr_right fun _ => Option.map_eq_some_iff

variable (c) in
/-- What the first `n` polls return, up to the first one that does not return. -/
def messages : Nat → Session π → List StoredMessage
  | 0, _ => []
  | n + 1, s =>
    match c.pollOnce.run s with
    | (.ok msg, s') => msg.toList ++ messages n s'
    | _ => []

variable (c) in
/-- Repeated polling returns exactly these messages of the partition, until a poll does not return if one does not. -/
def Delivers (s : Session π) (key : String × Int) (l : List StoredMessage) : Prop :=
  ∃ n, ∀ n₁ ≥ n, (c.messages n₁ s).filter (·.place = key) = l

theorem Delivers.unique {l l' : List StoredMessage} (h : c.Delivers s key l) (h' : c.Delivers s key l') : l = l' := by
  obtain ⟨n, hn⟩ := h
  obtain ⟨n', hn'⟩ := h'
  exact (hn (max n n') (Nat.le_max_left ..)).symm.trans (hn' (max n n') (Nat.le_max_right ..))

private theorem messages_of_deliveries {n : Nat} {msgs : List StoredMessage} (h : c.deliveries n s = some (msgs, s')) :
    c.messages n s = msgs := by
  induction n generalizing s msgs with
  | zero => exact congrArg Prod.fst (Option.some.inj h)
  | succ n ih =>
    obtain ⟨r, s₁, rest, hrun, hrest, rfl⟩ := deliveries_succ h
    rw [messages, hrun]
    dsimp only
    rw [ih hrest]

/-- What is returned comes first among the unread messages. -/
private theorem messages_prefix (hr : s.broker.Running) (n : Nat) (key : String × Int) :
    (c.messages n s).filter (·.place = key) <+: c.unread s key := by
  induction n generalizing s with
  | zero => exact List.nil_prefix
  | succ n ih =>
    have hpass := pass_pollOnce (c := c) hr
    rw [messages]
    generalize c.pollOnce.run s = r at hpass
    cases hpass with
    | @message m s₁ hsame hpolls hself hother =>
      have hrest := ih (hsame.running hr)
      dsimp only
      by_cases hk : key = m.place
      · subst hk
        rw [hself]
        simpa using hrest
      · rw [← hother key hk]
        simpa [Ne.symm hk] using hrest
    | nothing hsame hunread _ =>
      rw [← hunread]
      exact ih (hsame.running hr)
    | @failed o s₁ ho _ =>
      rcases o with r | e | _
      · exact absurd rfl (ho r)
      · exact List.nil_prefix
      · exact List.nil_prefix

variable (c) in
/-- The start of another polled partition overflows: the polls end where they come to it. -/
def Stops (s : Session π) (key key' : String × Int) : Prop := key' ≠ key ∧ Polls s key' ∧ c.Overflows s key'

instance (key key' : String × Int) : Decidable (c.Stops s key key') :=
  inferInstanceAs (Decidable (key' ≠ key ∧ Polls s key' ∧ c.Overflows s key'))

variable (c) in
/-- How often the polls come to the partition before they come to another one whose start overflows, if there is
one. -/
def visits? (s : Session π) (key : String × Int) : Option Nat :=
  let keys := s.state.assignedPartitions.keys.rotate s.state.pollBounds.1
  if ∃ key' ∈ keys, c.Stops s key key' then some ((keys.takeWhile fun key' => ¬c.Stops s key key').count key) else none

/-- What is read from the offset `o` on in so many visits: the first visit outside a log that retains messages moves the
position only. -/
def served (p : Partition) (o : Int) (visits : Option Nat) : List StoredMessage :=
  visits.elim (p.abs.since o) fun n =>
    (p.abs.since o).take (if (p.abs.dropped ≤ o ∧ o ≤ p.abs.next) ∨ p.buffer.log = [] then n else n - 1)

open Classical in
variable (c) in
/-- What is delivered of the partition when the polls come to it so many times. -/
private noncomputable def due (s : Session π) (key : String × Int) (visits : Nat) : List StoredMessage :=
  (c.unread s key).take (if c.Misplaced s key then visits - 1 else visits)

private theorem due_eq_served (hp : s.broker.backend.partition? key.1 key.2 = some p) (ho : c.point? s key p = some o)
    (n : Nat) : c.due s key n = served p o (some n) := by
  have hmis := misplaced_iff hp ho
  rw [due, unread_eq hp ho, served, Option.elim_some]
  by_cases hm : c.Misplaced s key
  · rw [if_pos hm, if_neg]
    rintro (hin | hlog)
    · have := (hmis.1 hm).1
      omega
    · exact (hmis.1 hm).2 hlog
  · rw [if_neg hm, if_pos]
    by_contra hcon
    rw [not_or] at hcon
    exact hm (hmis.2 ⟨by omega, hcon.2⟩)

private theorem due_congr (hunread : c.unread s' key = c.unread s key) (hm : c.Misplaced s' key ↔ c.Misplaced s key)
    (n : Nat) : c.due s' key n = c.due s key n := by
  rw [due, due, hunread]
  by_cases h : c.Misplaced s key
  · rw [if_pos h, if_pos (hm.2 h)]
  · rw [if_neg h, if_neg fun h' => h (hm.1 h')]

/-- Nothing is due of a partition that has nothing to read. -/
private theorem due_of_unread (h : c.unread s key = []) (n : Nat) : c.due s key n = [] := by
  rw [due, h, List.take_nil]

/-- What is due of the other partitions is not for this visit. -/
private theorem due_of_ne {key' : String × Int} (hne : key ≠ key') (hunread : c.unread s' key = c.unread s key)
    (hm : c.Misplaced s' key ↔ c.Misplaced s key) (n : Nat) :
    c.due s key ([key'].count key + n) = c.due s' key n := by
  rw [List.count_eq_zero_of_not_mem (by simpa using hne), Nat.zero_add, due_congr hunread hm]

/-- A visit that finds nothing. -/
private theorem due_stayed {key' : String × Int} (hnr : ¬c.Ready s key') (hnm : ¬c.Misplaced s key') (n : Nat) :
    c.due s key ([key'].count key + n) = c.due s key n := by
  by_cases hk : key = key'
  · subst hk
    have hnil := unread_eq_nil_iff.2 ⟨hnr, hnm⟩
    rw [due_of_unread hnil, due_of_unread hnil]
  · exact due_of_ne hk rfl .rfl n

/-- A visit that delivers a message. -/
private theorem due_delivered (key : String × Int) {key' : String × Int} {m : StoredMessage}
    (hp : s.broker.backend.partition? key'.1 key'.2 = some p) (ho : c.point? s key' p = some o)
    (hm : p.readOne o = .ok (some m)) (hpaused : key' ∉ s.state.paused) (idx n : Nat) {s' : Session π}
    (hs' : s' = { s with state := s.state.delivered key' m.offset idx }) :
    c.Same s s' ∧ c.due s key ([key'].count key + n) = [m].filter (·.place = key) ++ c.due s' key n := by
  have hplace : m.place = key' := Broker.place_of_readOne hp hm
  have hpass := pass_delivered hp ho hm hpaused [] idx
  rw [← hs'] at hpass
  cases hpass with
  | message hsame _ hself hother =>
    refine ⟨hsame, ?_⟩
    by_cases hk : key = key'
    · -- the message has been ready, so the position was in its log
      subst hk
      have hready : c.Ready s key := ready_of_readOne hp ho hm
      have hplaced : ¬c.Misplaced s key := by
        rw [ready_iff hp ho] at hready
        rw [misplaced_iff hp ho]
        omega
      have hplaced' : ¬c.Misplaced s' key := fun h => hplaced (hsame.misplaced _ h)
      rw [hplace] at hself
      rw [due, due, if_neg hplaced, if_neg hplaced', hself, List.count_singleton_self, Nat.add_comm, List.take_succ_cons]
      simp [hplace]
    · have hsameAt := sameAt_moved (c := c) (s := s) hk (m.offset + 1)
      have hmis : c.Misplaced s' key ↔ c.Misplaced s key := by
        rw [hs']
        exact hsameAt.2.2
      rw [due_of_ne hk (hother key (hplace ▸ hk)) hmis]
      simp [hplace, Ne.symm hk]
  | failed ho => exact absurd rfl (ho _)

/-- A visit that moves a position into the log. -/
private theorem due_reset {key' : String × Int} (hp : s.broker.backend.partition? key'.1 key'.2 = some p)
    (ho : c.point? s key' p = some o) (hout : o < p.abs.dropped ∨ p.abs.next < o) (n : Nat) :
    c.due s key ([key'].count key + n) = c.due (moved s key' p.watermarks.1) key n := by
  obtain ⟨hsame, hplaced, hunread⟩ := same_reset hp ho hout
  by_cases hk : key = key'
  · subst hk
    by_cases hm : c.Misplaced s key
    · rw [due, due, if_pos hm, if_neg hplaced, hunread, List.count_singleton_self, Nat.add_sub_cancel_left]
    · have hnil : c.unread s key = [] := by
        refine unread_eq_nil_iff.2 ⟨?_, hm⟩
        rw [ready_iff hp ho]
        omega
      rw [due_of_unread hnil, due_of_unread ((hunread _).trans hnil)]
  · exact due_of_ne hk (hunread key) (sameAt_moved hk _).2.2 n

/-- The rounds of a poll that come to an entry with a start. -/
private theorem due_round (hr : s.broker.Running) {idx : Nat} {e : TopicPartitionElem}
    (he : s.state.assignedPartitions.elements[idx]? = some e) (hover : e.key ∉ s.state.paused → ¬c.Overflows s e.key)
    (hk : key ∉ s.state.paused) (n : Nat) :
    (∃ s', c.pollRound s idx = .inr s' ∧ c.Same s s' ∧ c.due s key ([e.key].count key + n) = c.due s' key n) ∨
    ∃ m s', c.pollRound s idx = .inl (.ok (some m), s') ∧ c.Same s s' ∧ s'.state.pollStart = idx + 1 ∧
      c.due s key ([e.key].count key + n) = [m].filter (·.place = key) ++ c.due s' key n := by
  by_cases hp : e.key ∈ s.state.paused
  · have hne : key ≠ e.key := by
      rintro rfl
      exact hk hp
    exact Or.inl ⟨s, c.pollRound_of_paused he hp, .refl s, due_of_ne hne rfl .rfl n⟩
  · have hentry := ConsumerState.pollEntry_of_getElem? he
    rw [decide_eq_false hp] at hentry
    have hround := round_pollRound (c := c) hr hentry
    generalize c.pollRound s idx = r at hround
    cases hround with
    | overflowed h => exact absurd h (hover hp)
    | @delivered p o m hpart ho hm =>
      obtain ⟨hsame, hdue⟩ := due_delivered key hpart ho hm hp idx n rfl
      exact Or.inr ⟨m, _, rfl, hsame, rfl, hdue⟩
    | stayed hnr _ hnm => exact Or.inl ⟨s, rfl, .refl s, due_stayed hnr hnm n⟩
    | reset hpart ho hout => exact Or.inl ⟨_, rfl, (same_reset hpart ho hout).1, due_reset hpart ho hout n⟩

/-- The entries before the first one whose start overflows. -/
private structure Before (c : BaseConsumer) (s : Session π) (key : String × Int) (before : List TopicPartitionElem)
    (stop : TopicPartitionElem) : Prop where
  starts : ∀ e ∈ before, e.key ∉ s.state.paused → ¬c.Overflows s e.key
  stops : stop.key ∉ s.state.paused ∧ c.Overflows s stop.key
  polled : key ∉ s.state.paused
  other : stop.key ≠ key

private theorem Before.same {before before' : List TopicPartitionElem} {stop : TopicPartitionElem}
    (h : Before c s key before stop) (hsame : c.Same s s') (hsub : before' ⊆ before) : Before c s' key before' stop where
  starts e he hp hover := h.starts e (hsub he) (hsame.paused ▸ hp) ((hsame.overflows e.key).1 hover)
  stops := ⟨hsame.paused ▸ h.stops.1, (hsame.overflows _).2 h.stops.2⟩
  polled := hsame.paused ▸ h.polled
  other := h.other

/-- The run lemma: a pass delivers a message before it comes to a start that overflows, or panics there. -/
private theorem stopped_pollFrom {start len : Nat} {l : List Nat} {before after : List TopicPartitionElem}
    {stop : TopicPartitionElem} (hr : s.broker.Running) (hb : Before c s key before stop)
    (hl : List.Forall₂ (fun i e => s.state.assignedPartitions.elements[(start + i) % len]? = some e) l
      (before ++ stop :: after)) :
    ((∀ r, ((c.pollFrom start len l).run s).1 ≠ .ok r) ∧ c.due s key ((before.map (·.key)).count key) = []) ∨
    ∃ m s' before₁ e before₂ i, before = before₁ ++ e :: before₂ ∧ l[before₁.length]? = some i ∧
      (c.pollFrom start len l).run s = (.ok (some m), s') ∧ c.Same s s' ∧
      s'.state.pollStart = (start + i) % len + 1 ∧
      c.due s key ((before.map (·.key)).count key) =
        [m].filter (·.place = key) ++ c.due s' key ((before₂.map (·.key)).count key) := by
  induction before generalizing s l with
  | nil =>
    cases hl with
    | cons he _ =>
      -- the first entry is the one that overflows
      left
      have hentry := ConsumerState.pollEntry_of_getElem? he
      rw [decide_eq_false hb.stops.1] at hentry
      have hround := round_pollRound (c := c) hr hentry
      refine ⟨fun r => ?_, by simp [due]⟩
      rw [run_pollFrom_cons]
      generalize c.pollRound s _ = x at hround
      cases hround with
      | overflowed => simp
      | delivered _ ho => exact absurd hb.stops.2 (not_overflows ho)
      | stayed _ ho => exact absurd hb.stops.2 ho
      | reset _ ho => exact absurd hb.stops.2 (not_overflows ho)
  | cons e before ih =>
    cases hl with
    | @cons i _ l _ he hl =>
      have hcount : ((e :: before).map (·.key)).count key =
          [e.key].count key + (before.map (·.key)).count key := by
        rw [List.map_cons, ← List.singleton_append, List.count_append]
      rw [run_pollFrom_cons, hcount]
      rcases due_round (c := c) hr he (hb.starts e (List.mem_cons_self ..)) hb.polled
          ((before.map (·.key)).count key) with ⟨s', hround, hsame, hdue⟩ | ⟨m, s', hround, hsame, hstart, hdue⟩
      · rw [hround, hdue]
        have hl' : List.Forall₂ (fun i e => s'.state.assignedPartitions.elements[(start + i) % len]? = some e) l
            (before ++ stop :: after) := by
          rw [hsame.assigned]
          exact hl
        rcases ih (hsame.running hr) (hb.same hsame (List.subset_cons_self ..)) hl' with h | h
        · exact Or.inl h
        · obtain ⟨m, s'', before₁, e', before₂, j, rfl, hj, hrun, hsame', hstart, hdue⟩ := h
          exact Or.inr ⟨m, s'', e :: before₁, e', before₂, j, rfl, hj, hrun, hsame.trans hsame', hstart, hdue⟩
      · rw [hround]
        exact Or.inr ⟨m, s', [], e, before, i, rfl, rfl, rfl, hsame, hstart, hdue⟩

/-- One poll on the way to a start that overflows. -/
private theorem stopped_pollOnce {before after : List TopicPartitionElem} {stop : TopicPartitionElem}
    (hr : s.broker.Running) (hb : Before c s key before stop)
    (hl : s.state.assignedPartitions.elements.rotate s.state.pollBounds.1 = before ++ stop :: after) :
    ((∀ r, (c.pollOnce.run s).1 ≠ .ok r) ∧ c.due s key ((before.map (·.key)).count key) = []) ∨
    ∃ m s' before₁ e before₂, before = before₁ ++ e :: before₂ ∧ c.pollOnce.run s = (.ok (some m), s') ∧ c.Same s s' ∧
      s'.state.assignedPartitions.elements.rotate s'.state.pollBounds.1 =
        before₂ ++ stop :: (after ++ (before₁ ++ [e])) ∧
      c.due s key ((before.map (·.key)).count key) =
        [m].filter (·.place = key) ++ c.due s' key ((before₂.map (·.key)).count key) := by
  have hlen : s.state.assignedPartitions.elements.length = (before ++ stop :: after).length := by
    rw [← hl, List.length_rotate]
  have hpos : 0 < s.state.assignedPartitions.elements.length := by
    rw [hlen]
    simp
  have hbounds : s.state.pollBounds.2 = s.state.assignedPartitions.elements.length := rfl
  have hentries := forall₂_rotate s.state.assignedPartitions.elements s.state.pollBounds.1
  rw [hl] at hentries
  rw [run_pollOnce, hbounds, if_neg (by omega)]
  rcases stopped_pollFrom hr hb hentries with h | ⟨m, s', before₁, e, before₂, i, rfl, hi, hrun, hsame, hstart, hdue⟩
  · exact Or.inl h
  · refine Or.inr ⟨m, s', before₁, e, before₂, rfl, hrun, hsame, ?_, hdue⟩
    -- the next poll starts after the entry that has delivered
    obtain ⟨hi', rfl⟩ := List.getElem?_eq_some_iff.1 hi
    have hstart' : s'.state.pollBounds.1 =
        (s.state.pollBounds.1 + before₁.length + 1) % s.state.assignedPartitions.elements.length := by
      rw [ConsumerState.pollBounds, hsame.assigned, hstart]
      dsimp only
      rw [if_pos hpos, List.getElem_range, Nat.mod_add_mod]
    rw [hstart', hsame.assigned, List.rotate_mod, Nat.add_assoc, ← List.rotate_rotate, hl,
      show before₁ ++ e :: before₂ ++ stop :: after = (before₁ ++ [e]) ++ (before₂ ++ stop :: after) by simp,
      show before₁.length + 1 = (before₁ ++ [e]).length by simp, List.rotate_append_length_eq]
    simp

/-- The polls up to a start that overflows. -/
private theorem messages_stopped {before after : List TopicPartitionElem} {stop : TopicPartitionElem}
    (hr : s.broker.Running) (hb : Before c s key before stop)
    (hl : s.state.assignedPartitions.elements.rotate s.state.pollBounds.1 = before ++ stop :: after) {n : Nat}
    (hn : before.length < n) :
    (c.messages n s).filter (·.place = key) = c.due s key ((before.map (·.key)).count key) := by
  induction n generalizing s before after with
  | zero => cases hn
  | succ n ih =>
    rw [messages]
    rcases stopped_pollOnce hr hb hl with ⟨hpanic, hdue⟩ | ⟨m, s', before₁, e, before₂, rfl, hrun, hsame, hl', hdue⟩
    · rw [hdue]
      rcases hrun : c.pollOnce.run s with ⟨r | e | _, s'⟩
      · exact absurd (congrArg Prod.fst hrun) (hpanic r)
      · rfl
      · rfl
    · rw [hrun, hdue]
      dsimp only
      have hlt : before₂.length < n := by
        rw [List.length_append, List.length_cons] at hn
        omega
      rw [List.filter_append, ih (hsame.running hr) (hb.same hsame fun x hx => by simp [hx]) hl' hlt]
      rfl

/-- The polls come to an entry whose start overflows. -/
private theorem visits?_stopped {before after : List TopicPartitionElem} {stop : TopicPartitionElem}
    (hl : s.state.assignedPartitions.elements.rotate s.state.pollBounds.1 = before ++ stop :: after)
    (hbefore : ∀ e ∈ before, ¬c.Stops s key e.key) (hstop : c.Stops s key stop.key) :
    c.visits? s key = some ((before.map (·.key)).count key) := by
  have hkeys : s.state.assignedPartitions.keys.rotate s.state.pollBounds.1 =
      before.map (·.key) ++ stop.key :: after.map (·.key) := by
    rw [TopicPartitionList.keys, ← List.map_rotate, hl, List.map_append, List.map_cons]
  have htake : (before.map (·.key) ++ stop.key :: after.map (·.key)).takeWhile (fun key' => ¬c.Stops s key key') =
      before.map (·.key) := by
    rw [List.takeWhile_append_of_pos, List.takeWhile_cons_of_neg, List.append_nil]
    · simpa using hstop
    · simpa using hbefore
  unfold visits?
  rw [hkeys, if_pos ⟨stop.key, by simp, hstop⟩, htake]

/-- Where the polls keep returning, they return all that is unread. -/
private theorem delivers_unread (hr : s.broker.Running) (hk : Polls s key) (hall : ∀ k, Polls s k → ¬c.Overflows s k) :
    c.Delivers s key (c.unread s key) := by
  refine ⟨c.remaining s + 1, fun n hn => ?_⟩
  obtain ⟨⟨msgs, s'⟩, hsome⟩ := Option.isSome_iff_exists.1 ((deliveries_isSome_iff hr).2 hall n)
  rw [messages_of_deliveries hsome, (unread_deliveries hr hsome).2 key, unread_drained hr hsome (by omega) hk,
    List.append_nil]

/-- **What repeated polling delivers** of a partition whose start does not overflow. -/
theorem delivers_served (hr : s.broker.Running) (hk : Polls s key)
    (hp : s.broker.backend.partition? key.1 key.2 = some p) (ho : c.point? s key p = some o) :
    c.Delivers s key (served p o (c.visits? s key)) := by
  have hover : ¬c.Overflows s key := not_overflows ho
  cases hfind : (s.state.assignedPartitions.elements.rotate s.state.pollBounds.1).find? (fun e => c.Stops s key e.key) with
  -- the polls end at the first start that overflows
  | some stop =>
    obtain ⟨hstop, before, after, hl, hbefore⟩ := List.find?_eq_some_iff_append.1 hfind
    have hstop : c.Stops s key stop.key := by simpa using hstop
    have hbefore : ∀ e ∈ before, ¬c.Stops s key e.key := by simpa using hbefore
    have hmem : ∀ e ∈ before, e.key ∈ s.state.assignedPartitions.keys := by
      intro e he
      refine List.mem_map.2 ⟨e, ?_, rfl⟩
      rw [← List.mem_rotate (n := s.state.pollBounds.1), hl]
      exact List.mem_append_left _ he
    have hb : Before c s key before stop := by
      refine ⟨fun e he hpaused hover' => ?_, ⟨hstop.2.1.2, hstop.2.2⟩, hk.2, hstop.1⟩
      by_cases hne : e.key = key
      · exact hover (hne ▸ hover')
      · exact hbefore e he ⟨hne, ⟨hmem e he, hpaused⟩, hover'⟩
    rw [visits?_stopped hl hbefore hstop, ← due_eq_served hp ho]
    exact ⟨before.length + 1, fun n hn => messages_stopped hr hb hl (by omega)⟩
  | none =>
    have hnone : ∀ k ∈ s.state.assignedPartitions.keys, ¬c.Stops s key k := by
      intro k hk' hstop
      obtain ⟨e, he, rfl⟩ := List.mem_map.1 hk'
      have hfound := List.find?_eq_none.1 hfind e (List.mem_rotate.2 he)
      exact hfound (by simpa using hstop)
    have hvisits : c.visits? s key = none := by
      unfold visits?
      rw [if_neg]
      rintro ⟨k, hk', hstop⟩
      exact hnone k (List.mem_rotate.1 hk') hstop
    have hall : ∀ k, Polls s k → ¬c.Overflows s k := by
      intro k hk' hover'
      refine hnone k hk'.1 ⟨?_, hk', hover'⟩
      rintro rfl
      exact hover hover'
    rw [hvisits, served, Option.elim_none, ← unread_eq hp ho]
    exact delivers_unread hr hk hall

/-- A partition with nothing to read. -/
theorem delivers_nil (hr : s.broker.Running) (h : c.unread s key = []) : c.Delivers s key [] :=
  ⟨0, fun n _ => List.prefix_nil.1 (h ▸ messages_prefix hr n key)⟩

end BaseConsumer

end RMemQueue
