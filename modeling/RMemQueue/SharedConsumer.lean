import RMemQueue.ResumePoint
import RMemQueue.SharedSteps
import Mathlib.Data.List.Permutation

/-!
# Operations on a shared consumer (`base_consumer.rs`)

Any number of threads call `poll_once`, `seek`, `store_offset`, `assign` and `unsubscribe` on one consumer.  A poll
takes the lock of the consumer's state for each of its reads and again to store the position behind the message that it
returns, and lets it go for the fetch in between.

`shared_consumer`: as long as no critical section gets in the way of a poll of another thread, the operations return what
they return one after the other, in the order in which they end, and leave the same positions.  A critical section gets
in the way when it stores a position that the poll has read, changes the assignment after the poll has read an entry, or
changes where a poll starts.
-/

namespace RMemQueue

open Conc

variable {π : Type}

namespace BaseConsumer

variable {c : BaseConsumer} {s t : Session π}

/-! ### A message is returned once -/

/-- The consumer reads on behind the message, within the log of its partition. -/
def Behind (s : Session π) (m : StoredMessage) : Prop :=
  ∃ p o, s.broker.backend.partition? m.place.1 m.place.2 = some p ∧ s.state.position.lookup m.place = some o ∧
    (p.abs.dropped : Int) ≤ o ∧ o ≤ p.abs.next ∧ m.offset < o

private theorem Behind.congr {m : StoredMessage} (h : Behind s m) (hb : t.broker = s.broker)
    (hl : t.state.position.lookup m.place = s.state.position.lookup m.place) : Behind t m := by
  unfold Behind at h ⊢
  rwa [hb, hl]

/-- Where a message that is fetched comes from. -/
private theorem log_of_fetch {b : Broker π} {key : String × Int} {position : Option Int} {groupId : Option String}
    {m : StoredMessage}
    (h : ((Broker.fetchOneFromPosition key.1 key.2 position groupId).run b).1 = .ok (some m)) :
    ∃ p, b.backend.partition? key.1 key.2 = some p ∧
      b.start? p.watermarks.1 key.1 key.2 position groupId = some m.offset ∧
      (p.abs.dropped : Int) ≤ m.offset ∧ m.offset < p.abs.next := by
  obtain ⟨-, p, o, hp, hst, hread⟩ := Broker.fetch_eq_ok h
  obtain ⟨n, rfl, hg⟩ := p.readOne_eq_some_iff.1 hread
  have hoff := (p.stamped_of_get? hg).1
  have hbounds := TrimmedLog.bounds_of_get? hg
  refine ⟨p, hp, ?_, ?_, ?_⟩
  · rw [hoff]
    exact hst
  · omega
  · omega

/-- A message that is returned is behind the consumer. -/
private theorem behind_delivered {key : String × Int} {position : Option Int} {m : StoredMessage} {idx : Nat}
    (hf : ((Broker.fetchOneFromPosition key.1 key.2 position c.groupId).run s.broker).1 = .ok (some m)) :
    Behind { s with state := s.state.delivered key m.offset idx } m := by
  obtain ⟨p, hp, -, hd, hn⟩ := log_of_fetch hf
  have hplace : m.place = key := Broker.place_of_fetch hf
  refine ⟨p, m.offset + 1, ?_, ?_, by omega, by omega, by omega⟩
  · rw [hplace]
    exact hp
  · rw [hplace]
    exact AList.lookup_insert _

/-- The step lemma: a round leaves the consumer behind the message and does not return it. -/
private theorem Behind.round {m : StoredMessage} (h : Behind s m) (idx : Nat) :
    (∀ s', c.pollRound s idx = .inr s' → Behind s' m) ∧
      ∀ o s', c.pollRound s idx = .inl (o, s') → Behind s' m ∧ o ≠ .ok (some m) := by
  have hround := roundOn_pollRound c s idx
  obtain ⟨p, o, hp, hl, hd, hn, hlt⟩ := h
  have hbehind : Behind s m := ⟨p, o, hp, hl, hd, hn, hlt⟩
  -- the entry of the partition starts at the stored position
  have hstart : ∀ {position : Option Int} {oldest o' : Int},
      s.state.pollEntry idx = some (m.place, position, false) →
      s.broker.start? oldest m.place.1 m.place.2 position c.groupId = some o' → o' = o := by
    intro position oldest o' he hst
    obtain ⟨rfl, -⟩ := ConsumerState.pollEntry_eq_some he
    rw [hl] at hst
    exact (Option.some.inj hst).symm
  generalize c.pollRound s idx = r at hround
  cases hround with
  | passed => exact ⟨by rintro s' ⟨⟩; exact hbehind, by rintro o' s' ⟨⟩⟩
  | @moved key position topic partition o' he hf =>
    refine ⟨?_, by rintro o' s' ⟨⟩⟩
    rintro s' ⟨⟩
    refine hbehind.congr rfl (AList.lookup_insert_ne ?_)
    rintro rfl
    obtain ⟨-, p', o'', hp', -, hst, hout⟩ := Broker.fetch_eq_outOfRange hf
    obtain rfl := Option.some.inj (hp.symm.trans hp')
    obtain rfl := hstart he hst
    omega
  | @returned key position m' he hf =>
    refine ⟨by rintro s' ⟨⟩, ?_⟩
    rintro o' s' ⟨⟩
    have hplace : m'.place = key := Broker.place_of_fetch hf
    by_cases hk : m.place = key
    · subst hk
      obtain ⟨p', hp', hst, -, hn'⟩ := log_of_fetch hf
      obtain rfl := Option.some.inj (hp.symm.trans hp')
      have ho := hstart he hst
      constructor
      · exact ⟨p, m'.offset + 1, hp, AList.lookup_insert _, by omega, by omega, by omega⟩
      · intro heq
        obtain rfl := Option.some.inj (Outcome.ok.inj heq)
        omega
    · constructor
      · exact hbehind.congr rfl (AList.lookup_insert_ne hk)
      · intro heq
        obtain rfl := Option.some.inj (Outcome.ok.inj heq)
        exact hk hplace
  | failed ho =>
    refine ⟨by rintro s' ⟨⟩, ?_⟩
    rintro o' s' ⟨⟩
    exact ⟨hbehind, ho _⟩

private theorem Behind.pollFrom {m : StoredMessage} (h : Behind s m) (start len : Nat) (l : List Nat) :
    Behind ((c.pollFrom start len l).run s).2 m ∧ ((c.pollFrom start len l).run s).1 ≠ .ok (some m) := by
  induction l generalizing s with
  | nil => exact ⟨h, by rw [run_pollFrom_nil]; simp⟩
  | cons i l ih =>
    obtain ⟨hnext, hend⟩ := h.round (c := c) ((start + i) % len)
    rw [run_pollFrom_cons]
    rcases hround : c.pollRound s ((start + i) % len) with ⟨o, s'⟩ | s'
    · exact hend o s' hround
    · exact ih (hnext s' hround)

/-- The run lemma: a poll does not return a message that is behind the consumer. -/
theorem Behind.pollOnce {m : StoredMessage} (h : Behind s m) :
    Behind (c.pollOnce.run s).2 m ∧ (c.pollOnce.run s).1 ≠ .ok (some m) := by
  rw [run_pollOnce]
  split
  · exact ⟨h, by simp⟩
  · exact h.pollFrom _ _ _

private theorem behind_of_pollFrom {m : StoredMessage} {start len : Nat} {l : List Nat}
    (h : ((c.pollFrom start len l).run s).1 = .ok (some m)) : Behind ((c.pollFrom start len l).run s).2 m := by
  induction l generalizing s with
  | nil =>
    rw [run_pollFrom_nil] at h
    cases h
  | cons i l ih =>
    rw [run_pollFrom_cons] at h ⊢
    have hround := roundOn_pollRound c s ((start + i) % len)
    generalize c.pollRound s ((start + i) % len) = r at h hround
    cases hround with
    | passed => exact ih h
    | moved => exact ih h
    | returned he hf =>
      obtain rfl := Option.some.inj (Outcome.ok.inj h)
      exact behind_delivered hf
    | failed ho => exact absurd h (ho _)

theorem behind_of_pollOnce {m : StoredMessage} (h : (c.pollOnce.run s).1 = .ok (some m)) :
    Behind (c.pollOnce.run s).2 m := by
  rw [run_pollOnce] at h ⊢
  split
  · rename_i hlen
    rw [if_pos hlen] at h
    cases h
  · rename_i hlen
    rw [if_neg hlen] at h
    exact behind_of_pollFrom h

end BaseConsumer

variable {ι : Type}

/-- The operations that have ended return what they return in some order, one after the other; once none is in flight,
the stored positions are those that they leave in that order. -/
def Sequential (c : BaseConsumer) (s₀ : Session π) (w : System ι Request (Session π) RmqError Reply) : Prop :=
  ∃ order : List (ι × Request × Outcome RmqError Reply), order.Perm w.history ∧
    (inOrder (Request.body c) s₀ (order.map (·.2.1))).1 = order.map (·.2) ∧
    ((∀ i, w.running i = none) → ∀ key, (inOrder (Request.body c) s₀ (order.map (·.2.1))).2.state.position.lookup key =
      w.shared.state.position.lookup key)

/-- Between two polls that return the same message another operation has ended. -/
def NeverTwice (w : System ι Request (Session π) RmqError Reply) : Prop :=
  ∀ h₁ h₂ h₃ i j m, w.history = h₁ ++ (i, .pollOnce, .ok (.message (some m))) :: h₂ ++
    (j, .pollOnce, .ok (.message (some m))) :: h₃ → ∃ e ∈ h₂, e.2.1 ≠ .pollOnce

private theorem behind_of_polls {c : BaseConsumer} {s t : Session π} {m : StoredMessage}
    {history : List (ι × Request × Outcome RmqError Reply)} (h : Ordered (Request.body c) s history t)
    (hpolls : ∀ e ∈ history, e.2.1 = .pollOnce) (hm : BaseConsumer.Behind s m) : BaseConsumer.Behind t m := by
  induction history generalizing s with
  | nil =>
    obtain rfl : s = t := congrArg Prod.snd h
    exact hm
  | cons e history ih =>
    obtain ⟨i, r, o⟩ := e
    obtain ⟨hr, hrest⟩ := List.forall_mem_cons.1 hpolls
    obtain rfl : r = .pollOnce := hr
    apply ih (ordered_cons.1 h).2 hrest
    rw [Request.body, snd_run_reply]
    exact hm.pollOnce.1

private theorem poll_of_body {c : BaseConsumer} {s : Session π} {m : StoredMessage}
    (h : ((Request.pollOnce.body c).run s).1 = .ok (.message (some m))) : (c.pollOnce.run s).1 = .ok (some m) := by
  rw [Request.body, reply, Act.run_bind] at h
  rcases hrun : c.pollOnce.run s with ⟨r | e | _, t⟩
  · rw [hrun] at h
    have hr := Reply.message.inj (Outcome.ok.inj h)
    rw [hr]
  · rw [hrun] at h
    cases h
  · rw [hrun] at h
    cases h

/-- Polls that run one after the other do not return a message twice. -/
private theorem neverTwice_of_ordered {c : BaseConsumer} {s₀ t : Session π}
    {w : System ι Request (Session π) RmqError Reply} (h : Ordered (Request.body c) s₀ w.history t) : NeverTwice w := by
  intro h₁ h₂ h₃ i j m hw
  by_contra hcon
  have hpolls : ∀ e ∈ h₂, e.2.1 = .pollOnce := fun e he => by_contra fun hne => hcon ⟨e, he, hne⟩
  rw [hw, List.append_assoc] at h
  obtain ⟨u, -, h⟩ := ordered_append.1 h
  obtain ⟨hfirst, h⟩ := ordered_cons.1 h
  obtain ⟨v, hbetween, h⟩ := ordered_append.1 h
  obtain ⟨hsecond, -⟩ := ordered_cons.1 h
  have hbehind : BaseConsumer.Behind ((Request.pollOnce.body c).run u).2 m := by
    rw [Request.body, snd_run_reply]
    exact BaseConsumer.behind_of_pollOnce (poll_of_body hfirst)
  exact (behind_of_polls hbetween hpolls hbehind).pollOnce.2 (poll_of_body hsecond)

/-- The critical sections of the operations on a consumer, in any interleaving. -/
abbrev runShared [DecidableEq ι] (c : BaseConsumer) (s₀ : Session π) (sched : List (Choice ι Request)) :
    System ι Request (Session π) RmqError Reply :=
  (System.init s₀).exec (Request.body c) sched

/-- The places of the threads after a schedule. -/
def sharedPlaces [DecidableEq ι] (c : BaseConsumer) (s₀ : Session π) (sched : List (Choice ι Request)) :
    ι → Option (SharedPoint π) :=
  (sharedPoints c).track (.init s₀) (fun _ => none) sched

/-- The run lemma. -/
private theorem follows_exec [DecidableEq ι] (c : BaseConsumer) (s₀ : Session π) {sched : List (Choice ι Request)}
    (hcall : ∀ i r, .call i r ∈ sched → r.Shared)
    (hsched : ∀ initial x rest, sched = initial ++ x :: rest →
      Undisturbed (runShared c s₀ initial) (sharedPlaces c s₀ initial) x) :
    ∃ t, Follows c s₀ (runShared c s₀ sched) (sharedPlaces c s₀ sched) t := by
  induction sched using List.reverseRecOn with
  | nil =>
    have hvalid : ∀ i r x p, (System.init s₀ : SharedRun ι π).running i = some (r, x) → (none : Option (SharedPoint π)) =
        some p → p.Valid c s₀.broker s₀.state r := fun i r x p hr => by cases hr
    exact ⟨s₀, rfl, rfl, rfl, rfl, hvalid, .refl _ fun i => rfl⟩
  | append_singleton sched x ih =>
    obtain ⟨t, ht⟩ := ih (fun i r hr => hcall i r (List.mem_append_left _ hr)) fun initial y rest h =>
      hsched initial y (rest ++ [x]) (by rw [h, List.append_assoc]; rfl)
    have hplaced : (sharedPoints c).Placed (runShared c s₀ sched) (sharedPlaces c s₀ sched) :=
      Points.placed_exec (Points.placed_init s₀ _) sched
    have hplaces : sharedPlaces c s₀ (sched ++ [x]) =
        (sharedPoints c).move (runShared c s₀ sched) (sharedPlaces c s₀ sched) x := Points.track_concat ..
    have hrun : runShared c s₀ (sched ++ [x]) = (runShared c s₀ sched).next (Request.body c) x := by
      rw [runShared, System.exec_append]
      rfl
    rw [hplaces, hrun]
    refine ht.next hplaced (fun i r hx => ?_) (hsched sched x [] rfl)
    exact hcall i r (by simp [hx])

/-- Concurrent operations on one consumer are sequential as long as no critical section updates the state in the way of
a poll of another thread that has read it. -/
theorem shared_consumer [DecidableEq ι] (c : BaseConsumer) (s₀ : Session π) (sched : List (Choice ι Request))
    (hcall : ∀ i r, .call i r ∈ sched → r.Shared)
    (hsched : ∀ initial x rest, sched = initial ++ x :: rest →
      Undisturbed (runShared c s₀ initial) (sharedPlaces c s₀ initial) x) :
    Sequential c s₀ (runShared c s₀ sched) ∧ NeverTwice (runShared c s₀ sched) := by
  obtain ⟨t, ht⟩ := follows_exec c s₀ hcall hsched
  refine ⟨⟨_, .refl _, ?_, fun hidle key => ?_⟩, neverTwice_of_ordered ht.ordered⟩
  · rw [show inOrder _ _ _ = _ from ht.ordered]
  · rw [show inOrder _ _ _ = _ from ht.ordered]
    refine ht.trails.level key fun i => ?_
    rw [looked_of_idle (hidle i)]
    exact List.not_mem_nil

private def spares [Fintype ι] [DecidableEq ι] (w : SharedRun ι π) (place : ι → Option (SharedPoint π)) (i : ι)
    (u : StateUpdate) : Bool :=
  decide (∀ j, j ≠ i → (w.running j).isSome →
    ((place j).bind SharedPoint.entries).all fun e => decide (u.Spares w.shared.state e.1 e.2))

private def calm [Fintype ι] [DecidableEq ι] (c : BaseConsumer) (w : SharedRun ι π)
    (place : ι → Option (SharedPoint π)) : List (Choice ι Request) → Bool
  | [] => true
  | .call i r :: sched => calm c (w.next (Request.body c) (.call i r)) ((sharedPoints c).move w place (.call i r)) sched
  | .step i :: sched => ((place i).bind SharedPoint.stores).all (spares w place i) &&
      calm c (w.next (Request.body c) (.step i)) ((sharedPoints c).move w place (.step i)) sched

private theorem undisturbed_of_calm [Fintype ι] [DecidableEq ι] {c : BaseConsumer} {w : SharedRun ι π}
    {place : ι → Option (SharedPoint π)} {sched : List (Choice ι Request)} (h : calm c w place sched = true) :
    ∀ initial x rest, sched = initial ++ x :: rest →
      Undisturbed (w.exec (Request.body c) initial) ((sharedPoints c).track w place initial) x := by
  induction sched generalizing w place with
  | nil => simp
  | cons y sched ih =>
    rintro initial x rest hsched
    obtain ⟨hfirst, hrest⟩ : Undisturbed w place y ∧
        calm c (w.next (Request.body c) y) ((sharedPoints c).move w place y) sched = true := by
      cases y with
      | call i r => exact ⟨trivial, h⟩
      | step i =>
        obtain ⟨hfirst, hrest⟩ := Bool.and_eq_true_iff.1 h
        refine ⟨fun p u _ hp hu j q x entries hj hr hq he => ?_, hrest⟩
        rw [hp, Option.bind_some, hu, Option.all_some] at hfirst
        have hspares := of_decide_eq_true hfirst j hj hr
        rw [hq, Option.bind_some, he, Option.all_some] at hspares
        exact of_decide_eq_true hspares
    rcases initial with _ | ⟨z, initial⟩
    · obtain ⟨rfl, -⟩ := List.cons.inj hsched
      exact hfirst
    · obtain ⟨rfl, htail⟩ := List.cons.inj hsched
      exact ih hrest initial x rest htail

/-- A consumer of both partitions of the topic `t`, the first of which holds three messages. -/
private def threeMessages (b : Broker RoundRobinPartitioner) : Session RoundRobinPartitioner :=
  let send (b : Broker RoundRobinPartitioner) : Broker RoundRobinPartitioner :=
    ((Broker.produce "t" (some 0) (.raw none none) none none ⟨7, 0, fun _ => 0⟩).run b).2
  ((BaseConsumer.assign ⟨[⟨"t", 0, .stored⟩, ⟨"t", 1, .stored⟩]⟩).run ⟨send (send (send b)), .new⟩).2

/-- Thread 0 polls twice.  Its second poll has passed the empty partition when thread 1 polls, and has fetched when
thread 2 stores the position of another partition. -/
private def overlappingPolls : List (Choice (Fin 3) Request) :=
  .call 0 .pollOnce :: List.replicate 10 (.step 0) ++ .call 0 .pollOnce :: List.replicate 9 (.step 0) ++
    .call 1 .pollOnce :: List.replicate 15 (.step 1) ++ List.replicate 5 (.step 0) ++
    [.call 2 (.storeOffset "u" 0 5), .step 2, .step 0]

/-- The offset of the message that a poll returns. -/
private def returnedOffset : Outcome RmqError Reply → Option Int
  | .ok (.message (some m)) => some m.offset
  | _ => none

theorem shared_consumer_overlapping : ∃ b : Broker RoundRobinPartitioner,
    Broker.new ((RmqClientConfig.new.set ConfigKeys.brokerId "b").set ConfigKeys.numPartitions "2") = .ok b ∧
    let c : BaseConsumer := ⟨none, "m"⟩
    let w := runShared c (threeMessages b) overlappingPolls
    w.history.map (fun e => (e.1, returnedOffset e.2.2)) = [(0, some 0), (1, some 1), (2, none), (0, some 2)] ∧
      Sequential c (threeMessages b) w ∧ NeverTwice w := by
  refine ⟨_, rfl, by decide +kernel, shared_consumer ⟨none, "m"⟩ _ _ (fun i r hr => ?_) ?_⟩
  · have hr' : r = .pollOnce ∨ r = .storeOffset "u" 0 5 := by
      simp only [overlappingPolls, List.mem_append, List.mem_cons, List.mem_replicate, Choice.call.injEq,
        reduceCtorEq, and_false, List.not_mem_nil, or_false] at hr
      tauto
    rcases hr' with rfl | rfl <;> trivial
  · exact undisturbed_of_calm (by decide +kernel)

/-- Two threads that poll; the first one takes nine steps, up to its fetch, before the other one polls as a whole. -/
def twoPolls : List (Choice Nat Request) :=
  [.call 0 .pollOnce, .call 1 .pollOnce] ++ List.replicate 9 (.step 0) ++ List.replicate 10 (.step 1) ++ [.step 0]

/-- A thread that seeks while another one, which polls, is about to store its position. -/
def seekDuringPoll : List (Choice Nat Request) :=
  .call 0 .pollOnce :: List.replicate 9 (.step 0) ++
    [.call 1 (.seek "t" 0 (.offset 7)), .step 1, .step 0]

/-- The two polls return the same message, and the poll overwrites the position that the seek has stored. -/
theorem twoPolls_not_sequential : ∃ b : Broker RoundRobinPartitioner,
    Broker.new (RmqClientConfig.new.set ConfigKeys.brokerId "b") = .ok b ∧
    let c : BaseConsumer := ⟨none, "m"⟩
    ((∀ i r, .call i r ∈ twoPolls → r.Shared) ∧
      ¬Sequential c (oneMessage b) (runShared c (oneMessage b) twoPolls) ∧
      ¬NeverTwice (runShared c (oneMessage b) twoPolls)) ∧
    (∀ i r, .call i r ∈ seekDuringPoll → r.Shared) ∧
      ¬Sequential c (oneMessage b) (runShared c (oneMessage b) seekDuringPoll) := by
  refine ⟨_, rfl, ⟨?_, ?_, ?_⟩, ?_, ?_⟩
  · intro i r hr
    have hr' : i = 0 ∧ r = .pollOnce ∨ i = 1 ∧ r = .pollOnce := by simpa [twoPolls] using hr
    rcases hr' with ⟨-, rfl⟩ | ⟨-, rfl⟩ <;> trivial
  · rintro ⟨order, hperm, hret, -⟩
    -- one after the other, one of the polls returns `None`
    have hcalls : (order.map (·.2.1)).Perm (List.replicate 2 .pollOnce) := hperm.map (·.2.1)
    rw [List.perm_replicate.1 hcalls] at hret
    have hmem : Outcome.ok (.message none) ∈ (order.map (·.2)).map (·.2) := by
      rw [← hret]
      decide +kernel
    rw [List.map_map] at hmem
    have hnone := (hperm.map _).mem_iff.1 hmem
    revert hnone
    decide +kernel
  · intro h
    obtain ⟨e, he, -⟩ := h [] [] [] 1 0 _ rfl
    cases he
  · intro i r hr
    have hr' : i = 0 ∧ r = .pollOnce ∨ i = 1 ∧ r = .seek "t" 0 (.offset 7) := by simpa [seekDuringPoll] using hr
    rcases hr' with ⟨-, rfl⟩ | ⟨-, rfl⟩ <;> trivial
  · rintro ⟨order, hperm, hret, hpos⟩
    have hstored := hpos (by intro i; rcases i with _ | _ | i <;> rfl) ("t", 0)
    rcases List.perm_pair.1 hperm with rfl | rfl
    · -- a poll after the seek returns nothing
      have hout := congrArg (List.map (·.2)) hret
      revert hout
      decide +kernel
    · -- a seek after the poll leaves its own position
      revert hstored
      decide +kernel

end RMemQueue
