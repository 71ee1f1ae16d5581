import RMemQueue.ProduceRun
import RMemQueue.Lib.Turns
import Mathlib.Data.Int.Interval

/-!
# Round robin over several topics (`partitioner.rs`, `broker.rs`)

All topics share one counter.  The partition of a record is the remainder of the counter, so that a topic is served
evenly if and only if its own calls find the counter at different remainders within each round (`routes_even_iff`).
Calls to other topics in between, and the wrap-around of the counter, may repeat a remainder.
-/

namespace RMemQueue

open Conc

namespace Broker

section

variable {π : Type} [Partitioner π]

/-- The partitions to which the records of a topic are routed, when the calls are executed one after the other; there they
are stored (`destinations_sublist_routes`). -/
def routes (topic : String) : Broker π → List ProduceCall → List Int
  | _, [] => []
  | b, c :: calls => (if c.topic = topic then (b.choice c).1.toList else []) ++ routes topic (c.body.run b).2 calls

variable {b b' : Broker π} {topic : String}

/-- A record that is stored is where it was routed to. -/
theorem choice_of_run {c : ProduceCall} {r : RecordMetadata} (h : b.Running) (hrun : c.body.run b = (.ok r, b')) :
    r.topic = c.topic ∧ (b.choice c).1 = some r.partition := by
  have hends := ends_run h c
  rw [hrun] at hends
  cases hends with
  | stored hchoice => exact ⟨rfl, hchoice⟩

/-- The partition of the record that a call to the topic has stored. -/
def destination (topic : String) : Outcome RmqError RecordMetadata → List Int
  | .ok r => if r.topic = topic then [r.partition] else []
  | _ => []

/-- The partitions of the records of a topic that the calls store. -/
def destinations (topic : String) : Broker π → List ProduceCall → List Int
  | _, [] => []
  | b, c :: calls => destination topic (c.body.run b).1 ++ destinations topic (c.body.run b).2 calls

/-- The records are stored where they are routed to; a call that fails stores none. -/
theorem destinations_sublist_routes (h : b.Running) (topic : String) (calls : List ProduceCall) :
    (destinations topic b calls).Sublist (routes topic b calls) := by
  induction calls generalizing b with
  | nil => exact List.Sublist.refl []
  | cons c calls ih =>
    refine List.Sublist.append ?_ (ih (running_run h c))
    generalize hrun : c.body.run b = ended
    obtain ⟨o, b'⟩ := ended
    cases o with
    | err e => exact List.nil_sublist _
    | panic => exact List.nil_sublist _
    | ok r =>
      obtain ⟨htopic, hchoice⟩ := choice_of_run h hrun
      show (if r.topic = topic then [r.partition] else []).Sublist _
      rw [htopic, hchoice]
      exact List.Sublist.refl _

/-- The routes of the first calls are first among the routes. -/
private theorem routes_take (b : Broker π) (topic : String) (calls : List ProduceCall) (k : Nat) :
    ∃ m, routes topic b (calls.take k) = (routes topic b calls).take m := by
  induction calls generalizing b k with
  | nil => exact ⟨0, by rw [List.take_nil]; rfl⟩
  | cons c calls ih =>
    cases k with
    | zero => exact ⟨0, rfl⟩
    | succ k =>
      obtain ⟨m, hm⟩ := ih (c.body.run b).2 k
      refine ⟨(if c.topic = topic then (b.choice c).1.toList else []).length + m, ?_⟩
      rw [List.take_succ_cons, routes, routes, hm, List.take_length_add_append]

/-- A call is routed to one partition at most. -/
private theorem exists_take_routes (b : Broker π) (topic : String) (calls : List ProduceCall) (m : Nat) :
    ∃ k, routes topic b (calls.take k) = (routes topic b calls).take m := by
  induction calls generalizing b m with
  | nil => exact ⟨0, by rw [routes, List.take_nil, List.take_nil]; rfl⟩
  | cons c calls ih =>
    have hpiece : (if c.topic = topic then (b.choice c).1.toList else []) = [] ∨
        ∃ p, (if c.topic = topic then (b.choice c).1.toList else []) = [p] := by
      split
      · cases (b.choice c).1 with
        | none => exact Or.inl rfl
        | some p => exact Or.inr ⟨p, rfl⟩
      · exact Or.inl rfl
    rcases hpiece with hnone | ⟨p, hone⟩
    · obtain ⟨k, hk⟩ := ih (c.body.run b).2 m
      exact ⟨k + 1, by rw [List.take_succ_cons, routes, routes, hnone, hk, List.nil_append, List.nil_append]⟩
    · cases m with
      | zero => exact ⟨0, rfl⟩
      | succ m =>
        obtain ⟨k, hk⟩ := ih (c.body.run b).2 m
        refine ⟨k + 1, ?_⟩
        rw [List.take_succ_cons, routes, routes, hone, hk]
        rfl

/-! ### The number of partitions of a topic -/

omit [Partitioner π] in
private theorem count_topicFor_of_later (hl : b.Later b')
    (hnew : b.backend.topic? topic = none → ∀ t, b'.backend.topic? topic = some t →
      t.partitionCount = b.config.defaultNumPartitions) :
    (b'.topicFor topic).partitionCount = (b.topicFor topic).partitionCount := by
  cases ht : b.backend.topic? topic with
  | some t =>
    have hcount := hl.backend.count? (show b.backend.count? topic = some t.partitionCount by
      rw [InMemoryBackend.count?, ht]; rfl)
    obtain ⟨t', ht', hn⟩ := Option.map_eq_some_iff.1 hcount
    rw [topicFor, topicFor, ht, ht', Option.getD_some, Option.getD_some, hn]
  | none =>
    rw [topicFor, topicFor, ht, Option.getD_none]
    cases ht' : b'.backend.topic? topic with
    | none => exact congrArg (fun c : BrokerConfig => c.defaultNumPartitions) hl.config
    | some t => exact hnew ht t ht'

/-- An append to a partition creates no topic. -/
private theorem topics_produce (e : InMemoryBackend) (topic : String) (partition : Int) (content : Content)
    (headers : Option OwnedHeaders) (timestamp : Option Int) (clock : Clock) :
    (((InMemoryBackend.produce topic partition content headers timestamp clock).run e).2).topics = e.topics := by
  have hread : ∀ {α : Type} {x : BackendM α}, x.ReadOnly →
      x.Always fun e e' : InMemoryBackend => e'.topics = e.topics := fun hx => hx.always fun _ => rfl
  have h : (InMemoryBackend.produce topic partition content headers timestamp clock).Always
      fun e e' : InMemoryBackend => e'.topics = e.topics := by
    refine (hread InMemoryBackend.readOnly_checkShutdown).bind fun _ => ?_
    refine (hread (InMemoryBackend.readOnly_getTopic topic)).bind fun a => ?_
    refine Act.Always.bind (Act.always_step fun e => ?_) fun _ => trivial
    split <;> rfl
  exact h.run (fun _ => rfl) (fun _ _ _ h₁ h₂ => h₂.trans h₁) e

/-- A call creates its own topic only, with the default number of partitions. -/
private theorem count_topicFor_run (h : b.Running) (c : ProduceCall) (topic : String) :
    ((c.body.run b).2.topicFor topic).partitionCount = (b.topicFor topic).partitionCount := by
  refine count_topicFor_of_later (later_run b c) fun hnone t ht => ?_
  -- the topics after the call are those after `ensure_topic`
  have hproduce : ∀ (e : InMemoryBackend) (p : Int),
      e.Later ((InMemoryBackend.produce c.topic p c.content c.headers c.timestamp c.clock).run e).2 := by
    intro e p
    have halways := InMemoryBackend.always_produce c.topic p c.content c.headers c.timestamp c.clock
    exact Act.Always.run halways .refl (fun _ _ _ => .trans) e
  have hensured : (c.body.run b).2.backend.topics = (b.ensured c.topic).topics ∧
      (b.ensured c.topic).Later (c.body.run b).2.backend := by
    rw [run_produce h]
    split
    · exact ⟨rfl, .refl _⟩
    · split
      · exact ⟨rfl, .refl _⟩
      · exact ⟨topics_produce .., hproduce ..⟩
  have htopic := topic?_ensured b c.topic topic
  split at htopic
  · rename_i heq
    obtain ⟨t', ht', hlater⟩ := hensured.2.topic? htopic
    obtain rfl := Option.some.inj (ht'.symm.trans ht)
    rw [hlater.partitionCount, topicFor, ← heq, hnone]
    rfl
  · rw [hnone, ← InMemoryBackend.lookup_eq_none_iff, ← hensured.1, InMemoryBackend.lookup_eq_none_iff] at htopic
    rw [htopic] at ht
    cases ht

end

/-! ### The counter -/

variable {b : Broker RoundRobinPartitioner} {topic : String}

/-- The counter advances with each call to a topic that has a partition. -/
private theorem counter_run (h : b.Running) {c : ProduceCall} (hc : c.partition = none) :
    (c.body.run b).2.partitioner.counter =
      if 1 ≤ (b.topicFor c.topic).partitionCount then i32Wrapping (b.partitioner.counter + 1)
      else b.partitioner.counter := by
  have hchoice : (b.choice c).2.counter =
      if 1 ≤ (b.topicFor c.topic).partitionCount then i32Wrapping (b.partitioner.counter + 1)
      else b.partitioner.counter := by
    rw [choice, hc]
    show (b.partitioner.partition (b.topicFor c.topic).partitionCount).2.counter = _
    rw [RoundRobinPartitioner.partition]
    by_cases hn : 1 ≤ (b.topicFor c.topic).partitionCount
    · rw [if_neg (by omega), if_pos hn]
    · rw [if_pos (by omega), if_neg hn]
  rw [run_produce h]
  split
  · rw [if_neg (by omega)]
  · rw [← hchoice]
    -- the counter stays advanced where the choice overflows or the append fails
    split
    · rename_i hp
      rw [hp]
    · rename_i hp
      rw [hp]

/-- The values of the counter at the calls to a topic.  The counter advances with each call to a topic that has a
partition, and wraps around. -/
def counters (partitions : String → Int) (topic : String) : Int → List ProduceCall → List Int
  | _, [] => []
  | k, c :: calls => (if c.topic = topic then [k] else []) ++
      counters partitions topic (if 1 ≤ partitions c.topic then i32Wrapping (k + 1) else k) calls

/-- The remainders of the counter at the calls to a topic of `n` partitions, without the calls that overflow. -/
def remainders (b : Broker RoundRobinPartitioner) (topic : String) (n : Int) (calls : List ProduceCall) : List Int :=
  ((counters (fun t => (b.topicFor t).partitionCount) topic b.partitioner.counter calls).filter
    fun k => k.tmod n + n ≤ i32Max).map (· % n)

/-- One call to the topic. -/
private theorem choice_eq {c : ProduceCall} (hc : c.partition = none) {n : Int}
    (hn : (b.topicFor c.topic).partitionCount = n) (h1 : 1 ≤ n) :
    (b.choice c).1.toList = (([b.partitioner.counter].filter fun k => k.tmod n + n ≤ i32Max).map (· % n)) := by
  have hmod : (b.partitioner.counter.tmod n + n).tmod n = b.partitioner.counter % n := by
    have hlow := Int.lt_tmod_of_pos b.partitioner.counter (by omega : 0 < n)
    rw [Int.tmod_eq_emod_of_nonneg (by omega), Int.add_emod_right]
    conv => rhs; rw [← Int.tmod_add_mul_tdiv b.partitioner.counter n]
    rw [Int.add_mul_emod_self_left]
  by_cases hle : b.partitioner.counter.tmod n + n ≤ i32Max
  · have hsome : (b.choice c).1 = some (b.partitioner.counter % n) := by
      rw [choice_roundRobin b hc, hn]
      exact (RoundRobinPartitioner.partition_eq_some h1).2 ⟨hmod.symm, hle⟩
    rw [hsome]
    simp [hle]
  · have hnone : (b.choice c).1 = none := by
      rw [choice_roundRobin b hc, hn, Option.eq_none_iff_forall_ne_some]
      exact fun p hp => hle ((RoundRobinPartitioner.partition_eq_some h1).1 hp).2
    rw [hnone]
    simp [hle]

/-- The records are routed to the remainders of the counter. -/
theorem routes_eq (h : b.Running) {calls : List ProduceCall} (hc : ∀ c ∈ calls, c.partition = none) {n : Int}
    (hn : (b.topicFor topic).partitionCount = n) (h1 : 1 ≤ n) : routes topic b calls = b.remainders topic n calls := by
  induction calls generalizing b with
  | nil => rfl
  | cons c calls ih =>
    have hnext := ih (running_run h c) (fun c' hc' => hc c' (List.mem_cons_of_mem _ hc'))
      ((count_topicFor_run h c topic).trans hn)
    rw [routes, hnext, remainders, remainders, counters, List.filter_append, List.map_append]
    simp only [count_topicFor_run h, counter_run h (hc c (List.mem_cons_self ..))]
    congr 1
    split
    · rename_i ht
      exact choice_eq (hc c (List.mem_cons_self ..)) (ht ▸ hn) h1
    · rfl

end Broker

open Broker

/-- **Round robin over several topics.**  After every number of calls the records of a topic are spread evenly over its
partitions if and only if no two calls of a round to the topic find the shared counter at the same remainder. -/
theorem routes_even_iff {b : Broker RoundRobinPartitioner} (h : b.Running) {calls : List ProduceCall}
    (hc : ∀ c ∈ calls, c.partition = none) {topic : String} {n : Int} (hn : (b.topicFor topic).partitionCount = n)
    (h1 : 1 ≤ n) :
    (∀ k p q, 0 ≤ p → p < n → 0 ≤ q → q < n →
      (routes topic b (calls.take k)).count p ≤ (routes topic b (calls.take k)).count q + 1) ↔
      InTurns n.toNat (b.remainders topic n calls) := by
  have hcard : (Finset.Ico 0 n).card = n.toNat := by rw [Int.card_Ico, Int.sub_zero]
  have hrange : ∀ p ∈ routes topic b calls, p ∈ Finset.Ico 0 n := by
    intro p hp
    rw [routes_eq h hc hn h1, remainders] at hp
    obtain ⟨k, -, rfl⟩ := List.mem_map.1 hp
    exact Finset.mem_Ico.2 ⟨Int.emod_nonneg _ (by omega), Int.emod_lt_of_pos _ (by omega)⟩
  rw [← hcard, ← routes_eq h hc hn h1, ← evenOn_take_iff hrange]
  -- the prefixes of the routes are the routes of the prefixes
  constructor
  · intro heven m p hp q hq
    obtain ⟨k, hk⟩ := exists_take_routes b topic calls m
    rw [Finset.mem_Ico] at hp hq
    rw [← hk]
    exact heven k p q hp.1 hp.2 hq.1 hq.2
  · intro heven k p q hp0 hpn hq0 hqn
    obtain ⟨m, hm⟩ := routes_take b topic calls k
    rw [hm]
    exact heven m p (Finset.mem_Ico.2 ⟨hp0, hpn⟩) q (Finset.mem_Ico.2 ⟨hq0, hqn⟩)

/-- A record for a topic without an explicit partition. -/
private def recordFor (topic : String) : ProduceCall := ⟨topic, none, .raw none none, none, none, ⟨7, 0, fun _ => 0⟩⟩

/-- The topic is served in turns, although another topic is served in between. -/
theorem routes_even_two : ∃ b : Broker RoundRobinPartitioner, Broker.new (configOf "2") = .ok b ∧
    ∀ k p q, 0 ≤ p → p < 2 → 0 ≤ q → q < 2 →
      (routes "t" b (["t", "u", "u", "t"].map recordFor |>.take k)).count p ≤
        (routes "t" b (["t", "u", "u", "t"].map recordFor |>.take k)).count q + 1 := by
  refine ⟨_, rfl, (routes_even_iff ⟨rfl, rfl⟩ ?_ (by decide +kernel) (by decide)).2 ?_⟩
  · intro c hc
    obtain ⟨topic, -, rfl⟩ := List.mem_map.1 hc
    rfl
  · rw [show remainders _ "t" 2 _ = [0, 1] by decide +kernel]
    intro i j a hij _ hi hj
    obtain ⟨hj2, -⟩ := List.getElem?_eq_some_iff.1 hj
    obtain rfl : j = 1 := by simp at hj2; omega
    obtain rfl : i = 0 := by omega
    cases hi
    cases hj

/-- A topic with two partitions gets both of its records into the first one. -/
theorem routes_uneven : ∃ b : Broker RoundRobinPartitioner, Broker.new (configOf "2") = .ok b ∧ b.Running ∧
    (b.topicFor "t").partitionCount = 2 ∧ ¬∀ k p q, 0 ≤ p → p < 2 → 0 ≤ q → q < 2 →
      (routes "t" b (["t", "u", "t"].map recordFor |>.take k)).count p ≤
        (routes "t" b (["t", "u", "t"].map recordFor |>.take k)).count q + 1 := by
  refine ⟨_, rfl, ⟨rfl, rfl⟩, by decide +kernel, fun h => ?_⟩
  have hcounts := h 3 0 1 (by decide) (by decide) (by decide) (by decide)
  exact absurd hcounts (by decide +kernel)

end RMemQueue
