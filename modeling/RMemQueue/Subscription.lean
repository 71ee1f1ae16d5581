import RMemQueue.WorldRun

/-!
# Subscriptions without a group

A consumer without a group takes one snapshot of the metadata of each topic when it subscribes (`after_subscribe`): a
topic that does not exist at that moment is left out silently, and a topic that is listed twice is added twice.  The
group path creates the topics and lists each of them once.
-/

namespace RMemQueue

open Conc

variable {π : Type}

/-! ### The snapshot of a topic -/

namespace Broker

variable {b₀ b b' : Broker π}

/-- What a subscription gets for a topic: its partitions, or nothing because the topic did not exist when the
subscription was called or because of a shutdown. -/
def Listed (b₀ b : Broker π) (topic : String) (result : RmqResult Metadata) : Prop :=
  (∃ n, b.backend.count? topic = some n ∧ (BaseConsumer.topicEntries result).map (·.key) =
    (List.range n.toNat).map fun p : Nat => (topic, (p : Int))) ∨
  (BaseConsumer.topicEntries result = [] ∧ (¬b.Running ∨ b₀.backend.count? topic = none))

theorem Listed.later {topic : String} {result : RmqResult Metadata} (hl : Listed b₀ b topic result) (h : b.Later b') :
    Listed b₀ b' topic result := by
  rcases hl with ⟨n, hn, hk⟩ | ⟨he, hs | hn⟩
  · exact Or.inl ⟨n, h.backend.count? hn, hk⟩
  · exact Or.inr ⟨he, Or.inl fun hr => hs (h.running hr)⟩
  · exact Or.inr ⟨he, Or.inr hn⟩

private theorem listed_of_snapshot {topic : String} {o : Outcome RmqError Metadata}
    (h : b₀.backend.Snapshot topic b.backend o) {result : RmqResult Metadata} (ho : o.caught = .ok result) :
    Listed b₀ b topic result := by
  cases o with
  | ok m =>
    obtain rfl := Outcome.ok.inj ho
    obtain ⟨n, tm, hn, hm, hname, hids⟩ := h
    refine Or.inl ⟨n, hn, ?_⟩
    have hkeys : (BaseConsumer.topicEntries (.ok m)).map (·.key) = (tm.partitions.map (·.id)).map (tm.name, ·) := by
      simp [BaseConsumer.topicEntries, hm, TopicPartitionElem.key]
    rw [hkeys, hids, hname, List.map_map]
    rfl
  | err e =>
    obtain rfl := Outcome.ok.inj ho
    refine Or.inr ⟨rfl, h.imp_left fun hs hr => ?_⟩
    rw [hr.backend] at hs
    cases hs
  | panic => cases ho

private theorem after_listed (topic : String) (h : b.Later b') (h₀ : b₀.Later b') :
    (metadata (some topic)).After Later Later (fun b o b' => b.Later b' ∧
      ∀ result, o.caught = .ok result → Listed b₀ b' topic result) b b' := by
  refine Act.After.read_bind h ?_ ?_ ?_
  · rintro c _ hc -
    refine Act.After.read_bind (.refl c) ?_ (fun _ _ _ h => nomatch h) (fun _ _ h => nomatch h)
    rintro d config hd -
    have h₀d := h₀.trans (hc.trans hd)
    refine Act.After.zoom (InMemoryBackend.after_metadata config.brokerId topic (.refl d.backend) h₀d.backend)
      (fun _ => .refl d) ?_ (fun _ _ h => h.backend) (fun e b h => ?_) fun e o b h => ?_
    · exact fun o h => ⟨.refl d, fun result ho => listed_of_snapshot h.2 ho⟩
    · exact ⟨h, rfl, id, fun _ => id⟩
    · exact ⟨⟨h.1, rfl, id, fun _ => id⟩, fun result ho => listed_of_snapshot h.2 ho⟩
  · rintro c e hc he
    refine ⟨.refl c, fun result ho => ?_⟩
    obtain rfl := Outcome.ok.inj ho
    refine Or.inr ⟨rfl, Or.inl fun hr => ?_⟩
    simp [hr.broker] at he
  · rintro c hc hp
    exact ⟨.refl c, fun _ ho => nomatch ho⟩

end Broker

namespace BaseConsumer

open Session

variable (c : BaseConsumer) {b₀ : Broker π} {s s' : Session π}

/-- What a subscription relies on and what its steps do. -/
private abbrev BrokerLater : Session π → Session π → Prop := fun s s' => s.broker.Later s'.broker

private theorem after_snapshot (topic : String) (h : s.broker.Later s'.broker) (h₀ : b₀.Later s'.broker) :
    ((onBroker (Broker.metadata (some topic))).attempt).After BrokerLater BrokerLater
      (fun s o s' => s.broker.Later s'.broker ∧ ∀ result, o = .ok result → b₀.Listed s'.broker topic result) s s' := by
  have hmeta : (onBroker (Broker.metadata (some topic))).After BrokerLater BrokerLater (fun s o s' =>
      s.broker.Later s'.broker ∧ ∀ result, o.caught = .ok result → b₀.Listed s'.broker topic result) s s' :=
    Act.After.zoom (Broker.after_listed topic h h₀) id (fun _ => id) (fun _ _ => id) (fun _ _ => id) fun _ _ _ => id
  refine (Act.After.attempt hmeta).mono (fun _ _ h => h) ?_
  rintro t o t' ⟨o', rfl, hl, hr⟩
  exact ⟨hl, hr⟩

/-- A subscription without a group assigns what it has got for its topics. -/
theorem after_subscribe (hc : c.groupId = none) (order : HashOrder) (topics : List String)
    (h : s.broker.Later s'.broker) (h₀ : b₀.Later s'.broker) :
    (c.subscribe order topics).After BrokerLater BrokerLater (fun s o s' => s.broker.Later s'.broker ∧
      ∀ u, o = .ok u → ∃ results, List.Forall₂ (b₀.Listed s'.broker) topics results ∧
        s'.state.assignedPartitions = ⟨results.flatMap topicEntries⟩) s s' := by
  have hall : (Act.forEach (fun topic => (onBroker (Broker.metadata (some topic))).attempt) topics).After BrokerLater
      BrokerLater (fun s o s' => s.broker.Later s'.broker ∧
        ∀ results, o = .ok results → List.Forall₂ (b₀.Listed s'.broker) topics results) s s' :=
    Act.after_forEach (G := fun s : Session π => b₀.Listed s.broker) (I := fun s => b₀.Later s.broker)
      (fun _ _ _ _ hl h => hl.later h) (fun _ _ => .trans) (fun topic _ _ => after_snapshot topic) topics h h₀
  rw [subscribe, newAssignment, hc]
  dsimp only
  rw [Act.bind_assoc]
  refine hall.bind ?_ (fun e _ _ h => ⟨h.1, by simp⟩) fun _ _ h => ⟨h.1, by simp⟩
  rintro results t t' ⟨ht, hr⟩
  refine ⟨ht, fun u hu => ⟨.refl _, fun _ _ => ⟨results, ?_, rfl⟩⟩⟩
  exact (hr results rfl).imp fun _ _ hl => hl.later hu

end BaseConsumer

/-! ### What is assigned -/

section

variable {b₀ b : Broker π} {topics : List String} {results : List (RmqResult Metadata)}

private theorem key_topic {topic : String} {result : RmqResult Metadata} (h : b₀.Listed b topic result)
    {key : String × Int} (hk : key ∈ (BaseConsumer.topicEntries result).map (·.key)) :
    key.1 = topic ∧ ∃ n, b.backend.count? topic = some n := by
  rcases h with ⟨n, hn, hkeys⟩ | ⟨hnil, -⟩
  · rw [hkeys] at hk
    obtain ⟨p, -, rfl⟩ := List.mem_map.1 hk
    exact ⟨rfl, n, hn⟩
  · rw [hnil] at hk
    cases hk

/-- Only topics that exist are assigned. -/
private theorem count?_of_mem_keys (h : List.Forall₂ (b₀.Listed b) topics results) {key : String × Int}
    (hk : key ∈ TopicPartitionList.keys ⟨results.flatMap BaseConsumer.topicEntries⟩) :
    ∃ n, b.backend.count? key.1 = some n := by
  induction h with
  | nil => cases hk
  | @cons topic result topics results hl _ ih =>
    rw [TopicPartitionList.keys, List.flatMap_cons, List.map_append, List.mem_append] at hk
    rcases hk with hk | hk
    · obtain ⟨rfl, hn⟩ := key_topic hl hk
      exact hn
    · exact ih hk

/-- A topic that existed when the subscription was called is assigned as often as it is listed. -/
private theorem count_keys (h : List.Forall₂ (b₀.Listed b) topics results) (hr : b.Running) {topic : String} {n : Int}
    (hn₀ : b₀.backend.count? topic = some n) (hn : b.backend.count? topic = some n) {p : Int} (hp : 0 ≤ p ∧ p < n) :
    (TopicPartitionList.keys ⟨results.flatMap BaseConsumer.topicEntries⟩).count (topic, p) = topics.count topic := by
  induction h with
  | nil => rfl
  | @cons topic' result topics results hl _ ih =>
    rw [TopicPartitionList.keys, List.flatMap_cons, List.map_append, List.count_append, List.count_cons]
    rw [show (List.map (·.key) (results.flatMap BaseConsumer.topicEntries)).count (topic, p) = _ from ih, Nat.add_comm]
    congr 1
    by_cases ht : topic' = topic
    · subst ht
      rcases hl with ⟨n', hn', hkeys⟩ | ⟨-, hs | hnone⟩
      · obtain rfl : n' = n := Option.some.inj (hn'.symm.trans hn)
        rw [hkeys, beq_self_eq_true, if_pos rfl]
        refine List.count_eq_one_of_mem (List.nodup_range.map fun i j h => ?_) ?_
        · exact Int.ofNat.inj (Prod.mk.inj h).2
        · exact List.mem_map.2 ⟨p.toNat, List.mem_range.2 (by omega), by rw [Int.toNat_of_nonneg hp.1]⟩
      · exact absurd hr hs
      · rw [hn₀] at hnone
        cases hnone
    · rw [if_neg (by simpa using ht)]
      exact List.count_eq_zero_of_not_mem fun hk => ht (key_topic hl hk).1.symm

end

/-- Each partition of each of the topics that exists is assigned to the consumer exactly once. -/
def World.Covers (i : Nat) (topics : List String) (w : World π) : Prop :=
  ∀ topic ∈ topics, ∀ p, (w.broker.backend.partition? topic p).isSome →
    (w.consumers i).assignedPartitions.keys.count (topic, p) = 1

/-- The operation does not set the assignment of the consumer. -/
def Op.Keeps (i : Nat) (op : Op) : Prop := ∀ request, op = .consumer i request → ¬request.Assigns

namespace Op

variable {i : Nat} {op : Op} {w w' : World π}

/-- What other operations do while the assignment of consumer `i` is kept. -/
def Kept (i : Nat) (w w' : World π) : Prop :=
  w.broker.Later w'.broker ∧ (w'.consumers i).assignedPartitions = (w.consumers i).assignedPartitions

theorem Keeps.kept (h : op.Keeps i) (hs : op.StepOf w w') : Kept i w w' := by
  refine ⟨hs.1, (hs.2 i).elim (fun he => by rw [he]) ?_⟩
  rintro ⟨request, rfl, hr⟩
  exact hr (h request rfl)

/-- A subscription without a group among operations that keep the assignment. -/
private theorem after_subscribe [Partitioner π] {ids : Nat → BaseConsumer} (hi : (ids i).groupId = none)
    (order : HashOrder) (topics : List String) (w : World π) :
    (body ids (.consumer i (.subscribe order topics))).After (Kept i) (fun w w' => w.broker.Later w'.broker)
      (fun _ o w' => o = .ok .unit → ∃ results, List.Forall₂ (w.broker.Listed w'.broker) topics results ∧
        (w'.consumers i).assignedPartitions = ⟨results.flatMap BaseConsumer.topicEntries⟩) w w := by
  have hsub : ((Request.subscribe order topics).body (ids i)).After (fun s s' : Session π => s.broker.Later s'.broker)
      (fun s s' => s.broker.Later s'.broker) (fun _ o s' => o = .ok .unit → ∃ results,
        List.Forall₂ (w.broker.Listed s'.broker) topics results ∧
        s'.state.assignedPartitions = ⟨results.flatMap BaseConsumer.topicEntries⟩)
      ⟨w.broker, w.consumers i⟩ ⟨w.broker, w.consumers i⟩ := by
    refine ((ids i).after_subscribe hi order topics (.refl _) (.refl _)).bind ?_ (fun e _ _ _ => by simp)
      fun _ _ _ => by simp
    exact fun u t t' h _ => h.2 u rfl
  refine Act.After.zoom hsub id (fun o h => h) (fun _ _ h => h.1) (fun _ _ h => h) fun w' o s h ho => ?_
  rw [show ((World.sessionLens i).put w' s).consumers i = s.state from Function.update_self ..]
  exact h ho

end Op

section

variable [Partitioner π] {ι : Type} [DecidableEq ι] {ids : Nat → BaseConsumer} {i : Nat}

/-- What the assignment is in every later state. -/
private theorem assigned_after (hi : (ids i).groupId = none) {s₁ s₂ : List (Choice ι Op)} {t : ι} {order : HashOrder}
    {topics : List String} {w w₁ w₂ : System ι Op (World π) RmqError Reply} (hw : w.Carries Op.StepOf)
    (hw₁ : w₁ = w.exec (Op.body ids) (.call t (.consumer i (.subscribe order topics)) :: s₁))
    (hw₂ : w₂ = w₁.exec (Op.body ids) s₂) (hidle : w.running t = none) (hfly : w.InFlight fun _ => Op.Keeps i)
    (hs₁ : ∀ s op, .call s op ∈ s₁ → s ≠ t ∧ op.Keeps i) (hs₂ : ∀ s op, .call s op ∈ s₂ → op.Keeps i)
    (hret : (t, .consumer i (.subscribe order topics), .ok .unit) ∈ w₁.history.drop w.history.length) :
    w.shared.broker.Later w₁.shared.broker ∧ w₁.shared.broker.Later w₂.shared.broker ∧
    ∃ results, List.Forall₂ (w.shared.broker.Listed w₁.shared.broker) topics results ∧
      (w₂.shared.consumers i).assignedPartitions = ⟨results.flatMap BaseConsumer.topicEntries⟩ := by
  have hrefl : ∀ w : World π, Op.Kept i w w := fun w => ⟨.refl _, rfl⟩
  have htrans : ∀ w w' w'' : World π, Op.Kept i w w' → Op.Kept i w' w'' → Op.Kept i w w'' :=
    fun _ _ _ h h' => ⟨h.1.trans h'.1, h'.2.trans h.2⟩
  obtain ⟨⟨h', hh, hcase⟩, hfly₁⟩ := System.one_of_call hrefl htrans (Op.Keeps i) (Op.always_stepOf ids)
    (fun _ h _ _ => h.kept) hw hidle hfly (Op.after_subscribe hi order topics w.shared) hs₁
  rw [← hw₁] at hh hcase hfly₁
  rw [hh, List.drop_left] at hret
  -- the subscription has returned before `w₁`, and it is the only call of its thread
  rcases hcase with ⟨_, -, -, hno⟩ | ⟨hidle₁, u, o, v, hF, hv, -, honly⟩
  · exact absurd rfl (hno _ hret)
  have ho : Outcome.ok Reply.unit = o := by simpa using honly _ hret rfl
  obtain ⟨results, hlisted, hassigned⟩ := hF ho.symm
  have hw₁' : w₁.Carries Op.StepOf := by
    rw [hw₁]
    exact hw.exec (Op.always_stepOf ids) _
  have hfly₁ : w₁.InFlight fun _ => Op.Keeps i := by
    intro j op x hx
    apply hfly₁ j op x hx
    rintro rfl
    rw [hidle₁] at hx
    cases hx
  have hlater : w.shared.broker.Later w₁.shared.broker := by
    rw [hw₁]
    exact System.exec_related (R := fun w w' : World π => w.broker.Later w'.broker) (fun _ => .refl _)
      (fun _ _ _ => .trans) (fun _ _ => True) (Op.always_stepOf ids) (fun _ _ _ _ _ h => h.1) hw
      (fun _ _ _ _ => trivial) fun _ _ _ => trivial
  -- from `w₁` on nothing sets the assignment
  have hkept : Op.Kept i w₁.shared w₂.shared := by
    rw [hw₂]
    exact System.exec_related hrefl htrans (fun _ => Op.Keeps i) (Op.always_stepOf ids)
      (fun _ _ h _ _ => h.kept) hw₁' hfly₁ hs₂
  exact ⟨hlater, hkept.1, results, hlisted.imp fun _ _ h => h.later hv.1, (hkept.2.trans hv.2).trans hassigned⟩

/-- **Subscriptions without a group.**  Threads with any operations have reached the state `w` when a consumer without
a group subscribes, it has returned normally in the state `w₁` of a running broker, and `w₂` is any later state; from
`w` on nothing else sets the assignment of the consumer.  Each existing partition of the topics is assigned exactly
once if every topic of the list with a partition existed when the subscription was called and is listed once; and only
if every such topic existed when the subscription returned and, in case it existed at the call, is listed once. -/
theorem subscription_covers (hi : (ids i).groupId = none) (w₀ : World π) (s₀ s₁ s₂ : List (Choice ι Op)) (t : ι)
    (order : HashOrder) (topics : List String) {w w₁ w₂ : System ι Op (World π) RmqError Reply}
    (hw : w = System.exec (Op.body ids) (.init w₀) s₀)
    (hw₁ : w₁ = w.exec (Op.body ids) (.call t (.consumer i (.subscribe order topics)) :: s₁))
    (hw₂ : w₂ = w₁.exec (Op.body ids) s₂)
    (hidle : w.running t = none) (hfly : w.InFlight fun _ => Op.Keeps i)
    (hs₁ : ∀ s op, .call s op ∈ s₁ → s ≠ t ∧ op.Keeps i) (hs₂ : ∀ s op, .call s op ∈ s₂ → op.Keeps i)
    (hret : (t, .consumer i (.subscribe order topics), .ok .unit) ∈ w₁.history.drop w.history.length)
    (hrun : w₁.shared.broker.Running) :
    ((∀ topic ∈ topics, (w₂.shared.broker.backend.partition? topic 0).isSome →
        (w.shared.broker.backend.partition? topic 0).isSome ∧ topics.count topic = 1) →
      w₂.shared.Covers i topics) ∧
    (w₂.shared.Covers i topics → ∀ topic ∈ topics, (w₂.shared.broker.backend.partition? topic 0).isSome →
      (w₁.shared.broker.backend.partition? topic 0).isSome ∧
      ((w.shared.broker.backend.partition? topic 0).isSome → topics.count topic = 1)) := by
  have hcarries : w.Carries Op.StepOf := by
    subst hw
    exact (System.carries_init w₀).exec (Op.always_stepOf ids) s₀
  obtain ⟨hl, hl', results, hlisted, hassigned⟩ :=
    assigned_after hi hcarries hw₁ hw₂ hidle hfly hs₁ hs₂ hret
  unfold World.Covers
  rw [hassigned]
  simp only [InMemoryBackend.isSome_partition?_iff]
  constructor
  · rintro h topic ht p ⟨n, hn, hp⟩
    obtain ⟨⟨m, hm, -⟩, hone⟩ := h topic ht ⟨n, hn, le_refl 0, by omega⟩
    have hm₁ := hl.backend.count? hm
    -- a topic keeps its count, so that what was listed is what is there
    obtain rfl : m = n := Option.some.inj ((hl'.backend.count? hm₁).symm.trans hn)
    rw [count_keys hlisted hrun hm hm₁ hp, hone]
  · rintro h topic ht ⟨n, hn, hp⟩
    have hone := h topic ht 0 ⟨n, hn, hp⟩
    obtain ⟨m, hm⟩ := count?_of_mem_keys hlisted (List.count_pos_iff.1 (by rw [hone]; exact Nat.one_pos))
    obtain rfl : m = n := Option.some.inj ((hl'.backend.count? hm).symm.trans hn)
    refine ⟨⟨m, hm, hp⟩, ?_⟩
    rintro ⟨m', hm', -⟩
    obtain rfl : m' = m := Option.some.inj ((hl.backend.count? hm').symm.trans hm)
    rw [← count_keys hlisted hrun hm' hm hp, hone]

end

/-- A subscription to a topic that exists, and a further message. -/
theorem subscription_covers_existing : ∃ b : Broker RoundRobinPartitioner,
    Broker.new (RmqClientConfig.new.set ConfigKeys.brokerId "b") = .ok b ∧
    let ids : Nat → BaseConsumer := fun _ => ⟨none, "m"⟩
    let w := System.exec (Op.body ids) (.init (World.init b)) (oneByOne [sendOne])
    let w₁ := w.exec (Op.body ids) (oneByOne [.consumer 0 (.subscribe default ["t"])])
    (w₁.exec (Op.body ids) (oneByOne [sendOne])).shared.Covers 0 ["t"] := by
  have hkeeps : ∀ (s : Nat) op, .call s op ∈ oneByOne [sendOne] → op.Keeps 0 := by
    intro s op h request
    obtain ⟨-, rfl⟩ : s = 0 ∧ op = sendOne := by simpa [oneByOne] using h
    exact fun h => nomatch h
  refine ⟨_, rfl, (subscription_covers rfl _ _ (List.replicate 20 (.step 0)) _ 0 default ["t"] rfl rfl rfl rfl
    (System.InFlight.exec (fun _ _ _ h => nomatch h) hkeeps) (by simp) hkeeps (List.mem_of_getElem? (i := 0) rfl)
    ⟨by decide +kernel, by decide +kernel⟩).1 fun topic ht _ => ?_⟩
  obtain rfl := List.mem_singleton.1 ht
  exact ⟨by decide +kernel, by decide⟩

/-- A subscription to a topic that does not exist yet: its partition is not assigned when the topic is created. -/
theorem subscription_misses : ∃ b : Broker RoundRobinPartitioner,
    Broker.new (RmqClientConfig.new.set ConfigKeys.brokerId "b") = .ok b ∧
    let ids : Nat → BaseConsumer := fun _ => ⟨none, "m"⟩
    let w₁ := System.exec (Op.body ids) (.init (World.init b)) (oneByOne [.consumer 0 (.subscribe default ["t"])])
    let w₂ := w₁.exec (Op.body ids) (oneByOne [sendOne])
    (0, .consumer 0 (.subscribe default ["t"]), .ok .unit) ∈ w₁.history ∧ w₁.shared.broker.Running ∧
      ¬w₂.shared.Covers 0 ["t"] := by
  refine ⟨_, rfl, List.mem_of_getElem? (i := 0) rfl, ⟨by decide +kernel, by decide +kernel⟩, fun h => ?_⟩
  have hone := h "t" (by decide) 0 (by decide +kernel)
  revert hone
  decide +kernel

end RMemQueue
