import RMemQueue.Backend

/-!
# What the backend's operations do

For each operation: every step is read-only, or leads to a later state of the backend; and what the operation
computes when it runs alone.  After `shutdown` each of them returns `BrokerShutdown` at its first step.
-/

namespace RMemQueue

open Conc

namespace InMemoryBackend

/-! ### Every step -/

theorem readOnly_checkShutdown : checkShutdown.ReadOnly := Act.readOnly_read _

theorem readOnly_getTopic (topic : String) : (getTopic topic).ReadOnly := Act.readOnly_read _

theorem readOnly_readTopic {α : Type} (a : TopicRef) (g : Topic → Outcome RmqError α) : (readTopic a g).ReadOnly :=
  Act.readOnly_read _

theorem readOnly_fetchOne (topic : String) (partition offset : Int) : (fetchOne topic partition offset).ReadOnly :=
  readOnly_checkShutdown.bind fun _ => (readOnly_getTopic topic).bind fun _ => readOnly_readTopic _ _

theorem readOnly_watermarks (topic : String) (partition : Int) : (watermarks topic partition).ReadOnly :=
  readOnly_checkShutdown.bind fun _ => (readOnly_getTopic topic).bind fun _ => readOnly_readTopic _ _

theorem readOnly_topicMetadata (a : TopicRef) : (topicMetadata a).ReadOnly := by
  refine (readOnly_readTopic a _).bind fun r => ?_
  show Act.ReadOnly (if r.2 < 0 then _ else _)
  split
  · trivial
  · refine Act.ReadOnly.bind (Act.Always.forEach (fun i => ?_) _) fun _ => trivial
    exact (readOnly_readTopic a _).bind fun _ => (readOnly_readTopic a _).bind fun _ => trivial

theorem readOnly_metadata (brokerId : String) (topic : Option String) : (metadata brokerId topic).ReadOnly :=
  readOnly_checkShutdown.bind fun _ => (Act.readOnly_read _).bind fun _ =>
    Act.ReadOnly.bind (Act.Always.forEach readOnly_topicMetadata _) fun _ => trivial

theorem readOnly_getPartitionNotifies (topics : List String) : (getPartitionNotifies topics).ReadOnly :=
  Act.readOnly_read _

theorem always_produceAt (a : TopicRef) (partition : Int) (content : Content) (headers : Option OwnedHeaders)
    (timestamp : Option Int) (clock : Clock) :
    (produceAt a partition content headers timestamp clock).Always Later := by
  refine Act.always_step fun b => ?_
  split
  · rename_i t ht
    exact later_setTopic ht (t.later_produce ..)
  · exact .refl b

theorem always_produce (topic : String) (partition : Int) (content : Content) (headers : Option OwnedHeaders)
    (timestamp : Option Int) (clock : Clock) :
    (produce topic partition content headers timestamp clock).Always Later := by
  refine (readOnly_checkShutdown.always Later.refl).bind fun _ => ?_
  refine ((readOnly_getTopic topic).always Later.refl).bind fun a => ?_
  exact (always_produceAt a partition content headers _ clock).bind fun _ => trivial

theorem always_ensureTopic (topic : String) (n : Int) : (ensureTopic topic n).Always Later := by
  refine (readOnly_checkShutdown.always Later.refl).bind fun _ => ?_
  refine ((Act.readOnly_read _).always Later.refl).bind fun known => ?_
  cases known
  · exact Act.always_modify fun b => later_insertTopic b topic n
  · trivial

theorem always_shutdownBackend : shutdownBackend.Always Later := Act.always_modify later_setShutdown

/-! ### The operations on a running backend -/

variable {b : InMemoryBackend}

/-- The error for a partition that does not exist. -/
def missing (b : InMemoryBackend) (topic : String) (partition : Int) : RmqError :=
  if (b.topic? topic).isSome then .partitionOutOfRange topic partition else .topicNotFound topic

theorem run_checkShutdown (h : b.shutdown = false) : checkShutdown.run b = (.ok (), b) := by
  simp [checkShutdown, h]

theorem run_getTopic_of_none {topic : String} (h : b.topic? topic = none) :
    (getTopic topic).run b = (.err (.topicNotFound topic), b) := by
  simp [getTopic, lookup_eq_none_iff.2 h]

theorem run_readTopic {α : Type} {a : TopicRef} {t : Topic} (h : b.heap[a]? = some t)
    (g : Topic → Outcome RmqError α) : (readTopic a g).run b = (g t, b) := by
  simp [readTopic, h]

private theorem run_getTopic_readTopic {α : Type} (g : Topic → Outcome RmqError α) (topic : String) :
    (getTopic topic >>= fun a => readTopic a g).run b =
      ((b.topic? topic).elim (.err (.topicNotFound topic)) g, b) := by
  cases ht : b.topics.lookup topic with
  | none =>
    rw [Act.run_bind, run_getTopic_of_none (lookup_eq_none_iff.1 ht), lookup_eq_none_iff.1 ht]
    rfl
  | some a =>
    obtain ⟨t, hat, htt, -⟩ := topic?_of_lookup ht
    rw [Act.run_bind, htt]
    simp only [getTopic, Act.run_read, ht, Outcome.andThen_ok, Option.elim_some]
    exact run_readTopic hat g

/-- The reads of one partition. -/
private theorem run_readPartition {α : Type} (h : b.shutdown = false) (topic : String) {partition : Int}
    {g : Topic → Outcome RmqError α} {k : Partition → Outcome RmqError α}
    (hg : ∀ t, g t = (t.partition? partition).elim (.err (.partitionOutOfRange t.name partition)) k) :
    (do checkShutdown; let a ← getTopic topic; readTopic a g : BackendM α).run b =
      ((b.partition? topic partition).elim (.err (b.missing topic partition)) k, b) := by
  rw [Act.run_bind, run_checkShutdown h, Outcome.andThen_ok, run_getTopic_readTopic, partition?, missing]
  cases ht : b.topic? topic with
  | none => rfl
  | some t =>
    rw [Option.elim_some, Option.bind_some, hg, name_of_topic? ht]
    rfl

theorem run_fetchOne (h : b.shutdown = false) (topic : String) (partition offset : Int) :
    (fetchOne topic partition offset).run b =
      ((b.partition? topic partition).elim (.err (b.missing topic partition)) fun p => ofResult (p.readOne offset),
        b) := by
  refine run_readPartition h topic fun t => ?_
  rw [Topic.fetchOne, Topic.getPartition_eq]
  cases t.partition? partition <;> rfl

theorem run_fetch (h : b.shutdown = false) (topic : String) (partition offset : Int) (maxCount : Nat) :
    (fetch topic partition offset maxCount).run b =
      ((b.partition? topic partition).elim (.err (b.missing topic partition)) fun p =>
        (p.read offset maxCount).elim .panic ofResult, b) := by
  refine run_readPartition h topic fun t => ?_
  rw [Topic.fetch, Topic.getPartition_eq]
  cases t.partition? partition with
  | none => rfl
  | some p => rcases hread : p.read offset maxCount with _ | _ | _ <;> simp [hread, ofResult]

theorem run_watermarks (h : b.shutdown = false) (topic : String) (partition : Int) :
    (watermarks topic partition).run b =
      ((b.partition? topic partition).elim (.err (b.missing topic partition)) fun p => .ok p.watermarks, b) := by
  refine run_readPartition h topic fun t => ?_
  rw [Topic.watermarks, Topic.getPartition_eq]
  cases t.partition? partition <;> rfl

theorem run_ensureTopic (h : b.shutdown = false) (topic : String) (n : Int) :
    (ensureTopic topic n).run b = (.ok (), b.insertTopic topic n) := by
  rw [ensureTopic, Act.run_bind, run_checkShutdown h, Outcome.andThen_ok, Act.run_bind]
  simp only [Act.run_read, Outcome.andThen_ok]
  cases hk : (b.topics.lookup topic).isSome with
  | true => simp [insertTopic, hk]
  | false => simp

/-- The critical section of `produce` appends to one partition, or fails and changes nothing. -/
theorem run_produceAt_cases {topic : String} {a : TopicRef} (ha : b.topics.lookup topic = some a) (partition : Int)
    (content : Content) (headers : Option OwnedHeaders) (timestamp : Option Int) (clock : Clock) :
    (∃ p r p' b', b.partition? topic partition = some p ∧
      p.appendContent content headers timestamp clock = some (r, p') ∧
      (produceAt a partition content headers timestamp clock).run b = (.ok r, b') ∧
      b.Later b' ∧ b'.shutdown = b.shutdown ∧
      ∀ name id, b'.partition? name id = if name = topic ∧ id = partition then some p' else b.partition? name id) ∨
    (b.partition? topic partition = none ∧
      (produceAt a partition content headers timestamp clock).run b = (.err (b.missing topic partition), b)) ∨
    (∃ p, b.partition? topic partition = some p ∧ p.appendContent content headers timestamp clock = none ∧
      (produceAt a partition content headers timestamp clock).run b = (.panic, b)) := by
  obtain ⟨t, hat, ht, hn⟩ := topic?_of_lookup ha
  have hp : b.partition? topic partition = t.partition? partition := by rw [partition?, ht]; rfl
  have hstep : (produceAt a partition content headers timestamp clock).run b =
      ((t.produce partition content headers timestamp clock).1,
        b.setTopic a t (t.produce partition content headers timestamp clock).2 hat
          (t.later_produce partition content headers timestamp clock)) := by
    rw [produceAt, Act.run_step]
    split
    · rename_i u hu
      obtain rfl : t = u := Option.some.inj (hat.symm.trans hu)
      rfl
    · rename_i hu
      rw [hat] at hu
      cases hu
  rw [hstep]
  rcases t.produce_cases partition content headers timestamp clock with
    ⟨p, r, p', htp, hpa, ho, -, -, hq⟩ | ⟨htp, ho⟩ | ⟨p, htp, hpa, ho⟩
  -- the topic has the partition: only that partition gets the message
  · refine Or.inl ⟨p, r, p', _, hp.trans htp, hpa, by rw [ho], later_setTopic _ _, rfl, fun name id => ?_⟩
    rw [partition?, topic?_setTopic hat _ ha]
    by_cases hname : name = topic
    · subst hname
      rw [if_pos rfl, partition?, ht]
      simp only [Option.bind_some, hq, true_and]
    · rw [if_neg hname, if_neg fun h => hname h.1]
      rfl
  -- the topic does not have it: `get_partition` fails before anything is written
  · refine Or.inr (Or.inl ⟨hp.trans htp, ?_⟩)
    rw [setTopic_eq_self hat _ (by rw [ho])]
    simp only [ho, missing, ht, Option.isSome_some, ↓reduceIte, hn]
  -- no offset is left for the message, and the append panics
  · refine Or.inr (Or.inr ⟨p, hp.trans htp, hpa, ?_⟩)
    rw [setTopic_eq_self hat _ (by rw [ho])]
    simp only [ho]

/-- `produce` appends to one partition, or fails and changes nothing. -/
theorem run_produce_cases (h : b.shutdown = false) (topic : String) (partition : Int) (content : Content)
    (headers : Option OwnedHeaders) (timestamp : Option Int) (clock : Clock) :
    (∃ p r p' b', b.partition? topic partition = some p ∧
      p.appendContent content headers (some (timestamp.getD clock.wall)) clock = some (r, p') ∧
      (produce topic partition content headers timestamp clock).run b =
        (.ok (r.1, r.2, timestamp.getD clock.wall), b') ∧
      b.Later b' ∧ b'.shutdown = b.shutdown ∧
      ∀ name id, b'.partition? name id = if name = topic ∧ id = partition then some p' else b.partition? name id) ∨
    (b.partition? topic partition = none ∧
      (produce topic partition content headers timestamp clock).run b = (.err (b.missing topic partition), b)) ∨
    (∃ p, b.partition? topic partition = some p ∧
      p.appendContent content headers (some (timestamp.getD clock.wall)) clock = none ∧
      (produce topic partition content headers timestamp clock).run b = (.panic, b)) := by
  rw [produce, Act.run_bind, run_checkShutdown h, Outcome.andThen_ok, Act.run_bind]
  cases ha : b.topics.lookup topic with
  | none =>
    have ht := lookup_eq_none_iff.1 ha
    refine Or.inr (Or.inl ⟨by rw [partition?, ht]; rfl, ?_⟩)
    rw [run_getTopic_of_none ht, missing, ht]
    rfl
  | some a =>
    simp only [getTopic, Act.run_read, ha, Outcome.andThen_ok, Act.run_bind]
    rcases run_produceAt_cases ha partition content headers (some (timestamp.getD clock.wall)) clock with
      ⟨p, r, p', b', hp, hpa, ho, hl, hs, hq⟩ | ⟨hp, ho⟩ | ⟨p, hp, hpa, ho⟩
    · exact Or.inl ⟨p, r, p', b', hp, hpa, by rw [ho]; rfl, hl, hs, hq⟩
    · exact Or.inr (Or.inl ⟨hp, by rw [ho]; rfl⟩)
    · exact Or.inr (Or.inr ⟨p, hp, hpa, by rw [ho]; rfl⟩)

end InMemoryBackend

/-! ### Metadata -/

/-- The metadata of a topic; `none` is the panic. -/
def Topic.metadata? (t : Topic) : Option TopicMetadata :=
  if t.partitionCount < 0 then none
  else some {
    name := t.name
    partitions := ((List.range t.partitionCount.toNat).map Int.ofNat).map fun i =>
      { id := i
        oldestOffset := ((t.watermarks i).toOption.getD (0, -1)).1
        newestOffset := ((t.watermarks i).toOption.getD (0, -1)).2
        messageCount := ((t.getPartition i).toOption.map Partition.messageCount).getD 0 }
    error := none }

theorem Topic.metadata?_eq_some {t : Topic} {m : TopicMetadata} (h : t.metadata? = some m) :
    0 ≤ t.partitionCount ∧ m.name = t.name ∧
      m.partitions.map (·.id) = (List.range t.partitionCount.toNat).map Int.ofNat := by
  unfold metadata? at h
  split at h
  · cases h
  · obtain rfl := Option.some.inj h
    refine ⟨by omega, rfl, ?_⟩
    simp only [List.map_map]
    rfl

namespace InMemoryBackend

variable {b : InMemoryBackend}

/-- Every topic, in the order in which `metadata` lists them. -/
def allTopics (b : InMemoryBackend) : List Topic := b.topics.entries.filterMap fun e => b.heap[e.2]?

theorem mem_allTopics {t : Topic} : t ∈ b.allTopics ↔ b.topic? t.name = some t := by
  simp only [allTopics, List.mem_filterMap]
  constructor
  · rintro ⟨⟨name, a⟩, he, ht⟩
    have ha : b.topics.lookup name = some a := AList.mem_lookup_iff.2 he
    obtain ⟨u, hu, hut, hn⟩ := topic?_of_lookup ha
    obtain rfl : u = t := Option.some.inj (hu.symm.trans ht)
    rw [hn, hut]
  · intro h
    obtain ⟨a, ha, ht⟩ := Option.bind_eq_some_iff.1 h
    exact ⟨⟨t.name, a⟩, AList.mem_lookup_iff.1 ha, ht⟩

private theorem run_topicMetadata {a : TopicRef} {t : Topic} (h : b.heap[a]? = some t) :
    (topicMetadata a).run b = (t.metadata?.elim .panic .ok, b) := by
  rw [topicMetadata, Act.run_bind, run_readTopic h, Outcome.andThen_ok, Topic.metadata?]
  show Act.run (if t.partitionCount < 0 then _ else _) b = _
  split
  · rfl
  · rw [Act.run_bind, Act.run_forEach fun i _ => ?_, Outcome.andThen_ok]
    · rfl
    · rw [partitionMetadata, Act.run_bind, run_readTopic h, Outcome.andThen_ok]
      show Act.run (_ >>= _) b = _
      rw [Act.run_bind, run_readTopic h]
      rfl

theorem run_metadata_some (h : b.shutdown = false) (brokerId name : String) :
    (metadata brokerId (some name)).run b =
      ((b.topic? name).elim (.err (.topicNotFound name))
        fun t => t.metadata?.elim .panic fun m => .ok ⟨brokerId, [m]⟩, b) := by
  rw [metadata, Act.run_bind, run_checkShutdown h, Outcome.andThen_ok, Act.run_bind, Act.run_read]
  cases ha : b.topics.lookup name with
  | none =>
    rw [lookup_eq_none_iff.1 ha]
    simp only [ha]
    rfl
  | some a =>
    obtain ⟨t, hat, ht, -⟩ := topic?_of_lookup ha
    simp only [ha, Outcome.andThen_ok, Act.run_bind, ht, Option.elim_some, Act.forEach, run_topicMetadata hat]
    cases t.metadata? <;> rfl

/-- A pass over addresses that are all in the heap is a pass over the topics. -/
private theorem mapM_heap {α : Type} (heap : List Topic) (f : Topic → Option α) (l : List (Sigma fun _ : String => TopicRef))
    (h : ∀ e ∈ l, ∃ t, heap[e.2]? = some t) :
    (l.map (·.2)).mapM (fun a => (heap[a]?).bind f) = (l.filterMap fun e => heap[e.2]?).mapM f := by
  induction l with
  | nil => rfl
  | cons e l ih =>
    obtain ⟨t, ht⟩ := h e (List.mem_cons_self ..)
    have ih' := ih fun e' he' => h e' (List.mem_cons_of_mem _ he')
    have hcons : ((e :: l).filterMap fun e => heap[e.2]?) = t :: l.filterMap fun e => heap[e.2]? :=
      List.filterMap_cons_some ht
    rw [hcons]
    simp only [List.map_cons, List.mapM_cons, ih', ht, Option.bind_some]

theorem run_metadata_none (h : b.shutdown = false) (brokerId : String) :
    (metadata brokerId none).run b =
      ((b.allTopics.mapM Topic.metadata?).elim .panic fun ms => .ok ⟨brokerId, ms⟩, b) := by
  have hall : (Act.forEach topicMetadata (b.topics.entries.map (·.2))).run b =
      ((b.allTopics.mapM Topic.metadata?).elim .panic .ok, b) := by
    have hbound : ∀ e ∈ b.topics.entries, ∃ t, b.heap[e.2]? = some t := by
      intro e he
      obtain ⟨t, ht, -⟩ := b.bound e.1 e.2 (AList.mem_lookup_iff.2 he)
      exact ⟨t, ht⟩
    rw [allTopics, ← mapM_heap b.heap Topic.metadata? b.topics.entries hbound]
    refine Act.run_forEach_option fun a ha => ?_
    obtain ⟨e, he, rfl⟩ := List.mem_map.1 ha
    obtain ⟨t, ht⟩ := hbound e he
    rw [run_topicMetadata ht, ht, Option.bind_some]
  rw [metadata, Act.run_bind, run_checkShutdown h, Outcome.andThen_ok, Act.run_bind, Act.run_read, Outcome.andThen_ok,
    Act.run_bind, hall]
  cases b.allTopics.mapM Topic.metadata? <;> rfl

/-! ### Reads among the steps of others -/

/-- A read of a topic by name sees one state of the topic, or fails because of a shutdown or because there is no such
topic. -/
def Seen {α : Type} (topic : String) (g : Topic → Outcome RmqError α) (b : InMemoryBackend) (o : Outcome RmqError α) :
    Prop :=
  (∃ t, b.topic? topic = some t ∧ o = g t) ∨ o = .err .brokerShutdown ∨ o = .err (.topicNotFound topic)

private theorem after_readByName {α : Type} (topic : String) (g : Topic → Outcome RmqError α) (b : InMemoryBackend) :
    (checkShutdown >>= fun _ => getTopic topic >>= fun a => readTopic a g).After Later (fun b b' => b' = b)
      (fun b' o b'' => b'' = b' ∧ ((∃ t, b'.topic? topic = some t ∧ o = g t) ∨
        (o = .err .brokerShutdown ∧ b'.shutdown = true) ∨
        (o = .err (.topicNotFound topic) ∧ b.topic? topic = none))) b b := by
  refine Act.After.read_bind rfl ?_ ?_ ?_
  · rintro c _ hbc -
    refine Act.After.read_bind rfl ?_ ?_ ?_
    · rintro d a - ha
      -- the topic was found; others may only have added to it since
      refine ⟨rfl, fun e hde => ⟨rfl, Or.inl ?_⟩⟩
      have ha' : d.topics.lookup topic = some a := by
        cases h : d.topics.lookup topic with
        | none => simp [h] at ha
        | some a' => simpa [h] using ha
      obtain ⟨t, ht, htopic, -⟩ := topic?_of_lookup (hde.topics topic a ha')
      exact ⟨t, htopic, by simp [ht]⟩
    · rintro d e hcd he
      refine ⟨rfl, Or.inr (Or.inr ?_)⟩
      cases h : d.topics.lookup topic with
      | none =>
        refine ⟨by simpa [h, eq_comm] using he, ?_⟩
        cases ht : b.topic? topic with
        | none => rfl
        -- topics stay, so the topic was not there at the beginning either
        | some t =>
          obtain ⟨t', ht', -⟩ := (hbc.trans hcd).topic? ht
          rw [lookup_eq_none_iff.1 h] at ht'
          cases ht'
      | some a' => simp [h] at he
    · rintro d - hp
      cases h : d.topics.lookup topic <;> simp [h] at hp
  · rintro c e - he
    refine ⟨rfl, Or.inr (Or.inl ?_)⟩
    cases h : c.shutdown with
    | true => exact ⟨by simpa [h, eq_comm] using he, rfl⟩
    | false => simp [h] at he
  · rintro c - hp
    cases h : c.shutdown <;> simp [h] at hp

theorem after_fetchOne (topic : String) (partition offset : Int) (b : InMemoryBackend) :
    (fetchOne topic partition offset).After Later (fun b b' => b' = b)
      (fun b o b' => b' = b ∧ b.Seen topic (fun t => ofResult (t.fetchOne partition offset)) o) b b :=
  (after_readByName topic _ b).mono (fun _ _ h => h) fun _ _ _ h => ⟨h.1, h.2.imp_right (Or.imp And.left And.left)⟩

/-- A fetch from a topic that exists. -/
theorem after_fetchOne_of_topic {topic : String} {t₀ : Topic} {b : InMemoryBackend} (h : b.topic? topic = some t₀)
    (partition offset : Int) :
    (fetchOne topic partition offset).After Later (fun b b' => b' = b) (fun b o b' => b' = b ∧
      ((∃ t, b.topic? topic = some t ∧ o = ofResult (t.fetchOne partition offset)) ∨
        (o = .err .brokerShutdown ∧ b.shutdown = true))) b b := by
  refine (after_readByName topic _ b).mono (fun _ _ h => h) fun _ _ _ ho => ⟨ho.1, ho.2.imp_right fun hs => ?_⟩
  refine hs.elim id fun hnone => ?_
  rw [h] at hnone
  cases hnone.2

theorem after_watermarks (topic : String) (partition : Int) (b : InMemoryBackend) :
    (watermarks topic partition).After Later (fun b b' => b' = b)
      (fun b o b' => b' = b ∧ b.Seen topic (fun t => ofResult (t.watermarks partition)) o) b b :=
  (after_readByName topic _ b).mono (fun _ _ h => h) fun _ _ _ h => ⟨h.1, h.2.imp_right (Or.imp And.left And.left)⟩

variable {b₀ b' : InMemoryBackend}

private theorem yields_partitions (a : TopicRef) (l : List Int) :
    (Act.forEach (partitionMetadata a) l).Yields fun partitions => partitions.map (·.id) = l := by
  have hread : ∀ {β : Type} (g : Topic → β), (readTopic a fun t => .ok (g t)).Yields fun _ => True := fun g =>
    Act.yields_read (fun _ _ _ => trivial) fun c e h => by
      cases hc : c.heap[a]? <;> simp [hc] at h
  have hone : ∀ i, (partitionMetadata a i).Yields fun m : PartitionMetadata => i = m.id := fun i =>
    (hread _).bind fun _ _ => (hread _).bind fun _ _ => rfl
  refine (Act.Yields.forEach hone l).mono fun partitions h => ?_
  have h := List.forall₂_map_right_iff.2 h
  rw [List.forall₂_eq_eq_eq] at h
  exact h.symm

private theorem always_partitions (a : TopicRef) (l : List Int) :
    (Act.forEach (partitionMetadata a) l).Always Later := by
  refine Act.Always.forEach (fun i => ?_) l
  refine ((readOnly_readTopic a _).always Later.refl).bind fun _ => ?_
  exact ((readOnly_readTopic a _).always Later.refl).bind fun _ => trivial

/-- A topic that is found has its partitions listed, whatever happens meanwhile. -/
private theorem after_topicMetadata {a : TopicRef} {t : Topic} (ht : b'.heap[a]? = some t) (h : b.Later b') :
    (topicMetadata a).After Later Later (fun b o b' => b.Later b' ∧ (∀ m, o = .ok m →
      m.name = t.name ∧ m.partitions.map (·.id) = (List.range t.partitionCount.toNat).map Int.ofNat) ∧
      ∀ e, o ≠ .err e) b b' := by
  refine Act.After.read_bind h ?_ ?_ ?_
  · rintro c r hc hr
    obtain ⟨t', ht', hl⟩ := hc.heap a t ht
    simp only [ht', Outcome.ok.injEq] at hr
    subst hr
    show Act.After _ _ _ (if t'.partitionCount < 0 then _ else _) c c
    split
    · exact ⟨.refl c, by simp, by simp⟩
    · refine ((yields_partitions a _).after (always_partitions a _) (.refl c)).bind ?_ ?_
        fun _ _ h => ⟨h.1, by simp, by simp⟩
      · rintro partitions d d' ⟨hd, hp, -⟩
        refine ⟨hd, fun m hm => ?_, by simp⟩
        obtain rfl := Outcome.ok.inj hm
        exact ⟨hl.name, by rw [hp partitions rfl, hl.partitionCount]⟩
      · exact fun e _ _ h => absurd rfl (h.2.2 e)
  · rintro c e hc he
    obtain ⟨t', ht', -⟩ := hc.heap a t ht
    simp [ht'] at he
  · rintro c hc hp
    obtain ⟨t', ht', -⟩ := hc.heap a t ht
    simp [ht'] at hp

/-- The result of asking for a topic: the topic with its partitions, or an error because it did not exist or because of
a shutdown. -/
def Snapshot (b₀ : InMemoryBackend) (name : String) (b : InMemoryBackend) : Outcome RmqError Metadata → Prop
  | .ok m => ∃ n tm, b.count? name = some n ∧ m.topics = [tm] ∧ tm.name = name ∧
      tm.partitions.map (·.id) = (List.range n.toNat).map Int.ofNat
  | .err _ => b.shutdown = true ∨ b₀.count? name = none
  | .panic => True

theorem after_metadata (brokerId name : String) (h : b.Later b') (h₀ : b₀.Later b') :
    (metadata brokerId (some name)).After Later Later (fun b o b' => b.Later b' ∧ b₀.Snapshot name b' o) b b' := by
  refine Act.After.read_bind h ?_ ?_ ?_
  · rintro c _ hc -
    refine Act.After.read_bind (.refl c) ?_ ?_ ?_
    · rintro d found hd hf
      cases ha : d.topics.lookup name with
      | none => simp [ha] at hf
      | some a =>
        obtain rfl : [a] = found := by simpa [ha] using hf
        -- between the lookup and the read the topic keeps its partitions
        obtain ⟨t, hat, ht, hn⟩ := topic?_of_lookup ha
        have hcount : d.count? name = some t.partitionCount := by rw [count?, ht]; rfl
        have htopic := (after_topicMetadata hat (.refl d)).keep (J := fun d' => d.Later d') (fun _ _ => .trans)
          (fun _ _ => .trans) (fun _ _ _ h => h.1) (.refl d)
        show Act.After _ _ _ (Act.forEach topicMetadata [a] >>= _) d d
        rw [Act.forEach_singleton_bind]
        refine htopic.bind ?_ (fun e _ _ h => absurd rfl (h.1.2.2 e)) fun _ _ h => ⟨h.1.1, trivial⟩
        rintro m e e' ⟨⟨he, hm, -⟩, hde⟩
        obtain ⟨hname, hids⟩ := hm m rfl
        exact ⟨he, _, m, hde.count? hcount, rfl, hname.trans hn, hids⟩
    · rintro d e hd he
      refine ⟨.refl d, Or.inr ?_⟩
      -- no topic of this name: a topic of `b₀` would still be registered
      cases hcount : b₀.count? name with
      | none => rfl
      | some n =>
        obtain ⟨t, ht, -⟩ := Option.map_eq_some_iff.1 ((h₀.trans (hc.trans hd)).count? hcount)
        have hnone : d.topics.lookup name = none := by
          cases ha : d.topics.lookup name with
          | none => rfl
          | some a => simp [ha] at he
        rw [lookup_eq_none_iff.1 hnone] at ht
        cases ht
    · rintro d hd hp
      exact ⟨.refl d, trivial⟩
  · rintro c e hc he
    refine ⟨.refl c, Or.inl ?_⟩
    by_contra hs
    simp [hs] at he
  · rintro c hc hp
    exact ⟨.refl c, trivial⟩

/-! ### After shutdown -/

/-- Every operation but `get_partition_notifies` and `shutdown` begins with the check of the flag. -/
theorem run_checked_of_shutdown {α : Type} (h : b.shutdown = true) (f : Unit → BackendM α) :
    (checkShutdown >>= f).run b = (.err .brokerShutdown, b) := by
  simp [checkShutdown, h]

end InMemoryBackend

end RMemQueue
