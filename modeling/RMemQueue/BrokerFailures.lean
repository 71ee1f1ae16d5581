import RMemQueue.Assignment
import RMemQueue.BrokerRun
import RMemQueue.Lib.Triple
import RMemQueue.LogContract

/-!
# How the broker's operations fail

For each operation, whatever other threads do meanwhile: which errors it can end with, what has happened when it does,
and what makes it panic.  A `Scope` lists what the errors of an operation can be about; a topic that has been found
stays, so that only the operations that ask for a topic by name find none.

Every topic is created with `n` partitions, the default of the configuration, and every offset of the store has been
committed (`Broker.Regular`); no step of any operation destroys this (`Broker.Onward`).
-/

namespace RMemQueue

open Conc
open Outcome (Ends)

/-- What the errors of an operation can be about: topics and groups that do not exist, partitions that are out of range;
`offsets` are the offsets that are out of range. -/
structure Scope where
  topics : String → Prop
  partitions : String × Int → Prop
  groups : String → Prop
  offsets : Prop

/-- The error reports a shutdown, or something in the scope; a topic has `n` partitions. -/
def Scope.Allows (S : Scope) (n : Int) (down : Prop) : RmqError → Prop
  | .brokerShutdown => down
  | .topicNotFound topic => S.topics topic
  | .partitionOutOfRange topic p => S.partitions (topic, p) ∧ ¬(0 ≤ p ∧ p < n)
  | .groupNotFound groupId => S.groups groupId
  | .offsetOutOfRange _ _ _ => S.offsets
  | .invalidConfig _ => False
  | .custom _ => False

theorem Scope.Allows.mono_down {S : Scope} {n : Int} {down down' : Prop} (h : down → down') {e : RmqError}
    (he : S.Allows n down e) : S.Allows n down' e := by
  cases e with
  | brokerShutdown => exact h he
  | _ => exact he

/-! ### The backend -/

namespace InMemoryBackend

/-- Every topic has `n` partitions. -/
def Counted (n : Int) (b : InMemoryBackend) : Prop := ∀ t ∈ b.heap, t.partitionCount = n

/-- What a step of an operation does, if new topics have `n` partitions. -/
structure Onward (n : Int) (b b' : InMemoryBackend) : Prop where
  later : b.Later b'
  counted : b.Counted n → b'.Counted n

variable {n : Int} {b b' : InMemoryBackend}

theorem Onward.refl (b : InMemoryBackend) : b.Onward n b := ⟨.refl b, id⟩

theorem Counted.of_topic? (h : b.Counted n) {topic : String} {t : Topic} (ht : b.topic? topic = some t) :
    t.partitionCount = n := by
  obtain ⟨a, -, hat⟩ := Option.bind_eq_some_iff.1 ht
  exact h t (List.mem_of_getElem? hat)

private theorem onward_insertTopic (b : InMemoryBackend) (topic : String) : b.Onward n (b.insertTopic topic n) := by
  refine ⟨later_insertTopic b topic n, fun h t ht => ?_⟩
  unfold insertTopic at ht
  split at ht
  · exact h t ht
  · rcases List.mem_append.1 ht with ht | ht
    · exact h t ht
    · rw [List.mem_singleton.1 ht]
      rfl

private theorem onward_setTopic {a : TopicRef} {t t' : Topic} (h : b.heap[a]? = some t) (ht : t.Later t') :
    b.Onward n (b.setTopic a t t' h ht) := by
  refine ⟨later_setTopic h ht, fun hb u hu => ?_⟩
  rcases List.mem_or_eq_of_mem_set hu with hu | rfl
  · exact hb u hu
  · rw [ht.partitionCount]
    exact hb t (List.mem_of_getElem? h)

private theorem onward_setShutdown (b : InMemoryBackend) : b.Onward n b.setShutdown := by
  refine ⟨later_setShutdown b, fun hb u hu => ?_⟩
  obtain ⟨t, ht, rfl⟩ := List.mem_map.1 hu
  exact hb t ht

/-! Assertions that every step keeps. -/

theorem stable_counted : Stable (Onward n) (Counted n) := fun _ _ h hr => hr.counted h

theorem stable_bound (topic : String) (a : TopicRef) : Stable (Onward n) fun b => b.topics.lookup topic = some a :=
  fun _ _ h hr => hr.later.topics topic a h

theorem stable_known (topic : String) : Stable (Onward n) fun b => (b.topics.lookup topic).isSome := by
  intro b b' h hr
  obtain ⟨a, ha⟩ := Option.isSome_iff_exists.1 h
  rw [hr.later.topics topic a ha]
  rfl

theorem stable_address (a : TopicRef) : Stable (Onward n) fun b => (b.heap[a]?).isSome := by
  intro b b' h hr
  obtain ⟨t, ht⟩ := Option.isSome_iff_exists.1 h
  obtain ⟨t', ht', -⟩ := hr.later.heap a t ht
  rw [ht']
  rfl

/-! The operations. -/

variable {S : Scope} {B P : InMemoryBackend → Prop} {α : Type}

/-- How an operation ends whose errors are in the scope. -/
abbrev Fails (n : Int) (S : Scope) (B : InMemoryBackend → Prop) (V : α → InMemoryBackend → Prop) :
    Outcome RmqError α → InMemoryBackend → Prop :=
  Ends V (fun e b => S.Allows n (b.shutdown = true) e) B

theorem triple_checkShutdown (hP : Stable (Onward n) P) :
    checkShutdown.Triple (Onward n) P (Fails n S B fun _ => P) := by
  refine Act.triple_read hP .refl fun b hb => ?_
  cases hs : b.shutdown with
  | true => exact hs
  | false => exact hb

theorem triple_getTopic (hP : Stable (Onward n) P) {topic : String}
    (h : ∀ b, P b → b.topics.lookup topic = none → S.topics topic) :
    (getTopic topic).Triple (Onward n) P (Fails n S B fun a b => P b ∧ b.topics.lookup topic = some a) := by
  refine Act.triple_read hP .refl fun b hb => ?_
  cases ha : b.topics.lookup topic with
  | none => exact h b hb ha
  | some a => exact ⟨hb, ha⟩

theorem triple_readTopic {a : TopicRef} {g : Topic → Outcome RmqError α}
    {Q : Outcome RmqError α → InMemoryBackend → Prop} (hP : Stable (Onward n) P) (h : ∀ b, P b → ∃ t, b.heap[a]? = some t ∧ Q (g t) b) :
    (readTopic a g).Triple (Onward n) P Q := by
  refine Act.triple_read hP .refl fun b hb => ?_
  obtain ⟨t, ht, hQ⟩ := h b hb
  rw [ht]
  exact hQ

/-- The reads of a topic by its name. -/
private theorem triple_readByName {topic : String} {g : Topic → Outcome RmqError α} {V : α → InMemoryBackend → Prop}
    (hT : S.topics topic)
    (h : ∀ (b : InMemoryBackend) t, b.Counted n → b.topic? topic = some t → Fails n S B V (g t) b) :
    (do checkShutdown; let a ← getTopic topic; readTopic a g : BackendM α).Triple (Onward n) (Counted n)
      (Fails n S B V) := by
  refine (triple_checkShutdown stable_counted).bind fun _ => ?_
  refine (triple_getTopic stable_counted fun _ _ _ => hT).bind fun a => ?_
  refine triple_readTopic (stable_counted.and (stable_bound topic a)) ?_
  rintro b ⟨hb, ha⟩
  obtain ⟨t, hat, ht, -⟩ := topic?_of_lookup ha
  exact ⟨t, hat, h b t hb ht⟩

/-- Only a partition whose number is out of range is missing. -/
private theorem out_of_range (hb : b.Counted n) {topic : String} {t : Topic} (ht : b.topic? topic = some t) {p : Int}
    (hp : t.partition? p = none) : ¬(0 ≤ p ∧ p < n) := by
  rw [← hb.of_topic? ht, ← t.isSome_partition?, hp]
  simp

theorem triple_watermarks {topic : String} {p : Int} (hT : S.topics topic) (hp : S.partitions (topic, p)) :
    (watermarks topic p).Triple (Onward n) (Counted n) (Fails n S B fun r _ => -1 ≤ r.2 ∧ r.2 < i64Max) := by
  refine triple_readByName hT fun b t hb ht => ?_
  rw [Topic.watermarks, Topic.getPartition_eq]
  cases htp : t.partition? p with
  | none =>
    refine ⟨?_, out_of_range hb ht htp⟩
    rw [name_of_topic? ht]
    exact hp
  | some q =>
    have hmax := q.next_le_i64Max
    have hw : q.watermarks.2 = q.abs.next - 1 := by rw [q.watermarks_eq]
    show -1 ≤ q.watermarks.2 ∧ q.watermarks.2 < i64Max
    omega

theorem triple_fetchOne {topic : String} {p o : Int} (hT : S.topics topic) (hp : S.partitions (topic, p))
    (ho : S.offsets) : (fetchOne topic p o).Triple (Onward n) (Counted n) (Fails n S B fun _ _ => True) := by
  refine triple_readByName hT fun b t hb ht => ?_
  rw [Topic.fetchOne, Topic.getPartition_eq]
  cases htp : t.partition? p with
  | none =>
    refine ⟨?_, out_of_range hb ht htp⟩
    rw [name_of_topic? ht]
    exact hp
  | some q =>
    show Fails n S B _ (ofResult (q.readOne o)) b
    rcases q.readOne_cases o with ⟨_, m, -, -, hr⟩ | ⟨-, hr⟩ | ⟨-, -, hr⟩
    · rw [hr]
      trivial
    · rw [hr]
      trivial
    · rw [hr]
      exact ho

private theorem triple_topicMetadata (h0 : 0 ≤ n) (a : TopicRef) :
    (topicMetadata a).Triple (Onward n) (fun b => b.Counted n ∧ (b.heap[a]?).isSome)
      (Fails n S B fun m _ => m.partitions.length = n.toNat) := by
  have hP : Stable (Onward n) fun b => b.Counted n ∧ (b.heap[a]?).isSome := stable_counted.and (stable_address a)
  have hread : ∀ {β : Type} (g : Topic → β), (readTopic a fun t => .ok (g t)).Triple (Onward n)
      (fun b => b.Counted n ∧ (b.heap[a]?).isSome)
      (Fails n S B fun _ b => b.Counted n ∧ (b.heap[a]?).isSome) := by
    refine fun g => triple_readTopic hP fun b hb => ?_
    obtain ⟨t, ht⟩ := Option.isSome_iff_exists.1 hb.2
    exact ⟨t, ht, hb⟩
  have hfirst : (readTopic a fun t => .ok (t.name, t.partitionCount)).Triple (Onward n)
      (fun b => b.Counted n ∧ (b.heap[a]?).isSome)
      (Fails n S B fun r b => (b.Counted n ∧ (b.heap[a]?).isSome) ∧ r.2 = n) := by
    refine triple_readTopic hP fun b hb => ?_
    obtain ⟨t, ht⟩ := Option.isSome_iff_exists.1 hb.2
    exact ⟨t, ht, hb, hb.1 t (List.mem_of_getElem? ht)⟩
  refine hfirst.bind fun r => ?_
  obtain ⟨name, count⟩ := r
  show Act.Triple _ _ (if count < 0 then _ else _) _
  split
  · rename_i hneg
    refine Act.triple_ret ?_
    rintro b ⟨-, rfl⟩
    omega
  · have hpart : ∀ i ∈ (List.range count.toNat).map Int.ofNat, (partitionMetadata a i).Triple (Onward n)
        (fun b => (b.Counted n ∧ (b.heap[a]?).isSome) ∧ count = n) (Fails n S B fun _ _ => True) := by
      intro i _
      refine ((hread _).mono (fun b h => h.1) fun _ _ h => h).bind fun _ => ?_
      exact (hread _).bind fun _ => Act.triple_ret fun _ _ => trivial
    refine (Act.triple_forEach (hP.and (Stable.const _)) hpart).bind fun partitions => Act.triple_ret ?_
    rintro b ⟨⟨-, rfl⟩, hlen, -⟩
    show partitions.length = count.toNat
    rw [hlen]
    simp

theorem triple_metadata (h0 : 0 ≤ n) (brokerId : String) (topic : Option String) (hP : Stable (Onward n) P)
    (hcounted : ∀ b, P b → b.Counted n)
    (h : ∀ b name, P b → topic = some name → b.topics.lookup name = none → S.topics name) :
    (metadata brokerId topic).Triple (Onward n) P
      (Fails n S B fun m b => P b ∧ ∀ tm ∈ m.topics, tm.partitions.length = n.toNat) := by
  refine (triple_checkShutdown hP).bind fun _ => ?_
  refine Act.Triple.bind (V := fun (found : List TopicRef) b => P b ∧ ∀ a ∈ found, (b.heap[a]?).isSome)
    (Act.triple_read hP .refl fun b hb => ?_) fun found => ?_
  · have hbound : ∀ (name : String) a, b.topics.lookup name = some a → (b.heap[a]?).isSome := by
      intro name a ha
      obtain ⟨t, ht, -⟩ := b.bound name a ha
      rw [ht]
      rfl
    cases topic with
    | none =>
      refine ⟨hb, fun a ha => ?_⟩
      obtain ⟨⟨name, a'⟩, he, rfl⟩ := List.mem_map.1 ha
      exact hbound name a' (AList.mem_lookup_iff.2 he)
    | some name =>
      dsimp only
      cases ha : b.topics.lookup name with
      | none => exact h b name hb rfl ha
      | some a =>
        refine ⟨hb, fun a' ha' => ?_⟩
        rw [List.mem_singleton.1 ha']
        exact hbound name a ha
  · have hstable : Stable (Onward n) fun b => P b ∧ ∀ a ∈ found, (b.heap[a]?).isSome :=
      hP.and fun b b' hb hr a ha => stable_address a b b' (hb a ha) hr
    have hone : ∀ a ∈ found, (topicMetadata a).Triple (Onward n) (fun b => P b ∧ ∀ a ∈ found, (b.heap[a]?).isSome)
        (Fails n S B fun tm _ => tm.partitions.length = n.toNat) :=
      fun a ha => (triple_topicMetadata h0 a).mono (fun b hb => ⟨hcounted b hb.1, hb.2 a ha⟩) fun _ _ h => h
    refine (Act.triple_forEach hstable hone).bind fun topics => Act.triple_ret ?_
    rintro b ⟨⟨hb, -⟩, -, hall⟩
    exact ⟨hb, hall⟩

theorem triple_ensureTopic (topic : String) (hP : Stable (Onward n) P) :
    (ensureTopic topic n).Triple (Onward n) P
      (Fails n S B fun _ b => P b ∧ (b.topics.lookup topic).isSome) := by
  refine (triple_checkShutdown hP).bind fun _ => ?_
  have hknown : (Act.read fun b : InMemoryBackend => .ok (b.topics.lookup topic).isSome).Triple (Onward n) P
      (Fails n S B fun known b => P b ∧ (known = true → (b.topics.lookup topic).isSome)) :=
    Act.triple_read hP .refl fun b hb => ⟨hb, id⟩
  refine hknown.bind fun known => ?_
  cases known with
  | true => exact Act.triple_ret fun b hb => ⟨hb.1, hb.2 rfl⟩
  | false =>
    refine Act.triple_modify (P := fun b => P b ∧ (false = true → (b.topics.lookup topic).isSome))
      (hP.and fun _ _ _ _ h => (nomatch h)) fun b hb => ?_
    have honward := onward_insertTopic (n := n) b topic
    refine ⟨honward, hP b _ hb.1 honward, ?_⟩
    show ((b.insertTopic topic n).topics.lookup topic).isSome
    unfold insertTopic
    split
    · assumption
    · simp

/-- Some partition of the topic has no offset left. -/
def Full (b : InMemoryBackend) (topic : String) : Prop := ∃ p, i64Max ≤ ((b.log topic p).next : Int)

theorem stable_full (topic : String) : Stable (Onward n) fun b => b.Full topic := by
  rintro b b' ⟨p, hp⟩ hr
  have hle := TrimmedLog.next_mono (hr.later.log topic p)
  exact ⟨p, by omega⟩

private theorem triple_produceAt {topic : String} {a : TopicRef} {p : Int}
    (hp : ¬(0 ≤ p ∧ p < n) → S.partitions (topic, p)) (content : Content) (headers : Option OwnedHeaders) (timestamp : Option Int) (clock : Clock) :
    (produceAt a p content headers timestamp clock).Triple (Onward n)
      (fun b => b.Counted n ∧ b.topics.lookup topic = some a) (Fails n S (·.Full topic) fun _ _ => True) := by
  refine Act.triple_step (stable_counted.and (stable_bound topic a)) ?_
  rintro b ⟨hb, ha⟩
  obtain ⟨t, hat, ht, hname⟩ := topic?_of_lookup ha
  split
  · rename_i u hu
    obtain rfl : t = u := Option.some.inj (hat.symm.trans hu)
    refine ⟨onward_setTopic hu (t.later_produce ..), ?_⟩
    dsimp only
    rcases t.produce_cases p content headers timestamp clock with
      ⟨q, r, q', -, -, ho, -⟩ | ⟨htp, ho⟩ | ⟨q, htp, hfull, ho⟩
    · rw [ho]
      trivial
    · have hout := out_of_range hb ht htp
      rw [setTopic_eq_self hu _ (congrArg Prod.snd ho), congrArg Prod.fst ho, hname]
      exact ⟨hp hout, hout⟩
    · rw [setTopic_eq_self hu _ (congrArg Prod.snd ho), congrArg Prod.fst ho]
      refine ⟨p, ?_⟩
      have hq : b.partition? topic p = some q := by rw [partition?, ht]; exact htp
      rw [log_of_partition? hq]
      exact Partition.appendContent_eq_none.1 hfull
  · rename_i hu
    rw [hat] at hu
    cases hu

theorem triple_produce (topic : String) (p : Int) (hp : ¬(0 ≤ p ∧ p < n) → S.partitions (topic, p)) (content : Content)
    (headers : Option OwnedHeaders) (timestamp : Option Int) (clock : Clock) :
    (produce topic p content headers timestamp clock).Triple (Onward n)
      (fun b => b.Counted n ∧ (b.topics.lookup topic).isSome) (Fails n S (·.Full topic) fun _ _ => True) := by
  have hP : Stable (Onward n) fun b => b.Counted n ∧ (b.topics.lookup topic).isSome :=
    stable_counted.and (stable_known topic)
  refine (triple_checkShutdown hP).bind fun _ => ?_
  -- the topic has been created before, and stays
  refine (triple_getTopic hP fun b hb hnone => ?_).bind fun a => ?_
  · rw [hnone] at hb
    cases hb.2
  · refine ((triple_produceAt hp content headers _ clock).mono (fun b hb => ⟨hb.1.1, hb.2⟩) fun _ _ h => h).bind
      fun r => ?_
    exact Act.triple_ret fun _ _ => trivial

theorem triple_shutdownBackend (hP : Stable (Onward n) P) :
    shutdownBackend.Triple (Onward n) P (Fails n S B fun _ _ => True) :=
  Act.triple_modify hP fun b _ => ⟨onward_setShutdown b, trivial⟩

theorem triple_getPartitionNotifies (topics : List String) :
    (getPartitionNotifies topics).Triple (Onward n) (fun _ => True) (Fails n S B fun _ _ => True) :=
  Act.triple_read (Stable.const True) .refl fun _ _ => trivial

end InMemoryBackend

/-! ### The broker -/

namespace Broker

variable {π : Type} {n : Int} {C : String × String × Int → Int → Prop}

/-- Every offset of the store has been committed. -/
def OffsetsFrom (C : String × String × Int → Int → Prop) (b : Broker π) : Prop :=
  ∀ key o, b.offsetStore.lookup key = some o → C key o

/-- What a step of an operation does, if the commits are among `C`. -/
structure Onward (n : Int) (C : String × String × Int → Int → Prop) (b b' : Broker π) : Prop where
  later : b.Later b'
  counted : b.backend.Counted n → b'.backend.Counted n
  stored : b.OffsetsFrom C → b'.OffsetsFrom C

/-- What holds in every run. -/
structure Regular (n : Int) (C : String × String × Int → Int → Prop) (b : Broker π) : Prop where
  config : b.config.defaultNumPartitions = n
  counted : b.backend.Counted n
  stored : b.OffsetsFrom C

/-- The shutdown has begun. -/
def Closing (b : Broker π) : Prop := b.shutdown = true ∨ b.backend.shutdown = true

variable {b b' : Broker π}

theorem Onward.refl (b : Broker π) : b.Onward n C b := ⟨.refl b, id, id⟩

theorem Onward.trans {b₁ b₂ b₃ : Broker π} (h : b₁.Onward n C b₂) (h' : b₂.Onward n C b₃) : b₁.Onward n C b₃ :=
  ⟨h.later.trans h'.later, h'.counted ∘ h.counted, h'.stored ∘ h.stored⟩

theorem Onward.backend (h : b.Onward n C b') : b.backend.Onward n b'.backend := ⟨h.later.backend, h.counted⟩

theorem stable_regular : Stable (Onward n C) (Regular n C : Broker π → Prop) :=
  fun _ _ h hr => ⟨hr.later.config.symm ▸ h.config, hr.counted h.counted, hr.stored h.stored⟩

theorem stable_closing : Stable (Onward n C) (Closing : Broker π → Prop) :=
  fun _ _ h hr => h.imp hr.later.shutdown hr.later.backend.shutdown

theorem stable_backend {F : InMemoryBackend → Prop} (hF : Stable (InMemoryBackend.Onward n) F) :
    Stable (Onward n C) fun b : Broker π => F b.backend :=
  fun _ _ h hr => hF _ _ h hr.backend

theorem stable_group (groupId : String) :
    Stable (Onward n C) fun b : Broker π => (b.consumerGroups.lookup groupId).isSome :=
  fun _ _ h hr => hr.later.groups groupId h

theorem stable_allows (S : Scope) (e : RmqError) : Stable (Onward n C) fun b : Broker π => S.Allows n b.Closing e :=
  fun b b' h hr => h.mono_down fun hd => stable_closing b b' hd hr

variable {S : Scope} {B P : Broker π → Prop} {α : Type}

/-- How an operation ends whose errors are in the scope. -/
abbrev Fails (n : Int) (S : Scope) (B : Broker π → Prop) (V : α → Broker π → Prop) :
    Outcome RmqError α → Broker π → Prop :=
  Ends V (fun e b => S.Allows n b.Closing e) B

/-- An operation of the backend. -/
theorem triple_onBackend {x : BackendM α} {Q : InMemoryBackend → Prop} {V : α → InMemoryBackend → Prop}
    {F : InMemoryBackend → Prop} (hP : Stable (Onward n C) P)
    (hx : x.Triple (InMemoryBackend.Onward n) Q (InMemoryBackend.Fails n S F V)) (hQ : ∀ b, P b → Q b.backend)
    (hB : ∀ b, F b.backend → B b) :
    (onBackend x).Triple (Onward n C) P (Fails n S B fun a b => P b ∧ V a b.backend) := by
  have hzoom : (x.zoom backendLens).Triple (Onward n C) P fun o b => InMemoryBackend.Fails n S F V o b.backend :=
    hx.zoom (fun _ _ h => h.backend) (fun t s h => ⟨⟨h.later, rfl, id, fun _ => id⟩, h.counted, id⟩) hQ
  refine (hzoom.frame hP).mono (fun b hb => ⟨hb, hb⟩) ?_
  rintro (a | e | _) b ⟨h, hb⟩
  · exact ⟨hb, h⟩
  · exact Scope.Allows.mono_down Or.inr h
  · exact hB b h

theorem triple_checkShutdown (hP : Stable (Onward n C) P) :
    (checkShutdown : BrokerM π Unit).Triple (Onward n C) P (Fails n S B fun _ => P) := by
  refine Act.triple_read hP .refl fun b hb => ?_
  cases hs : b.shutdown with
  | true => exact Or.inl hs
  | false => exact hb

private theorem triple_getConfig (hP : Stable (Onward n C) P) (hreg : ∀ b, P b → b.Regular n C) :
    (getConfig : BrokerM π BrokerConfig).Triple (Onward n C) P
      (Fails n S B fun config b => P b ∧ config.defaultNumPartitions = n) :=
  Act.triple_read hP .refl fun b hb => ⟨hb, (hreg b hb).config⟩

private theorem triple_ensureTopic (topic : String) (hP : Stable (Onward n C) P) :
    (ensureTopic topic n : BrokerM π Unit).Triple (Onward n C) P
      (Fails n S B fun _ b => P b ∧ (b.backend.topics.lookup topic).isSome) := by
  have hensure := InMemoryBackend.triple_ensureTopic (n := n) (S := S) (B := fun _ => False) topic (Stable.const True)
  exact (triple_onBackend hP hensure (fun _ _ => trivial) fun _ h => h.elim).weaken fun _ b h => ⟨h.1, h.2.2⟩

/-- The metadata of a topic that exists or can be missing, or of all topics. -/
private theorem triple_backendMetadata (h0 : 0 ≤ n) (brokerId : String) (topic : Option String)
    (hP : Stable (Onward n C) P) (hreg : ∀ b, P b → b.Regular n C)
    (h : ∀ b name, P b → topic = some name → S.topics name ∨ (b.backend.topics.lookup name).isSome) :
    (onBackend (InMemoryBackend.metadata brokerId topic) : BrokerM π Metadata).Triple (Onward n C) P
      (Fails n S B fun m b => P b ∧ ∀ tm ∈ m.topics, tm.partitions.length = n.toNat) := by
  have hmetadata := InMemoryBackend.triple_metadata (S := S) (B := fun _ => False) h0 brokerId topic
    (P := fun b => b.Counted n ∧ ∀ name, topic = some name → S.topics name ∨ (b.topics.lookup name).isSome)
    (InMemoryBackend.stable_counted.and fun b b' hb hr name hname =>
      (hb name hname).imp_right fun hk => InMemoryBackend.stable_known name b b' hk hr)
    (fun b hb => hb.1) fun b name hb hname hnone => (hb.2 name hname).resolve_right fun hk => by
      rw [hnone] at hk
      cases hk
  exact (triple_onBackend hP hmetadata (fun b hb => ⟨(hreg b hb).counted, fun name => h b name hb⟩)
    fun _ h => h.elim).weaken fun _ b h => ⟨h.1, h.2.2⟩

section

variable [Partitioner π]

/-- The partitioner chooses one of the `n` partitions. -/
def Chooses (π : Type) [Partitioner π] (n : Int) : Prop :=
  ∀ (s : π) topic key, ∃ p, (Partitioner.partition s topic key n).1 = some p ∧ 0 ≤ p ∧ p < n

private theorem triple_recordPartition (hchoose : Chooses π n) (partition : Option Int) (topic : String)
    (key : Option Bytes) (hP : Stable (Onward n C) P) :
    (recordPartition partition topic key n : BrokerM π Int).Triple (Onward n C) P
      (Fails n S B fun p b => P b ∧ (partition = some p ∨ 0 ≤ p ∧ p < n)) := by
  cases partition with
  | some p => exact Act.triple_ret fun b hb => ⟨hb, Or.inl rfl⟩
  | none =>
    refine Act.triple_step hP fun b hb => ?_
    have honward : b.Onward n C { b with partitioner := (Partitioner.partition b.partitioner topic key n).2 } :=
      ⟨⟨.refl _, rfl, id, fun _ => id⟩, id, id⟩
    obtain ⟨p, hp, hrange⟩ := hchoose b.partitioner topic key
    refine ⟨honward, ?_⟩
    dsimp only
    rw [hp]
    exact ⟨hP b _ hb honward, Or.inr hrange⟩

/-- Only an explicit partition is out of range, and the topic exists when the record is appended. -/
theorem triple_produce (h0 : 0 ≤ n) (hchoose : Chooses π n) (call : ProduceCall)
    (hS : ∀ p, call.partition = some p → S.partitions (call.topic, p)) :
    (call.body : BrokerM π RecordMetadata).Triple (Onward n C) (Regular n C)
      (Fails n S (·.backend.Full call.topic) fun _ _ => True) := by
  refine (triple_checkShutdown stable_regular).bind fun _ => ?_
  refine (triple_getConfig stable_regular fun _ h => h).bind fun config => Act.triple_of_fact fun hconfig => ?_
  rw [hconfig]
  refine (triple_ensureTopic call.topic stable_regular).bind fun _ => ?_
  have hknown : Stable (Onward n C) fun b : Broker π => b.Regular n C ∧ (b.backend.topics.lookup call.topic).isSome :=
    stable_regular.and (stable_backend (InMemoryBackend.stable_known call.topic))
  refine (triple_backendMetadata h0 _ _ hknown (fun b hb => hb.1) ?_).bind fun metadata =>
    Act.triple_of_fact fun hmetadata => ?_
  · rintro b _ hb ⟨⟩
    exact Or.inr hb.2
  have hrecord : ∀ count : Int, count = n → (recordPartition call.partition call.topic call.content.partitionKey count :
      BrokerM π Int).Triple (Onward n C)
      (fun b => b.Regular n C ∧ (b.backend.topics.lookup call.topic).isSome)
      (Fails n S (·.backend.Full call.topic) fun p b => (b.Regular n C ∧ (b.backend.topics.lookup call.topic).isSome) ∧
        (call.partition = some p ∨ 0 ≤ p ∧ p < n)) := by
    rintro count rfl
    exact triple_recordPartition hchoose call.partition call.topic _ hknown
  refine (hrecord _ ?_).bind fun p => Act.triple_of_fact fun hp => ?_
  -- whatever topic the metadata lists first, it has `n` partitions
  · split
    · rename_i tm hhead
      rw [hmetadata tm (List.mem_of_mem_head? hhead)]
      omega
    · rfl
  have hproduce := InMemoryBackend.triple_produce (n := n) (S := S) call.topic p
    (fun hout => hS p (hp.resolve_right hout)) call.content call.headers call.timestamp call.clock
  refine (triple_onBackend hknown hproduce (fun b hb => ⟨hb.1.counted, hb.2⟩) fun _ h => h).bind fun r => ?_
  exact Act.triple_ret fun _ _ => trivial

end

theorem triple_watermarks {topic : String} {p : Int} (hP : Stable (Onward n C) P) (hreg : ∀ b, P b → b.Regular n C)
    (hT : S.topics topic) (hp : S.partitions (topic, p)) :
    (watermarks topic p : BrokerM π (Int × Int)).Triple (Onward n C) P
      (Fails n S B fun r b => P b ∧ -1 ≤ r.2 ∧ r.2 < i64Max) :=
  triple_onBackend hP (InMemoryBackend.triple_watermarks (B := fun _ => False) hT hp)
    (fun b hb => (hreg b hb).counted) fun _ h => h.elim

private theorem triple_oldestOffset {topic : String} {p : Int} (hP : Stable (Onward n C) P)
    (hreg : ∀ b, P b → b.Regular n C) (hT : S.topics topic) (hp : S.partitions (topic, p)) :
    (oldestOffset topic p : BrokerM π Int).Triple (Onward n C) P (Fails n S B fun _ => P) :=
  (triple_watermarks hP hreg hT hp).bind fun _ => Act.triple_ret fun _ h => h.1

/-- A commit for the group has no next offset. -/
def Overflows (C : String × String × Int → Int → Prop) (groupId : String) : Prop :=
  ∃ topic p o, C (groupId, topic, p) o ∧ i64Checked (o + 1) = none

/-- Only a fetch for a group panics, since the offset after the committed one overflows. -/
private theorem triple_startOffset {topic : String} {p : Int} (position : Option Int) (groupId : Option String)
    (hT : S.topics topic) (hp : S.partitions (topic, p))
    (hB : ∀ gid, groupId = some gid → Overflows C gid → ∀ b, B b) :
    (startOffset topic p position groupId : BrokerM π Int).Triple (Onward n C) (Regular n C)
      (Fails n S B fun _ => Regular n C) := by
  have holdest : (oldestOffset topic p : BrokerM π Int).Triple (Onward n C) (Regular n C)
      (Fails n S B fun _ => Regular n C) := triple_oldestOffset stable_regular (fun _ h => h) hT hp
  cases position with
  | some o => exact Act.triple_ret fun _ h => h
  | none =>
    cases groupId with
    | none => exact holdest
    | some gid =>
      have hcommitted : (groupOffset gid topic p : BrokerM π (Option Int)).Triple (Onward n C) (Regular n C)
          (Fails n S B fun r b => b.Regular n C ∧ ∀ o, r = some o → C (gid, topic, p) o) := by
        have hknown : (Act.read fun b : Broker π => .ok (b.consumerGroups.lookup gid).isSome).Triple (Onward n C)
            (Regular n C) (Fails n S B fun _ => Regular n C) := Act.triple_read stable_regular .refl fun _ hb => hb
        refine hknown.bind fun known => ?_
        cases known with
        | true => exact Act.triple_read stable_regular .refl fun b hb => ⟨hb, fun o ho => hb.stored _ o ho⟩
        | false => exact Act.triple_ret fun b hb => ⟨hb, by simp⟩
      refine hcommitted.bind fun committed => Act.triple_of_fact fun hC => ?_
      cases committed with
      | none => exact holdest
      | some o =>
        dsimp only
        cases hnext : i64Checked (o + 1) with
        | some offset => exact Act.triple_ret fun _ h => h
        | none => exact Act.triple_ret fun b _ => hB gid rfl ⟨topic, p, o, hC o rfl, hnext⟩ b

theorem triple_fetchOneFromPosition {topic : String} {p : Int} (position : Option Int) (groupId : Option String)
    (hT : S.topics topic) (hp : S.partitions (topic, p)) (ho : S.offsets)
    (hB : ∀ gid, groupId = some gid → Overflows C gid → ∀ b, B b) :
    (fetchOneFromPosition topic p position groupId : BrokerM π (Option StoredMessage)).Triple (Onward n C) (Regular n C)
      (Fails n S B fun _ _ => True) := by
  refine (triple_checkShutdown stable_regular).bind fun _ => ?_
  refine (triple_startOffset position groupId hT hp hB).bind fun offset => ?_
  have hfetch : (onBackend (InMemoryBackend.fetchOne topic p offset) : BrokerM π _).Triple (Onward n C) (Regular n C)
      (Fails n S B fun _ b => b.Regular n C ∧ True) :=
    triple_onBackend stable_regular (InMemoryBackend.triple_fetchOne (B := fun _ => False) hT hp ho)
      (fun b hb => hb.counted) fun _ h => h.elim
  refine (hfetch.attempt stable_regular).bind fun r => ?_
  rcases r with e | msg
  · cases e with
    -- the second look at the oldest offset
    | offsetOutOfRange _ _ _ =>
      refine ((triple_oldestOffset stable_regular (fun _ h => h) hT hp).mono (fun b hb => hb.1) fun _ _ h => h).bind
        fun oldest => ?_
      exact Act.triple_ret fun _ _ => ho
    | _ => exact Act.triple_ret fun b hb => hb.2
  · exact Act.triple_ret fun _ _ => trivial

theorem triple_metadata (h0 : 0 ≤ n) (topic : Option String) (hT : ∀ name, topic = some name → S.topics name) :
    (metadata topic : BrokerM π Metadata).Triple (Onward n C) (Regular n C) (Fails n S B fun _ _ => True) := by
  refine (triple_checkShutdown stable_regular).bind fun _ => ?_
  refine (triple_getConfig stable_regular fun _ h => h).bind fun config => Act.triple_of_fact fun _ => ?_
  exact (triple_backendMetadata h0 _ topic stable_regular (fun _ h => h) fun _ name _ hname =>
    Or.inl (hT name hname)).weaken fun _ _ _ => trivial

theorem triple_shutdownBroker : (shutdownBroker : BrokerM π Unit).Triple (Onward n C) (Regular n C)
    (Fails n S B fun _ _ => True) := by
  have hflag : (Act.modify fun b : Broker π => { b with shutdown := true }).Triple (Onward n C) (Regular n C)
      (Fails n S B fun _ => Regular n C) := by
    refine Act.triple_modify stable_regular fun b hb => ?_
    have honward : b.Onward n C { b with shutdown := true } := ⟨⟨.refl _, rfl, fun _ => rfl, fun _ => id⟩, id, id⟩
    exact ⟨honward, stable_regular b _ hb honward⟩
  exact hflag.bind fun _ => (triple_onBackend stable_regular
    (InMemoryBackend.triple_shutdownBackend (B := fun _ => False) (Stable.const True)) (fun _ _ => trivial)
    fun _ h => h.elim).weaken fun _ _ _ => trivial

/-! Groups. -/

private theorem triple_requireGroup {groupId : String} (hG : S.groups groupId) :
    (requireGroup groupId : BrokerM π Unit).Triple (Onward n C) (Regular n C)
      (Fails n S B fun _ b => b.Regular n C ∧ (b.consumerGroups.lookup groupId).isSome) := by
  refine Act.triple_read stable_regular .refl fun b hb => ?_
  cases hg : (b.consumerGroups.lookup groupId).isSome with
  | true => exact ⟨hb, hg⟩
  | false => exact hG

/-- A group that exists stays. -/
private theorem triple_onGroup {groupId : String} {f : ConsumerGroup → RmqResult α × ConsumerGroup}
    (hf : ∀ g, ∃ a, (f g).1 = .ok a) :
    (onGroup groupId f : BrokerM π α).Triple (Onward n C)
      (fun b => b.Regular n C ∧ (b.consumerGroups.lookup groupId).isSome) (Fails n S B fun _ _ => True) := by
  refine Act.triple_step (stable_regular.and (stable_group groupId)) ?_
  rintro b ⟨-, hgroup⟩
  obtain ⟨g, hg⟩ := Option.isSome_iff_exists.1 hgroup
  obtain ⟨a, ha⟩ := hf g
  simp only [hg, ha]
  exact ⟨⟨updates_later.group b groupId (f g).2, id, id⟩, trivial⟩

theorem triple_joinGroup (h0 : 0 ≤ n) (order : HashOrder) (groupId memberId : String) (topics : List String) :
    (joinGroup order groupId memberId topics : BrokerM π TopicPartitionList).Triple (Onward n C) (Regular n C)
      (Fails n S B fun _ _ => True) := by
  refine (triple_checkShutdown stable_regular).bind fun _ => ?_
  refine (triple_getConfig stable_regular fun _ h => h).bind fun config => Act.triple_of_fact fun hconfig => ?_
  rw [hconfig]
  have htopic : ∀ topic ∈ topics, (ensureTopic topic n : BrokerM π Unit).Triple (Onward n C) (Regular n C)
      (Fails n S B fun _ _ => True) :=
    fun topic _ => (triple_ensureTopic topic stable_regular).weaken fun _ _ _ => trivial
  refine (Act.triple_forEach stable_regular htopic).bind fun _ => ?_
  have hcreate : (Act.modify fun b : Broker π =>
      if (b.consumerGroups.lookup groupId).isSome then b
      else { b with consumerGroups := b.consumerGroups.insert groupId (.new groupId) }).Triple (Onward n C) (Regular n C)
      (Fails n S B fun _ b => b.Regular n C ∧ (b.consumerGroups.lookup groupId).isSome) := by
    refine Act.triple_modify stable_regular fun b hb => ?_
    split
    · rename_i hg
      exact ⟨.refl b, hb, hg⟩
    · have honward : b.Onward n C { b with consumerGroups := b.consumerGroups.insert groupId (.new groupId) } :=
        ⟨updates_later.group b groupId _, id, id⟩
      exact ⟨honward, stable_regular b _ hb honward, by simp⟩
  have hP : Stable (Onward n C) fun b : Broker π => b.Regular n C ∧ (b.consumerGroups.lookup groupId).isSome :=
    stable_regular.and (stable_group groupId)
  refine (hcreate.mono (fun b hb => hb.1) fun _ _ h => h).bind fun _ => ?_
  have hnotifies : (getPartitionNotifies topics : BrokerM π _).Triple (Onward n C)
      (fun b => b.Regular n C ∧ (b.consumerGroups.lookup groupId).isSome)
      (Fails n S B fun _ b => (b.Regular n C ∧ (b.consumerGroups.lookup groupId).isSome) ∧ True) :=
    triple_onBackend hP (InMemoryBackend.triple_getPartitionNotifies (B := fun _ => False) topics) (fun _ _ => trivial)
      fun _ h => h.elim
  refine hnotifies.bind fun _ => Act.triple_of_fact fun _ => ?_
  refine (triple_backendMetadata h0 _ none hP (fun b hb => hb.1) fun _ _ _ h => (nomatch h)).bind fun metadata =>
    Act.triple_of_fact fun _ => ?_
  exact triple_onGroup fun g => ⟨_, (g.join_spec ..).2.1⟩

theorem triple_leaveGroup (h0 : 0 ≤ n) (order : HashOrder) {groupId : String} (memberId : String)
    (hG : S.groups groupId) : (leaveGroup order groupId memberId : BrokerM π Unit).Triple (Onward n C) (Regular n C)
      (Fails n S B fun _ _ => True) := by
  have hP : Stable (Onward n C) fun b : Broker π => b.Regular n C ∧ (b.consumerGroups.lookup groupId).isSome :=
    stable_regular.and (stable_group groupId)
  refine (triple_checkShutdown stable_regular).bind fun _ => (triple_requireGroup hG).bind fun _ => ?_
  refine (triple_getConfig hP fun _ h => h.1).bind fun config => Act.triple_of_fact fun _ => ?_
  refine (triple_backendMetadata h0 _ none hP (fun b hb => hb.1) fun _ _ _ h => (nomatch h)).bind fun metadata =>
    Act.triple_of_fact fun _ => ?_
  exact triple_onGroup fun g => ⟨(), rfl⟩

theorem triple_commitOffset {groupId topic : String} {p o : Int} (hG : S.groups groupId)
    (hC : C (groupId, topic, p) o) :
    (commitOffset groupId topic p o : BrokerM π Unit).Triple (Onward n C) (Regular n C)
      (Fails n S B fun _ _ => True) := by
  refine (triple_checkShutdown stable_regular).bind fun _ => (triple_requireGroup hG).bind fun _ => ?_
  refine Act.triple_modify (stable_regular.and (stable_group groupId)) fun b _ =>
    ⟨⟨⟨.refl _, rfl, id, fun _ => id⟩, id, ?_⟩, trivial⟩
  intro hstored key v hv
  change (b.offsetStore.insert (groupId, topic, p) o).lookup key = some v at hv
  rcases WriteLog.lookup_insert_cases hv with ⟨rfl, rfl⟩ | ⟨-, hold⟩
  · exact hC
  · exact hstored key v hold

theorem triple_committedOffset {groupId : String} (topic : String) (p : Int) (hG : S.groups groupId) :
    (committedOffset groupId topic p : BrokerM π (Option Int)).Triple (Onward n C) (Regular n C)
      (Fails n S B fun _ _ => True) := by
  refine (triple_checkShutdown stable_regular).bind fun _ => (triple_requireGroup hG).bind fun _ => ?_
  exact Act.triple_read (stable_regular.and (stable_group groupId)) .refl fun _ _ => trivial

end Broker

end RMemQueue
