import RMemQueue.WritePoints

/-!
# Writes after a shutdown

`Broker::shutdown` sets the flag of the broker and then the one of the backend.  The operations check the flags before
they write, in critical sections of their own, so that a call which has passed its last check when the backend is shut
down still creates its topic or appends its record.  `Harmless` says at which places a call does not: before a check, or
where there is nothing to create or to append to.  `shutdown_settles` shows that nothing else can happen: if every call
in flight is at such a place when the flag of the backend is set, the topics and the logs stay as they are.
-/

namespace RMemQueue

open Conc

/-! ### The places at which a call does not write any more -/

/-- The flag is checked first, or the topic exists already. -/
def EnsurePoint.Harmless (topic : String) (b : InMemoryBackend) : EnsurePoint → Prop
  | check => True
  | lookUp => (b.topics.lookup topic).isSome
  | insert => (b.topics.lookup topic).isSome

/-- The flag is checked first, or the partition to append to does not exist. -/
def ProducePoint.Harmless (c : ProduceCall) (b : InMemoryBackend) : ProducePoint → Prop
  | ensure _ e => e.Harmless c.topic b
  | getTopic p => b.partition? c.topic p = none
  | append a p => ∃ t, b.heap[a]? = some t ∧ t.partition? p = none
  | _ => True

instance (topic : String) (b : InMemoryBackend) (e : EnsurePoint) : Decidable (e.Harmless topic b) :=
  match e with
  | .check => instDecidableTrue
  | .lookUp => inferInstanceAs (Decidable ((b.topics.lookup topic).isSome = true))
  | .insert => inferInstanceAs (Decidable ((b.topics.lookup topic).isSome = true))

/-- A call at the place writes nothing if the backend is shut down now. -/
def WritePoint.Harmless {π : Type} (b : InMemoryBackend) : WritePoint π → Prop
  | ensureTopic topic _ e => e.Harmless topic b
  | produce c p => p.Harmless c b
  | join _ _ _ _ (.ensure _ topic _ e) => e.Harmless topic b
  | join _ _ _ _ _ => True
  | silent _ => True

instance (c : ProduceCall) (b : InMemoryBackend) (p : ProducePoint) : Decidable (p.Harmless c b) :=
  match p with
  | .ensure _ e => inferInstanceAs (Decidable (e.Harmless c.topic b))
  | .getTopic p => inferInstanceAs (Decidable (b.partition? c.topic p = none))
  | .append a p =>
    decidable_of_iff ((b.heap[a]?).any fun t => (t.partition? p).isNone) (by simp [ProducePoint.Harmless, Option.any_eq_true])
  | .start => instDecidableTrue
  | .config => instDecidableTrue
  | .metadata _ _ => instDecidableTrue
  | .choose _ => instDecidableTrue
  | .check _ => instDecidableTrue

instance {π : Type} (b : InMemoryBackend) (p : WritePoint π) : Decidable (p.Harmless b) :=
  match p with
  | .ensureTopic topic _ e => inferInstanceAs (Decidable (e.Harmless topic b))
  | .produce c p => inferInstanceAs (Decidable (p.Harmless c b))
  | .join _ _ _ _ .start => instDecidableTrue
  | .join _ _ _ _ .config => instDecidableTrue
  | .join _ _ _ _ (.ensure _ topic _ e) => inferInstanceAs (Decidable (e.Harmless topic b))
  | .silent _ => instDecidableTrue

namespace InMemoryBackend

/-- The backend has been shut down. -/
private abbrev Closed (b : InMemoryBackend) : Prop := b.shutdown = true

private theorem under_checkShutdown {α : Type} (x : Unit → BackendM α) : (checkShutdown >>= x).Under Closed Still :=
  Act.under_read_bind Still.refl fun b hb a h => by simp [show b.shutdown = true from hb] at h

variable {b b' : InMemoryBackend} {topic : String} {p : Int}

/-- A partition that does not exist is not created later. -/
private theorem Still.noPartition {a : TopicRef} (h : b.Still b') (hp : ∃ t, b.heap[a]? = some t ∧ t.partition? p = none) :
    ∃ t, b'.heap[a]? = some t ∧ t.partition? p = none := by
  obtain ⟨t, ht, hnone⟩ := hp
  obtain ⟨t', ht', hl⟩ := h.later.heap a t ht
  refine ⟨t', ht', ?_⟩
  rw [← Option.not_isSome_iff_eq_none, Topic.isSome_partition?] at hnone ⊢
  rwa [hl.partitionCount]

private theorem noPartition_of_lookup {a : TopicRef} (ha : b.topics.lookup topic = some a)
    (hp : b.partition? topic p = none) : ∃ t, b.heap[a]? = some t ∧ t.partition? p = none := by
  obtain ⟨t, hat, htt, -⟩ := topic?_of_lookup ha
  rw [partition?, htt] at hp
  exact ⟨t, hat, hp⟩

/-- What is left of `ensure_topic` where the topic exists. -/
private theorem free_ensure (n : Int) {e : EnsurePoint} (he : e.Harmless topic b) (hb : Closed b) :
    (e.code topic n).After Still Still (fun t _ t' => t.Still t') b b := by
  cases e with
  | check =>
    exact (under_checkShutdown _).after (fun _ _ hc h => h.later.shutdown hc) (fun _ _ hc h => h.later.shutdown hc) hb
      (.refl b)
  | lookUp =>
    refine Act.After.read_bind (.refl b) (fun t known ht hknown => ?_) (fun t _ _ _ => .refl t) fun t _ _ => .refl t
    obtain rfl := Outcome.ok.inj hknown
    have hknown' : (t.topics.lookup topic).isSome := ht.topics.symm ▸ he
    rw [if_pos hknown']
    exact Still.refl t
  | insert =>
    refine ⟨.refl b, fun t ht => ?_⟩
    show t.Still (t.insertTopic topic n)
    have hknown : (t.topics.lookup topic).isSome := ht.topics.symm ▸ he
    rw [insertTopic, if_pos hknown]
    exact .refl t

/-- An append to a partition that does not exist. -/
private theorem free_produceAt {a : TopicRef} (hp : ∃ t, b.heap[a]? = some t ∧ t.partition? p = none)
    (content : Content) (headers : Option OwnedHeaders) (ts : Option Int) (clock : Clock) :
    (produceAt a p content headers ts clock).After Still Still (fun t _ t' => t.Still t') b b := by
  refine Act.after_step.2 ⟨.refl b, fun t ht => ?_⟩
  obtain ⟨u, hu, hnone⟩ := ht.noPartition hp
  have hfails : (u.produce p content headers ts clock).2 = u := by
    rcases u.produce_cases p content headers ts clock with ⟨q, _, _, hq, -⟩ | ⟨-, h⟩ | ⟨q, hq, -⟩
    · cases hnone.symm.trans hq
    · rw [h]
    · cases hnone.symm.trans hq
  split
  · rename_i u' hu'
    obtain rfl := Option.some.inj (hu.symm.trans hu')
    rw [setTopic_eq_self _ _ hfails]
    exact .refl t
  · exact .refl t

end InMemoryBackend

variable {π ι : Type} [Partitioner π]

namespace Broker

private abbrev Closed (b : Broker π) : Prop := b.backend.shutdown = true

/-- What is left of a call neither changes the topics nor the logs, as long as nobody else does. -/
private abbrev Free {α : Type} (x : BrokerM π α) (b : Broker π) : Prop := x.After Still Still (fun t _ t' => t.Still t') b b

omit [Partitioner π] in
private theorem closed_of_still {b b' : Broker π} (hb : Closed b) (h : b.Still b') : Closed b' := h.later.shutdown hb

omit [Partitioner π] in
private theorem free_of_under {α : Type} {x : BrokerM π α} (hx : x.Under Closed Still) {b : Broker π} (hb : Closed b) :
    Free x b :=
  hx.after (fun _ _ => closed_of_still) (fun _ _ => closed_of_still) hb (.refl b)

omit [Partitioner π] in
private theorem under_onBackend {α : Type} {x : BackendM α} (hx : x.Under InMemoryBackend.Closed InMemoryBackend.Still) :
    (onBackend x : BrokerM π α).Under Closed Still :=
  hx.zoom (fun _ h => h) fun _ _ h => h

omit [Partitioner π] in
private theorem under_ensureTopic (topic : String) (n : Int) :
    (ensureTopic topic n : BrokerM π Unit).Under Closed Still :=
  under_onBackend (InMemoryBackend.under_checkShutdown _)

omit [Partitioner π] in
/-- A part of a call that ends well before the flag is checked again. -/
private theorem free_bind {α β : Type} {x : BrokerM π α} {g : α → BrokerM π β} {b : Broker π} (hx : Free x b)
    (hb : Closed b) (hg : ∀ a, (g a).Under Closed Still) : Free (x >>= g) b := by
  have hclosed := hx.keep (J := Closed) (fun _ _ => closed_of_still) (fun _ _ => closed_of_still) (fun _ _ _ h => h) hb
  refine Act.After.bind hclosed (fun a t t' h => ?_) (fun _ _ _ h => h.1) fun _ _ h => h.1
  exact (hg a).after (fun _ _ => closed_of_still) (fun _ _ => closed_of_still) h.2 h.1

omit [Partitioner π] in
private theorem free_onBackend {α : Type} {x : BackendM α} {b : Broker π}
    (hx : x.After InMemoryBackend.Still InMemoryBackend.Still (fun t _ t' => t.Still t') b.backend b.backend) :
    Free (onBackend x : BrokerM π α) b :=
  hx.zoom id (fun _ => id) (fun _ _ => id) (fun _ _ => id) fun _ _ _ => id

end Broker

open Broker

/-! ### The places of `produce` -/

namespace ProducePoint

variable (c : ProduceCall)

omit [Partitioner π] in
private theorem under_finish {x : BackendM (Int × Int × Int)}
    (hx : x.Under InMemoryBackend.Closed InMemoryBackend.Still) : (finish c x : BrokerM π _).Under Closed Still :=
  (under_onBackend hx).bind fun _ => trivial

omit [Partitioner π] in
private theorem under_choosing {x : BrokerM π Int} (hx : x.Always Still) :
    (choosing c x : BrokerM π _).Under Closed Still :=
  -- the append checks the flag of the backend again
  hx.under.bind fun _ => under_finish c (InMemoryBackend.under_checkShutdown _)

private theorem always_still_choosePartition (topic : String) (key : Option Bytes) (n : Int) :
    (choosePartition topic key n : BrokerM π Int).Always Still :=
  -- the partitioner only moves its own counter
  Act.always_step fun b => InMemoryBackend.Still.refl b.backend

private theorem under_describing (cfg : BrokerConfig) {x : BackendM Metadata} (hx : x.ReadOnly) :
    (describing c cfg x : BrokerM π _).Under Closed Still := by
  refine Act.Under.bind (Act.Always.under ?_) fun m => under_choosing c ?_
  · exact Act.Always.zoom hx fun b s h => by rw [h]; exact .refl b
  · unfold recordPartition
    split
    · trivial
    · exact always_still_choosePartition c.topic _ _

private theorem under_ensured (cfg : BrokerConfig) :
    (describing c cfg (InMemoryBackend.metadata cfg.brokerId (some c.topic)) : BrokerM π _).Under Closed Still :=
  under_describing c cfg (InMemoryBackend.readOnly_metadata _ _)

private theorem under_body : (c.body : BrokerM π RecordMetadata).Under Closed Still := by
  have hread : ∀ {α : Type} (g : Broker π → Outcome RmqError α), (Act.read g).Under Closed Still :=
    fun g => (Act.always_read Still.refl g).under
  exact (hread _).bind fun _ => (hread _).bind fun cfg => (under_ensureTopic c.topic _).bind fun _ => under_ensured c cfg

/-- What follows the check in the backend's `produce`, when there is no partition to append to. -/
private theorem free_appendTo {a : TopicRef} {p : Int} {b : InMemoryBackend}
    (hp : ∃ t, b.heap[a]? = some t ∧ t.partition? p = none) (ts : Int) :
    (appendAt c p ts (pure a)).After InMemoryBackend.Still InMemoryBackend.Still (fun t _ t' => t.Still t') b b := by
  have happend := InMemoryBackend.free_produceAt hp c.content c.headers (some ts) c.clock
  show Act.After _ _ _ (InMemoryBackend.produceAt a p c.content c.headers (some ts) c.clock >>= fun _ => _) b b
  exact happend.bind (fun _ _ _ h => h) (fun _ _ _ h => h) fun _ _ h => h

omit [Partitioner π] in
private theorem free_finish {x : BackendM (Int × Int × Int)} {b : Broker π}
    (hx : x.After InMemoryBackend.Still InMemoryBackend.Still (fun t _ t' => t.Still t') b.backend b.backend) :
    Free (finish c x : BrokerM π _) b :=
  Act.After.bind (free_onBackend hx) (fun _ _ _ h => h) (fun _ _ _ h => h) fun _ _ h => h

private theorem free_code {b : Broker π} (hb : Closed b) {p : ProducePoint} (hp : p.Harmless c b.backend) :
    Free (p.code c) b := by
  have hread : ∀ {α : Type} (g : Broker π → Outcome RmqError α), (Act.read g).Under Closed Still :=
    fun g => (Act.always_read Still.refl g).under
  cases p with
  | start => exact free_of_under (under_body c) hb
  | config =>
    exact free_of_under ((hread _).bind fun cfg => (under_ensureTopic c.topic _).bind fun _ => under_ensured c cfg) hb
  | ensure cfg e =>
    exact free_bind (free_onBackend (InMemoryBackend.free_ensure _ hp hb)) hb fun _ => under_ensured c cfg
  | metadata cfg x => exact free_of_under (under_describing c cfg x.readOnly) hb
  | choose numP => exact free_of_under (under_choosing c (always_still_choosePartition c.topic _ numP)) hb
  | check p => exact free_of_under (under_finish c (InMemoryBackend.under_checkShutdown _)) hb
  | getTopic p =>
    refine free_finish c (Act.After.read_bind (.refl _) (fun t a ht ha => ?_) (fun t _ _ _ => .refl t) fun t _ _ => .refl t)
    have hlookup : b.backend.topics.lookup c.topic = some a := by
      rw [← ht.topics]
      revert ha
      cases t.topics.lookup c.topic with
      | none => exact fun ha => by cases ha
      | some a' => exact fun ha => congrArg some (Outcome.ok.inj ha)
    exact free_appendTo c (ht.noPartition (InMemoryBackend.noPartition_of_lookup hlookup hp)) _
  | append a p => exact free_finish c (free_appendTo c hp _)

end ProducePoint

/-! ### All operations -/

omit [Partitioner π] in
/-- No topic of a subscription is created any more. -/
private theorem WritePoint.under_joining (order : HashOrder) (groupId memberId : String) (topics : List String)
    (cfg : BrokerConfig) (later : List String) :
    (joining order groupId memberId topics cfg later : BrokerM π _).Under Closed Still :=
  (Act.Under.forEach (fun topic => under_ensureTopic topic _) later).bind fun _ =>
    (always_still_registered order groupId memberId topics cfg).under

/-- What an operation does once the backend is shut down. -/
private theorem BrokerCall.under_body (call : BrokerCall) :
    (call.body : BrokerM π BrokerReply).Under Closed Still := by
  cases call with
  | ensureTopic topic n => exact (under_ensureTopic topic n).bind fun _ => trivial
  | produce c => exact (ProducePoint.under_body c).bind fun _ => trivial
  | joinGroup order groupId memberId topics =>
    rw [WritePoint.body_joinGroup]
    refine (Act.always_read Still.refl _).under.bind fun _ => ?_
    exact (Act.always_read Still.refl _).under.bind fun cfg => WritePoint.under_joining order groupId memberId topics cfg _
  | _ => exact (always_still_body _ id).under

namespace WritePoint

private theorem free_code {b : Broker π} (hb : Closed b) {p : WritePoint π} (hp : p.Harmless b.backend) :
    Free p.code b := by
  cases p with
  | ensureTopic topic n e => exact free_bind (free_onBackend (InMemoryBackend.free_ensure n hp hb)) hb fun _ => trivial
  | produce c p => exact free_bind (p.free_code c hb hp) hb fun _ => trivial
  | join order groupId memberId topics p =>
    cases p with
    | start => exact free_of_under (BrokerCall.under_body (.joinGroup order groupId memberId topics)) hb
    | config =>
      refine free_of_under ((Act.always_read Still.refl _).under.bind fun cfg => ?_) hb
      exact under_joining order groupId memberId topics cfg _
    | ensure cfg topic later e =>
      exact free_bind (free_onBackend (InMemoryBackend.free_ensure _ hp hb)) hb fun _ =>
        under_joining order groupId memberId topics cfg later
  | silent x => exact x.always.after (.refl b)

end WritePoint

/-! ### The calls in flight when the backend is shut down -/

/-- As long as nobody else changes the topics and the logs, no call in flight does. -/
private def WriteFree (w : BrokerRun ι π) : Prop :=
  ∀ i call x, w.running i = some (call, x) →
    x.Pending Broker.Still Broker.Still (fun b _ b' => b.Still b') w.shared

/-- The places of the threads after a schedule. -/
def writePlaces [DecidableEq ι] (b : Broker π) (sched : List (Choice ι BrokerCall)) : ι → Option (WritePoint π) :=
  writePoints.track (.init b) (fun _ => none) sched

/-- The condition of the run: when the flag of the backend is set, every call in flight is at a place at which it writes
nothing any more. -/
def CheckedBefore [DecidableEq ι] (b : Broker π) (sched : List (Choice ι BrokerCall)) : Prop :=
  ∀ initial x rest, sched = initial ++ x :: rest →
    let w : BrokerRun ι π := System.exec BrokerCall.body (.init b) initial
    let w' := w.next BrokerCall.body x
    w.shared.backend.shutdown = false → w'.shared.backend.shutdown = true →
      ∀ i p, (w'.running i).isSome → writePlaces b (initial ++ [x]) i = some p → p.Harmless w'.shared.backend

variable [DecidableEq ι]

/-- The places of the calls in flight decide what they still write. -/
private theorem CheckedBefore.writeFree {b : Broker π} {sched : List (Choice ι BrokerCall)} (h : CheckedBefore b sched)
    {initial rest : List (Choice ι BrokerCall)} {x : Choice ι BrokerCall} (hsched : sched = initial ++ x :: rest)
    {w : BrokerRun ι π} (hw : w = System.exec BrokerCall.body (.init b) initial)
    (hopen : w.shared.backend.shutdown = false) (hd : (w.next BrokerCall.body x).shared.backend.shutdown = true) :
    WriteFree (w.next BrokerCall.body x) := by
  subst hw
  intro i call y hy
  have hplaced : writePoints.Placed _ (writePlaces b (initial ++ [x])) :=
    Points.placed_exec (Points.placed_init b fun _ => none) (initial ++ [x])
  rw [System.exec_append] at hplaced
  obtain ⟨-, p, hp, rfl⟩ := hplaced i call y hy
  have hharmless := h initial x rest hsched hopen hd i p (by rw [hy]; rfl) hp
  exact (WritePoint.free_code hd hharmless).pending

/-- What the threads do to one another once the backend is shut down. -/
private def stillProtocol (ι π : Type) : Protocol ι BrokerCall (Broker π) RmqError BrokerReply where
  rely _ := Broker.Still
  inner _ _ := Broker.Still
  last _ _ _ b _ b' := b.Still b'
  rely_refl _ := Broker.Still.refl
  rely_trans _ _ _ _ h₁ h₂ := h₁.trans h₂
  inner_rely _ _ _ _ _ _ h := h
  last_rely _ _ _ _ _ _ _ _ h := h

/-- Once the backend is shut down and no call in flight writes, none does later. -/
private theorem still_sound {w : BrokerRun ι π} (hd : w.shared.backend.shutdown = true) (hw : WriteFree w)
    (sched : List (Choice ι BrokerCall)) :
    (w.exec BrokerCall.body sched).Sound (stillProtocol ι π) fun b _ => w.shared.Still b := by
  refine System.exec_induction (fun _ => True) (fun u x _ hu => ?_) (fun _ _ => trivial) ⟨.refl _, hw⟩
  refine hu.next (fun _ _ => True) (fun i call b h _ hb => ?_) (fun i b b' h hs hb => hb.trans hs)
    (fun i call b o b' h hs hb => hb.trans hs) x fun _ _ _ => trivial
  exact free_of_under call.under_body (hb.later.shutdown hd)

private theorem writeFree_exec {b : Broker π} {sched : List (Choice ι BrokerCall)} (h : CheckedBefore b sched)
    {w : BrokerRun ι π} (hw : w = System.exec BrokerCall.body (.init b) sched)
    (hd : w.shared.backend.shutdown = true) : WriteFree w := by
  subst hw
  revert hd
  refine System.exec_stepwise (P := fun w : BrokerRun ι π => w.shared.backend.shutdown = true → WriteFree w) ?_ ?_
  · intro _ i call x hx
    cases hx
  · intro initial x rest hsched ih hd
    cases hb : (System.exec BrokerCall.body (.init b) initial : BrokerRun ι π).shared.backend.shutdown with
    | false => exact h.writeFree hsched rfl hb hd
    | true => exact (still_sound hb (ih hb) [x]).2

/-- **Nothing is written after a shutdown**, in every run in which no call in flight writes any more when the flag of
the backend is set: after the shutdown has returned neither the topics nor the logs change, and what a `produce` has
stored was stored before. -/
theorem shutdown_settles (b : Broker π) (sched sched' : List (Choice ι BrokerCall)) {w w' : BrokerRun ι π}
    (hw : w = System.exec BrokerCall.body (.init b) sched) (hw' : w' = System.exec BrokerCall.body w sched')
    (hcheck : CheckedBefore b sched) {i : ι} {o : Outcome RmqError BrokerReply} (hdown : (i, .shutdown, o) ∈ w.history) :
    w'.shared.backend.topics = w.shared.backend.topics ∧ w'.shared.backend.log = w.shared.backend.log ∧
      ∀ j c r, (j, .produce c, .ok (.record r)) ∈ w'.history → c.InLog r w.shared.backend := by
  have hd : w.shared.backend.shutdown = true := (callTies_exec b sched hw).closed i o hdown
  have hstill : w.shared.Still w'.shared := by
    rw [hw']
    exact (still_sound hd (writeFree_exec hcheck hw hd) sched').1
  have hties : CallTies w'.shared w'.history := by
    apply callTies_exec b (sched ++ sched')
    rw [hw', hw, System.exec_append]
  refine ⟨hstill.topics, hstill.log, fun j c r hmem => ?_⟩
  obtain ⟨ht, n, hn, hlog⟩ := (hties.stored j c r hmem).1
  exact ⟨ht, n, hn, by rwa [hstill.log] at hlog⟩

omit [DecidableEq ι] in
private theorem exists_shutdown_of_any {history : List (ι × BrokerCall × Outcome RmqError BrokerReply)}
    (h : history.any (fun e => e.2.1 matches .shutdown) = true) : ∃ i o, (i, .shutdown, o) ∈ history := by
  obtain ⟨⟨i, call, o⟩, he, hcall⟩ := List.any_eq_true.1 h
  cases call
  case shutdown => exact ⟨i, o, he⟩
  all_goals cases hcall

private theorem later_take (b : Broker π) (sched : List (Choice ι BrokerCall)) {m n : Nat} (h : m ≤ n) :
    (System.exec BrokerCall.body (.init b) (sched.take m) : BrokerRun ι π).shared.Later
      (System.exec BrokerCall.body (.init b) (sched.take n) : BrokerRun ι π).shared := by
  obtain ⟨k, rfl⟩ := Nat.exists_eq_add_of_le h
  have hcarries : (System.exec BrokerCall.body (.init b) (sched.take m) : BrokerRun ι π).Carries fun _ => Broker.Later :=
    (System.carries_init b).exec BrokerCall.always_later _
  rw [List.take_add, System.exec_append]
  exact System.exec_related Broker.Later.refl (fun _ _ _ => Broker.Later.trans) (fun _ _ => True)
    BrokerCall.always_later (fun _ _ _ _ _ h => h) hcarries (fun _ _ _ _ => trivial) fun _ _ _ => trivial

/-- The condition is about the one step that sets the flag. -/
private theorem checkedBefore_of_take {b : Broker π} {sched : List (Choice ι BrokerCall)} (n : Nat)
    (hopen : (System.exec BrokerCall.body (.init b) (sched.take n) : BrokerRun ι π).shared.backend.shutdown = false)
    (hd : (System.exec BrokerCall.body (.init b) (sched.take (n + 1)) : BrokerRun ι π).shared.backend.shutdown = true)
    (h : ∀ i p, ((System.exec BrokerCall.body (.init b) (sched.take (n + 1)) : BrokerRun ι π).running i).isSome →
      writePlaces b (sched.take (n + 1)) i = some p →
        p.Harmless (System.exec BrokerCall.body (.init b) (sched.take (n + 1)) : BrokerRun ι π).shared.backend) :
    CheckedBefore b sched := by
  intro initial x rest hsched w w' hb hd'
  obtain ⟨m, hlt, rfl, hget⟩ := split_place hsched
  have htake : sched.take m ++ [x] = sched.take (m + 1) := by
    rw [List.take_add_one, hget]
    rfl
  have hw' : w' = System.exec BrokerCall.body (.init b) (sched.take (m + 1)) := by
    rw [← htake, System.exec_append]
    rfl
  rw [htake, hw']
  rw [hw'] at hd'
  -- before that step the flag is not set, and afterwards it is set already
  obtain rfl : m = n := by
    rcases Nat.lt_trichotomy m n with hmn | hmn | hmn
    · have hset := (later_take b sched (show m + 1 ≤ n from hmn)).backend.shutdown hd'
      cases hopen.symm.trans hset
    · exact hmn
    · have hset := (later_take b sched (show n + 1 ≤ m from hmn)).backend.shutdown hd
      cases hb.symm.trans hset
  exact h

omit [Partitioner π] [DecidableEq ι] in
private theorem harmless_of_all {place : ι → Option (WritePoint π)} {b : InMemoryBackend}
    (h : ∀ i, (place i).all (fun p => decide (p.Harmless b)) = true) :
    ∀ i p, place i = some p → p.Harmless b := by
  intro i p hp
  have hall := h i
  rw [hp] at hall
  exact of_decide_eq_true hall

/-- Two records for the same new topic, and a shutdown.  Thread `i` has created the topic and reads its metadata, and
thread `k`, which has not found it, is about to create it, when the flag of the backend is set: neither writes any more. -/
private def betweenChecks {ι : Type} (i j k : ι) (call : ProduceCall) : List (Choice ι BrokerCall) :=
  [.call i (.produce call), .call k (.produce call)] ++ List.replicate 4 (.step k) ++ List.replicate 7 (.step i) ++
    [.call j .shutdown, .step j, .step j]

theorem shutdown_settles_early :
    let config := RmqClientConfig.new.set ConfigKeys.brokerId "b"
    let call : ProduceCall := ⟨"t", some 0, .raw none none, none, none, ⟨7, 0, fun _ => 0⟩⟩
    ∃ b : Broker RoundRobinPartitioner, Broker.withPartitioner config .new = .ok b ∧
      let w : BrokerRun (Fin 3) RoundRobinPartitioner := System.exec BrokerCall.body (.init b) (betweenChecks 0 1 2 call)
      let w' := System.exec BrokerCall.body w (List.replicate 20 (.step 0) ++ List.replicate 20 (.step 2))
      w'.history.map (fun e => (e.1, e.2.2)) = [(1, .ok .unit), (0, .err .brokerShutdown), (2, .err .brokerShutdown)] ∧
        w'.shared.backend.topics.keys = ["t"] ∧ w'.shared.backend.topics = w.shared.backend.topics ∧
        w'.shared.backend.log = w.shared.backend.log := by
  intro config call
  refine ⟨_, rfl, ?_⟩
  intro w w'
  have hdown : ∃ i o, (i, .shutdown, o) ∈ w.history := exists_shutdown_of_any (by decide +kernel)
  obtain ⟨j, o, hdown⟩ := hdown
  have hsettles := fun hcheck =>
    shutdown_settles _ (betweenChecks 0 1 2 call) _ (show w = _ from rfl) (show w' = _ from rfl) hcheck hdown
  obtain ⟨htopics, hlog, -⟩ := hsettles <| by
    refine checkedBefore_of_take 15 (by decide +kernel) (by decide +kernel) fun i p _ => ?_
    exact harmless_of_all (by decide +kernel) i p
  exact ⟨by decide +kernel, by decide +kernel, htopics, hlog⟩

/-- The record of a `produce` that was about to append when the broker was shut down is stored afterwards. -/
theorem shutdown_late_append :
    let config := RmqClientConfig.new.set ConfigKeys.brokerId "b"
    let call : ProduceCall := ⟨"t", some 0, .raw none none, none, none, ⟨7, 0, fun _ => 0⟩⟩
    let sched := .call false (.produce call) :: List.replicate 12 (.step false) ++
      [.call true .shutdown, .step true, .step true]
    ∃ b : Broker RoundRobinPartitioner, Broker.withPartitioner config .new = .ok b ∧
      let w : BrokerRun Bool RoundRobinPartitioner := System.exec BrokerCall.body (.init b) sched
      let w' := System.exec BrokerCall.body w [.step false]
      (∃ i o, (i, .shutdown, o) ∈ w.history) ∧
        w'.history.map (fun e => e.2.2) = [.ok .unit, .ok (.record ⟨"t", 0, 0, 7⟩)] ∧
        (w.shared.backend.log "t" 0).next = 0 ∧ (w'.shared.backend.log "t" 0).next = 1 := by
  intro config call sched
  exact ⟨_, rfl, exists_shutdown_of_any (by decide +kernel), by decide +kernel, by decide +kernel, by decide +kernel⟩

end RMemQueue
