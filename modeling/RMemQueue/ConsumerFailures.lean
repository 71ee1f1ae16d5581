import RMemQueue.BrokerFailures
import RMemQueue.Commits

/-!
# How the operations fail

The operations of consumers, and of all clients, whatever other threads do meanwhile.  A poll catches the errors of its
fetches: only a shutdown is left of them.  `Op.triple_body` says of each operation which errors it can end with and what
makes it panic.
-/

namespace RMemQueue

open Conc
open Outcome (Ends)

variable {π : Type} {n : Int} {C : String × String × Int → Int → Prop}

/-- Nothing but a shutdown. -/
def Scope.none : Scope := ⟨fun _ => False, fun _ => False, fun _ => False, False⟩

/-- What a fetch can report. -/
def Scope.fetch : Scope := ⟨fun _ => True, fun _ => True, fun _ => False, True⟩

theorem Scope.Allows.of_none {S : Scope} {down : Prop} {e : RmqError} (h : Scope.none.Allows n down e) :
    S.Allows n down e := by
  cases e with
  | brokerShutdown => exact h
  | partitionOutOfRange => exact h.1.elim
  | _ => exact h.elim

/-! ### Requests -/

namespace Request

/-- The topic that the operation asks for by its name. -/
def Asks : Request → String → Prop
  | metadata topic, t => topic = some t
  | watermarks topic _, t => t = topic
  | seek topic _ .beginning, t => t = topic
  | seek topic _ .end_, t => t = topic
  | seek topic _ (.offsetTail _), t => t = topic
  | _, _ => False

/-- The partition whose watermarks the operation asks for. -/
def Names : Request → String × Int → Prop
  | watermarks topic p, key => key = (topic, p)
  | seek topic p .beginning, key => key = (topic, p)
  | seek topic p .end_, key => key = (topic, p)
  | seek topic p (.offsetTail _), key => key = (topic, p)
  | _, _ => False

/-- The group of the consumer has to exist. -/
def NeedsGroup : Request → Prop
  | unsubscribe _ => True
  | commit _ => True
  | commitMessage _ => True
  | committed => True
  | seek _ _ .stored => True
  | _ => False

/-- What the errors of the operation can be about. -/
def scope (c : BaseConsumer) (r : Request) : Scope where
  topics := r.Asks
  partitions := r.Names
  groups gid := c.groupId = some gid ∧ r.NeedsGroup
  offsets := False

/-- The operation can overflow: it fetches for a group with an offset that has no next one, or asks for the tail of a
partition with a number of messages that is negative or no `i64`. -/
def Overflows (C : String × String × Int → Int → Prop) (c : BaseConsumer) : Request → Prop
  | pollOnce => ∃ gid, c.groupId = some gid ∧ Broker.Overflows C gid
  | seek _ _ (.offsetTail tail) => ¬(0 ≤ tail ∧ tail ≤ i64Max)
  | _ => False

/-- What the operation returns. -/
def Returns : Request → Reply → Prop
  | pollOnce, reply => ∃ m, reply = .message m
  | _, _ => True

end Request

/-! ### Sessions -/

namespace Session

/-- What a step of any operation does. -/
abbrev Onward (n : Int) (C : String × String × Int → Int → Prop) (s s' : Session π) : Prop :=
  s.broker.Onward n C s'.broker

abbrev Regular (n : Int) (C : String × String × Int → Int → Prop) (s : Session π) : Prop := s.broker.Regular n C

/-- The call ends with a value that has the property, with an error in the scope, or for the cause `B` with a panic. -/
def Goes {α : Type} (n : Int) (C : String × String × Int → Int → Prop) (S : Scope) (B : Prop) (V : α → Prop)
    (x : ConsumerM π α) : Prop :=
  x.Triple (Onward n C) (Regular n C)
    (Ends (fun a s => s.Regular n C ∧ V a) (fun e s => S.Allows n s.broker.Closing e) fun _ => B)

variable {S : Scope} {B : Prop} {α β : Type} {V : α → Prop} {W : β → Prop}

theorem stable_regular : Stable (Onward n C) (Regular n C : Session π → Prop) :=
  fun _ _ h hr => Broker.stable_regular _ _ h hr

theorem goes_pure {a : α} (ha : V a) : Goes n C S B V (pure a : ConsumerM π α) := Act.triple_ret fun _ hs => ⟨hs, ha⟩

theorem Goes.bind {x : ConsumerM π α} {g : α → ConsumerM π β} (hx : Goes n C S B V x)
    (hg : ∀ a, V a → Goes n C S B W (g a)) : Goes n C S B W (x >>= g) :=
  Act.Triple.bind hx fun a => Act.triple_of_fact (hg a)

theorem goes_forEach {f : α → ConsumerM π β} {l : List α} (hf : ∀ a ∈ l, Goes n C S B (fun _ => True) (f a)) :
    Goes n C S B (fun _ => True) (Act.forEach f l) := by
  have hloop := Act.triple_forEach (V := fun _ => True) stable_regular fun a ha =>
    (hf a ha).weaken (U := fun _ _ => True) fun _ _ _ => trivial
  exact hloop.weaken fun _ _ h => ⟨h.1, trivial⟩

theorem goes_readState (g : ConsumerState → α) : Goes n C S B (fun _ => True) (readState g : ConsumerM π α) :=
  Act.triple_read stable_regular (fun _ => .refl _) fun _ hs => ⟨hs, trivial⟩

theorem goes_updateState (f : ConsumerState → ConsumerState) :
    Goes n C S B (fun _ => True) (updateState f : ConsumerM π Unit) :=
  Act.triple_modify stable_regular fun s hs => ⟨.refl s.broker, hs, trivial⟩

/-- An operation of the broker. -/
theorem goes_onBroker {x : BrokerM π α}
    (hx : x.Triple (Broker.Onward n C) (Broker.Regular n C) (Broker.Fails n S (fun _ => B) fun a _ => V a)) :
    Goes n C S B V (onBroker x) := by
  have hzoom : (onBroker x).Triple (Onward n C) (Regular n C)
      fun o s => Broker.Fails n S (fun _ => B) (fun a _ => V a) o s.broker :=
    hx.zoom (fun _ _ h => h) (fun _ _ h => h) fun _ h => h
  refine (hzoom.frame stable_regular).mono (fun s hs => ⟨hs, hs⟩) ?_
  rintro (a | e | _) s ⟨h, hs⟩
  · exact ⟨hs, h⟩
  · exact h
  · exact h

/-- A fetch or a question to the broker whose errors are caught: what is left of an error when it is reported. -/
theorem goes_attempt {S' : Scope} {x : ConsumerM π α} {k : Except RmqError α → ConsumerM π β}
    (hx : Goes n C S' B V x) (hok : ∀ a, V a → Goes n C S B W (k (.ok a)))
    (herr : ∀ e, (k (.error e)).Triple (Onward n C) (fun s => s.Regular n C ∧ S'.Allows n s.broker.Closing e)
      (Ends (fun b s => s.Regular n C ∧ W b) (fun e s => S.Allows n s.broker.Closing e) fun _ => B)) :
    Goes n C S B W (x.attempt >>= k) := by
  refine (Act.Triple.attempt (E := fun e s => S.Allows n s.broker.Closing e) stable_regular hx).bind fun r => ?_
  rcases r with e | a
  · exact herr e
  · exact (Act.triple_of_fact (hok a)).mono (fun s hs => hs.2) fun _ _ h => h

end Session

/-! ### The operations of a consumer -/

namespace BaseConsumer

open Session

variable (c : BaseConsumer) {S : Scope} {B : Prop}

/-- A poll reports nothing but a shutdown. -/
private theorem goes_pollFrom (hB : ∀ gid, c.groupId = some gid → Broker.Overflows C gid → B) (first len : Nat)
    (l : List Nat) : Goes n C .none B (fun _ => True) (c.pollFrom first len l : ConsumerM π _) := by
  -- on the entries that the poll still has to look at
  induction l with
  | nil => exact goes_pure trivial
  | cons i l ih =>
    refine (goes_readState _).bind fun entry _ => ?_
    rcases entry with _ | ⟨key, position, _ | _⟩
    · exact ih
    · have hfetch : Goes n C .fetch B (fun _ => True)
          (onBroker (Broker.fetchOneFromPosition key.1 key.2 position c.groupId) : ConsumerM π _) :=
        goes_onBroker (Broker.triple_fetchOneFromPosition position c.groupId trivial trivial trivial
          fun gid hgid hover _ => hB gid hgid hover)
      have hreset : ∀ f, Goes n C .none B (fun _ => True)
          (do updateState f; c.pollFrom first len l : ConsumerM π _) :=
        fun f => (goes_updateState f).bind fun _ _ => ih
      refine goes_attempt hfetch (fun msg _ => ?_) fun e => ?_
      · cases msg with
        | none => exact ih
        | some msg => exact (goes_updateState _).bind fun _ _ => goes_pure trivial
      · cases e with
        | offsetOutOfRange _ _ _ => exact (hreset _).mono (fun s hs => hs.1) fun _ _ h => h
        | topicNotFound => exact ih.mono (fun s hs => hs.1) fun _ _ h => h
        | partitionOutOfRange => exact ih.mono (fun s hs => hs.1) fun _ _ h => h
        | brokerShutdown => exact Act.triple_ret fun s hs => hs.2
        | groupNotFound => exact Act.triple_ret fun s hs => hs.2.elim
        | invalidConfig => exact Act.triple_ret fun s hs => hs.2.elim
        | custom => exact Act.triple_ret fun s hs => hs.2.elim
    · exact ih

private theorem goes_pollOnce (hB : ∀ gid, c.groupId = some gid → Broker.Overflows C gid → B) :
    Goes n C .none B (fun _ => True) (c.pollOnce : ConsumerM π _) := by
  refine (goes_readState _).bind fun bounds _ => ?_
  show Goes _ _ _ _ _ (if bounds.2 = 0 then _ else _)
  split
  · exact goes_pure trivial
  · exact c.goes_pollFrom hB _ _ _

private theorem goes_subscribe (h0 : 0 ≤ n) (order : HashOrder) (topics : List String) :
    Goes n C S B (fun _ => True) (c.subscribe order topics : ConsumerM π Unit) := by
  have hassignment : Goes n C S B (fun _ => True) (c.newAssignment order topics : ConsumerM π _) := by
    unfold newAssignment
    split
    · exact goes_onBroker (Broker.triple_joinGroup h0 order _ c.memberId topics)
    -- the errors of the questions for the topics are ignored
    · have htopic : ∀ topic ∈ topics, Goes n C S B (fun _ => True)
          ((onBroker (Broker.metadata (some topic)) : ConsumerM π _).attempt) := by
        intro topic _
        have hmetadata : Goes n C .fetch B (fun _ => True) (onBroker (Broker.metadata (some topic)) : ConsumerM π _) :=
          goes_onBroker (Broker.triple_metadata h0 (some topic) fun _ _ => trivial)
        exact (Act.Triple.attempt stable_regular hmetadata).weaken fun _ _ h => ⟨h.1, trivial⟩
      exact (goes_forEach htopic).bind fun _ _ => goes_pure trivial
  exact hassignment.bind fun _ _ => goes_updateState _

private theorem goes_unsubscribe (h0 : 0 ≤ n) (order : HashOrder) (hS : ∀ gid, c.groupId = some gid → S.groups gid) :
    Goes n C S B (fun _ => True) (c.unsubscribe order : ConsumerM π Unit) := by
  have hleave : Goes n C S B (fun _ => True) (c.leave order : ConsumerM π Unit) := by
    unfold leave
    split
    · rename_i gid hgid
      exact goes_onBroker (Broker.triple_leaveGroup h0 order c.memberId (hS gid hgid))
    · exact goes_pure trivial
  exact (goes_readState _).bind fun _ _ => hleave.bind fun _ _ => goes_updateState _

private theorem goes_watermarks {topic : String} {p : Int} (hT : S.topics topic) (hp : S.partitions (topic, p)) :
    Goes n C S B (fun r : Int × Int => -1 ≤ r.2 ∧ r.2 < i64Max)
      (onBroker (Broker.watermarks topic p) : ConsumerM π _) :=
  goes_onBroker ((Broker.triple_watermarks Broker.stable_regular (fun _ h => h) hT hp).weaken fun _ _ h => h.2)

/-- The end of a partition is an `i64`, so that only an absurd tail overflows. -/
private theorem goes_seek (topic : String) (p : Int) (offset : Offset)
    (hS : ∀ gid, ((Request.seek topic p offset).scope c).groups gid → S.groups gid)
    (hT : (Request.seek topic p offset).Asks topic → S.topics topic)
    (hp : (Request.seek topic p offset).Names (topic, p) → S.partitions (topic, p)) :
    Goes n C S ((Request.seek topic p offset).Overflows C c) (fun _ => True)
      (c.seek topic p offset : ConsumerM π Unit) := by
  refine Goes.bind (V := fun _ => True) ?_ fun target _ => goes_updateState _
  cases offset with
  | beginning => exact (goes_watermarks (hT rfl) (hp rfl)).bind fun _ _ => goes_pure trivial
  | end_ => exact (goes_watermarks (hT rfl) (hp rfl)).bind fun _ _ => goes_pure trivial
  | offset o => exact goes_pure trivial
  | stored =>
    unfold seekTarget
    dsimp only
    split
    · rename_i gid hgid
      refine (goes_onBroker (V := fun _ => True) (Broker.triple_committedOffset topic p (hS gid ⟨hgid, trivial⟩))).bind
        fun _ _ => goes_pure trivial
    · exact goes_pure trivial
  | offsetTail tail =>
    refine (goes_watermarks (hT rfl) (hp rfl)).bind fun r hr => ?_
    obtain ⟨oldest, newest⟩ := r
    dsimp only
    cases ho : i64Checked (newest + 1 - tail) with
    | some o => exact goes_pure trivial
    | none =>
      refine Act.triple_ret fun _ _ hrange => ?_
      rw [i64Checked_eq_none] at ho
      simp only [i64Min, i64Max] at ho hr hrange
      omega

private theorem goes_commit (tpl : TopicPartitionList) (hS : ∀ gid, c.groupId = some gid → S.groups gid)
    (hC : ∀ e ∈ (Request.commit tpl).writes c, C e.1 e.2) :
    Goes n C S B (fun _ => True) (c.commit tpl : ConsumerM π Unit) := by
  unfold commit
  split
  · rename_i gid hgid
    have helem : ∀ elem ∈ tpl.elements, Goes n C S B (fun _ => True) (commitElem gid elem : ConsumerM π Unit) := by
      intro elem helem
      unfold commitElem
      split
      · rename_i o ho
        refine goes_onBroker (Broker.triple_commitOffset (hS gid hgid) ?_)
        refine hC ((gid, elem.topic, elem.partition), o) ?_
        simp only [Request.writes, hgid]
        exact List.mem_flatMap.2 ⟨elem, helem, by simp [elemWrites, ho]⟩
      · exact goes_pure trivial
    exact (goes_forEach helem).bind fun _ _ => goes_pure trivial
  · exact goes_pure trivial

private theorem goes_committed (hS : ∀ gid, c.groupId = some gid → S.groups gid) :
    Goes n C S B (fun _ => True) (c.committed : ConsumerM π _) := by
  refine (goes_readState _).bind fun assigned _ => ?_
  cases hgid : c.groupId with
  | none => exact goes_pure trivial
  | some gid =>
    refine Goes.bind (V := fun _ => True) (goes_forEach fun elem _ => ?_) fun _ _ => goes_pure trivial
    refine (goes_onBroker (V := fun _ => True) ?_).bind fun _ _ => goes_pure trivial
    exact Broker.triple_committedOffset elem.topic elem.partition (hS gid hgid)

end BaseConsumer

private theorem goes_reply {S : Scope} {B : Prop} {α : Type} {V : α → Prop} {W : Reply → Prop} {x : ConsumerM π α}
    {f : α → Reply} (hx : Session.Goes n C S B V x) (hf : ∀ a, V a → W (f a)) : Session.Goes n C S B W (reply x f) :=
  hx.bind fun a ha => Session.goes_pure (hf a ha)

theorem Request.goes_body (h0 : 0 ≤ n) (c : BaseConsumer) (r : Request) (hC : ∀ e ∈ r.writes c, C e.1 e.2) :
    Session.Goes n C (r.scope c) (r.Overflows C c) r.Returns (r.body c : ConsumerM π Reply) := by
  have hany : ∀ {α : Type} {x : ConsumerM π α} {f : α → Reply} {S : Scope} {B : Prop}, (∀ reply, r.Returns reply) →
      Session.Goes n C S B (fun _ => True) x → Session.Goes n C S B r.Returns (reply x f) :=
    fun h hx => goes_reply hx fun a _ => h _
  cases r with
  | pollOnce =>
    have hpoll : Session.Goes n C .none (Request.pollOnce.Overflows C c) Request.pollOnce.Returns
        (reply c.pollOnce .message : ConsumerM π Reply) :=
      goes_reply (c.goes_pollOnce fun gid hgid hover => ⟨gid, hgid, hover⟩) fun m _ => ⟨m, rfl⟩
    refine Act.Triple.mono hpoll (fun _ h => h) ?_
    rintro (m | e | _) s h
    · exact h
    · exact h.of_none
    · exact h
  | subscribe order topics => exact hany (fun _ => trivial) (c.goes_subscribe h0 order topics)
  | unsubscribe order => exact hany (fun _ => trivial) (c.goes_unsubscribe h0 order fun gid hgid => ⟨hgid, trivial⟩)
  | assignment => exact hany (fun _ => trivial) (Session.goes_readState _)
  | assign partitions => exact hany (fun _ => trivial) (Session.goes_updateState _)
  | seek topic p offset => exact hany (fun _ => trivial) (c.goes_seek topic p offset (fun _ h => h) id id)
  | commit tpl => exact hany (fun _ => trivial) (c.goes_commit tpl (fun gid hgid => ⟨hgid, trivial⟩) hC)
  | commitMessage msg =>
    refine hany (fun _ => trivial) (c.goes_commit _ ?_ fun e he => hC e ?_)
    · exact fun gid hgid => ⟨hgid, trivial⟩
    unfold Request.writes at he ⊢
    cases hgid : c.groupId with
    | none =>
      rw [hgid] at he
      exact he
    | some gid =>
      rw [hgid] at he
      exact he
  | storeOffset topic p offset => exact hany (fun _ => trivial) (Session.goes_updateState _)
  | committed => exact hany (fun _ => trivial) (c.goes_committed fun gid hgid => ⟨hgid, trivial⟩)
  | positions => exact hany (fun _ => trivial) (Session.goes_readState _)
  | pause partitions => exact hany (fun _ => trivial) (Session.goes_updateState _)
  | resume partitions => exact hany (fun _ => trivial) (Session.goes_updateState _)
  | metadata topic =>
    exact hany (fun _ => trivial) (Session.goes_onBroker (Broker.triple_metadata h0 topic fun _ h => h))
  | watermarks topic p =>
    refine hany (fun _ => trivial) (Session.goes_onBroker (V := fun _ => True) ?_)
    exact (Broker.triple_watermarks Broker.stable_regular (fun _ h => h) rfl rfl).weaken fun _ _ _ => trivial

/-! ### All operations -/

namespace World

abbrev Onward (n : Int) (C : String × String × Int → Int → Prop) (w w' : World π) : Prop := w.broker.Onward n C w'.broker

abbrev Regular (n : Int) (C : String × String × Int → Int → Prop) (w : World π) : Prop := w.broker.Regular n C

theorem stable_regular : Stable (Onward n C) (Regular n C : World π → Prop) :=
  fun _ _ h hr => Broker.stable_regular _ _ h hr

end World

namespace Op

variable (ids : Nat → BaseConsumer)

/-- What the errors of an operation can be about: those of a producer about the explicit partition of its record. -/
def scope : Op → Scope
  | send call => { Scope.none with partitions := fun key => key.1 = call.topic ∧ call.partition = some key.2 }
  | consumer i r => r.scope (ids i)
  | shutdown => .none

/-- What makes an operation panic: for a producer a partition of its topic that has no offset left. -/
def Breaks (C : String × String × Int → Int → Prop) (b : Broker π) : Op → Prop
  | send call => b.backend.Full call.topic
  | consumer i r => r.Overflows C (ids i)
  | shutdown => False

def Returns : Op → Reply → Prop
  | send _, reply => ∃ r, reply = .record r
  | consumer _ r, reply => r.Returns reply
  | shutdown, _ => True

/-- How an operation ends. -/
abbrev Fails (n : Int) (C : String × String × Int → Int → Prop) (op : Op) : Outcome RmqError Reply → World π → Prop :=
  Ends (fun a w => w.Regular n C ∧ op.Returns a) (fun e w => (op.scope ids).Allows n w.broker.Closing e)
    fun w => op.Breaks ids C w.broker

theorem triple_body [Partitioner π] (h0 : 0 ≤ n) (hchoose : Broker.Chooses π n) (op : Op)
    (hC : ∀ e ∈ op.writes ids, C e.1 e.2) :
    (op.body ids : Act (World π) RmqError Reply).Triple (World.Onward n C) (World.Regular n C) (op.Fails ids n C) := by
  have hbroker : ∀ {x : BrokerM π Reply} {V : Reply → Broker π → Prop}, x.Triple (Broker.Onward n C) (Broker.Regular n C)
      (Broker.Fails n (op.scope ids) (fun b => op.Breaks ids C b) V) → (∀ a b, V a b → op.Returns a) →
      (x.zoom World.brokerLens).Triple (World.Onward n C) (World.Regular n C) (op.Fails ids n C) := by
    intro x V hx hV
    have hzoom : (x.zoom World.brokerLens).Triple (World.Onward n C) (World.Regular n C)
        fun o w => Broker.Fails n (op.scope ids) (fun b => op.Breaks ids C b) V o w.broker :=
      hx.zoom (fun _ _ h => h) (fun _ _ h => h) fun _ h => h
    refine (hzoom.frame World.stable_regular).mono (fun w hw => ⟨hw, hw⟩) ?_
    rintro (a | e | _) w ⟨h, hw⟩
    · exact ⟨hw, hV a _ h⟩
    · exact h
    · exact h
  cases op with
  | send call =>
    have hproduce := Broker.triple_produce (C := C) (S := (send call).scope ids) h0 hchoose call fun p hp => ⟨rfl, hp⟩
    refine hbroker (V := fun a _ => ∃ r, a = .record r) ?_ fun _ _ h => h
    exact hproduce.bind fun r => Act.triple_ret fun _ _ => ⟨r, rfl⟩
  | consumer i r =>
    have hbody := r.goes_body (π := π) h0 (ids i) hC
    have hzoom : ((r.body (ids i)).zoom (World.sessionLens i)).Triple (World.Onward n C) (World.Regular n C)
        fun o w => Ends (fun a s => s.Regular n C ∧ r.Returns a)
          (fun e s => (r.scope (ids i)).Allows n s.broker.Closing e) (fun _ => r.Overflows C (ids i)) o
          ((World.sessionLens i).get w) :=
      Act.Triple.zoom hbody (fun _ _ h => h) (fun _ _ h => h) fun _ h => h
    refine hzoom.mono (fun _ h => h) ?_
    rintro (a | e | _) w h
    · exact h
    · exact h
    · exact h
  | shutdown =>
    refine hbroker (V := fun _ _ => True) ?_ fun _ _ _ => trivial
    exact Broker.triple_shutdownBroker.bind fun _ => Act.triple_ret fun _ _ => trivial

end Op

end RMemQueue
