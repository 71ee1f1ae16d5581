import RMemQueue.AllOrNothing
import RMemQueue.ConsumerFailures
import RMemQueue.Receiving

/-!
# How calls fail

In every run of the calls of an application on a new broker whose partitioner chooses one of the partitions:

* `errors_have_causes`: each error that a call has reported has its cause.  Producers and the calls that wait fail when
  the broker is shut down; else a producer when it was given a partition that does not exist, and a typed consumer when
  the payload is raw bytes.
* `panics_have_causes`: so has each panic.
-/

namespace RMemQueue

open Conc
open Outcome (Ends)

section

variable {τ : Type} {El : τ → Type}

/-- The error that a call has reported; producers hand it back with what they were given. -/
def Returned.error? : Returned El → Option RmqError
  | .sent _ _ (.error (e, _)) _ => some e
  | .future (.error (e, _)) => some e
  | .stream (.error (e, _)) => some e
  | .typed (.error e) => some e
  | _ => none

def failure : Outcome RmqError (Returned El) → Option RmqError
  | .ok r => r.error?
  | .err e => some e
  | .panic => none

/-- The errors that a waiting call makes itself: a typed consumer refuses raw bytes, and `recv` hands on the error of a
wait. -/
def Receive.Refuses : Receive → RmqError → Prop
  | poll _, _ => False
  | typedPoll _, e => e = .custom "message has raw bytes payload, not typed"
  | recv waits, e => .error e ∈ waits

/-- The deadline of the call is no instant. -/
def Receive.Overdue : Receive → Prop
  | poll call => call.lastInstant < call.deadline
  | typedPoll call => call.lastInstant < call.deadline
  | recv _ => False

variable (ids : Nat → BaseConsumer)

namespace ClientCall

/-- What the errors of the call can be about. -/
def scope [∀ a, ToBytes (El a)] : ClientCall El → Scope
  | receive _ _ => .none
  | request i r _ => r.scope (ids i)
  | shutdown => .none
  | c => (c.produceCall?.map fun call => (Op.send call).scope ids).getD .none

def Refuses : ClientCall El → RmqError → Prop
  | receive _ r, e => r.Refuses e
  | _, _ => False

/-- What makes the call panic; `C` are the commits. -/
def Breaks [∀ a, ToBytes (El a)] {π : Type} (C : String × String × Int → Int → Prop) (b : Broker π) :
    ClientCall El → Prop
  | receive i r => r.Overdue ∨ Request.pollOnce.Overflows C (ids i)
  | request i r _ => r.Overflows C (ids i)
  | shutdown => False
  | c => ∃ call, c.produceCall? = some call ∧ (Op.send call).Breaks ids C b

end ClientCall

/-! ### One call -/

section

variable {π : Type} [Partitioner π] {n : Int} {C : String × String × Int → Int → Prop}

/-- How a waiting call ends that makes the errors `F` itself. -/
abbrev Receive.Ends (n : Int) (F : RmqError → Prop) (B : Prop) : Outcome RmqError (Option Receipt) → World π → Prop :=
  Outcome.Ends (fun _ _ => True) (fun e w => Scope.none.Allows n w.broker.Closing e ∨ F e) fun _ => B

private theorem triple_onPolled (h0 : 0 ≤ n) (hchoose : Broker.Chooses π n) (i : Nat)
    {ready : StoredMessage → RmqResult Receipt} {rest : ReceiveScript} {F : RmqError → Prop} {B : Prop}
    (hready : ∀ m e, ready m = .error e → F e) (hB : Request.pollOnce.Overflows C (ids i) → B)
    (hrest : (rest.body (Op.body ids)).Triple (World.Onward n C) (World.Regular n C : World π → Prop)
      (Receive.Ends n F B)) :
    ((onPolled i ready rest).body (Op.body ids)).Triple (World.Onward n C) (World.Regular n C : World π → Prop)
      (Receive.Ends n F B) := by
  have hnil : (Op.consumer i .pollOnce).writes ids = [] :=
    Request.writes_of_not_commits (show ¬Request.Commits .pollOnce from fun h => h)
  have hpoll := Op.triple_body (π := π) (C := C) ids h0 hchoose (.consumer i .pollOnce) (by simp [hnil])
  refine hpoll.andFinally fun o => ?_
  rcases o with reply | e | _
  · cases reply with
    | message m =>
      cases m with
      | none => exact hrest.mono (fun _ h => h.1) fun _ _ h => h
      | some m =>
        refine Act.triple_ret fun w _ => ?_
        unfold polled
        dsimp only
        split
        · trivial
        · rename_i e he
          exact Or.inr (hready m e he)
    | _ =>
      -- a pass returns a message, if anything
      refine Act.triple_ret ?_
      rintro w ⟨-, m, hm⟩
      cases hm
  · refine Act.triple_ret fun w h => Or.inl ?_
    change (Request.pollOnce.scope (ids i)).Allows n w.broker.Closing e at h
    cases e with
    | brokerShutdown => exact h
    | topicNotFound => exact h.elim
    | partitionOutOfRange => exact h.1.elim
    | groupNotFound => exact h.2.elim
    | _ => exact h.elim
  · exact Act.triple_ret fun w h => hB h

private theorem triple_receive (h0 : 0 ≤ n) (hchoose : Broker.Chooses π n) (i : Nat) (r : Receive) :
    ((r.script i).body (Op.body ids)).Triple (World.Onward n C) (World.Regular n C : World π → Prop)
      (Receive.Ends n r.Refuses (r.Overdue ∨ Request.pollOnce.Overflows C (ids i))) := by
  have hloop : ∀ (call : PollCall) {ready : StoredMessage → RmqResult Receipt} {F : RmqError → Prop} {B : Prop},
      (∀ m e, ready m = .error e → F e) → (Request.pollOnce.Overflows C (ids i) → B) → ∀ left k,
      ((call.loopFor i ready k left).body (Op.body ids)).Triple (World.Onward n C) (World.Regular n C : World π → Prop)
        (Receive.Ends n F B) := by
    intro call ready F B hready hB left
    induction left with
    | zero => exact fun k => triple_onPolled ids h0 hchoose i hready hB (Act.triple_ret fun _ _ => trivial)
    | succ left ih =>
      intro k
      refine triple_onPolled ids h0 hchoose i hready hB ?_
      split
      · exact Act.triple_ret fun _ _ => trivial
      · exact ih (k + 1)
  cases r with
  | poll call =>
    unfold Receive.script PollCall.script
    dsimp only
    split
    · rename_i hover
      exact Act.triple_ret fun _ _ => Or.inl hover
    · exact hloop call (fun m e he => (nomatch he)) Or.inr _ _
  | typedPoll call =>
    unfold Receive.script PollCall.script
    dsimp only
    split
    · rename_i hover
      exact Act.triple_ret fun _ _ => Or.inl hover
    · refine hloop call (fun m e he => ?_) Or.inr _ _
      unfold Receive.ready at he
      dsimp only at he
      split at he
      · cases he
      · exact (Except.error.inj he).symm
  | recv waits =>
    -- on the waits that are left
    have hrecv : ∀ waits', (∀ e, .error e ∈ waits' → .error e ∈ waits) →
        ((recvScript i (Receive.recv waits).ready waits').body (Op.body ids)).Triple (World.Onward n C)
          (World.Regular n C : World π → Prop) (Receive.Ends n (Receive.recv waits).Refuses
            ((Receive.recv waits).Overdue ∨ Request.pollOnce.Overflows C (ids i))) := by
      intro waits'
      have hready : ∀ m e, (Receive.recv waits).ready m = .error e → (Receive.recv waits).Refuses e :=
        fun m e he => (nomatch he)
      induction waits' with
      | nil => exact fun _ => triple_onPolled ids h0 hchoose i hready Or.inr (Act.triple_ret fun _ _ => trivial)
      | cons wait waits' ih =>
        intro hwaits
        cases wait with
        | ok _ =>
          exact triple_onPolled ids h0 hchoose i hready Or.inr (ih fun e he => hwaits e (List.mem_cons_of_mem _ he))
        | error e =>
          refine triple_onPolled ids h0 hchoose i hready Or.inr (Act.triple_ret fun _ _ => Or.inr ?_)
          exact hwaits e (List.mem_cons_self ..)
    exact hrecv waits fun _ h => h

variable [∀ a, ToBytes (El a)]

/-- How a call ends. -/
def ClientCall.Fails (n : Int) (C : String × String × Int → Int → Prop) (c : ClientCall El)
    (o : Outcome RmqError (Returned El)) (w : World π) : Prop :=
  (∀ e, failure o = some e → (c.scope ids).Allows n w.broker.Closing e ∨ c.Refuses e) ∧
    (o = .panic → c.Breaks ids C w.broker)

namespace ClientCall

omit [Partitioner π] in
private theorem stable_fails (c : ClientCall El) (o : Outcome RmqError (Returned El)) :
    Stable (World.Onward n C) (c.Fails ids n C o : World π → Prop) := by
  rintro w w' ⟨herr, hpanic⟩ hr
  refine ⟨fun e he => (herr e he).imp_left fun h => Broker.stable_allows _ e _ _ h hr, fun ho => ?_⟩
  have hbreaks := hpanic ho
  cases c with
  | send | future | stream | typed =>
    obtain ⟨call, hcall, hfull⟩ := hbreaks
    exact ⟨call, hcall, Broker.stable_backend (InMemoryBackend.stable_full call.topic) _ _ hfull hr⟩
  | receive | request | shutdown => exact hbreaks

/-- A call of a producer reports the error of its operation. -/
private theorem triple_producer (h0 : 0 ≤ n) (hchoose : Broker.Chooses π n) {c : ClientCall El} {call : ProduceCall}
    (finish : RmqResult RecordMetadata → Returned El) (hscript : c.script = produceThen call finish)
    (hok : ∀ r, (finish (.ok r)).error? = none) (herr : ∀ e, (finish (.error e)).error? = some e)
    (hscope : c.scope ids = (Op.send call).scope ids)
    (hbreaks : ∀ b : Broker π, (Op.send call).Breaks ids C b → c.Breaks ids C b) :
    (c.body ids).Triple (World.Onward n C) (World.Regular n C : World π → Prop) (c.Fails ids n C) := by
  unfold body
  rw [hscript]
  refine (Op.triple_body ids h0 hchoose (.send call) fun _ he => (nomatch he)).andFinally fun o => ?_
  rcases o with reply | e | _
  · cases reply with
    | record r =>
      refine Act.triple_ret fun w _ => ⟨fun e he => ?_, fun h => (nomatch h)⟩
      rw [failure, hok r] at he
      cases he
    | _ =>
      -- a producer gets the metadata of its record
      refine Act.triple_ret ?_
      rintro w ⟨-, r, hr⟩
      cases hr
  · refine Act.triple_ret fun w h => ⟨fun e' he => Or.inl ?_, fun h => (nomatch h)⟩
    rw [failure, herr e] at he
    rw [hscope, ← Option.some.inj he]
    exact h
  · exact Act.triple_ret fun w h => ⟨fun _ he => (nomatch he), fun _ => hbreaks _ h⟩

/-- A call that hands on how its operation has ended. -/
private theorem triple_request (h0 : 0 ≤ n) (hchoose : Broker.Chooses π n) {c : ClientCall El} {op : Op}
    (hscript : c.script = .call op fun o => .done (o.map .reply)) (hC : ∀ e ∈ op.writes ids, C e.1 e.2)
    (hscope : c.scope ids = op.scope ids) (hbreaks : ∀ b : Broker π, op.Breaks ids C b → c.Breaks ids C b) :
    (c.body ids).Triple (World.Onward n C) (World.Regular n C : World π → Prop) (c.Fails ids n C) := by
  unfold body
  rw [hscript]
  refine (Op.triple_body ids h0 hchoose op hC).andFinally fun o => ?_
  rcases o with reply | e | _
  · exact Act.triple_ret fun _ _ => ⟨fun _ he => (nomatch he), fun h => (nomatch h)⟩
  · refine Act.triple_ret fun w h => ⟨fun e' he => Or.inl ?_, fun h => (nomatch h)⟩
    rw [hscope, ← Option.some.inj he]
    exact h
  · exact Act.triple_ret fun _ h => ⟨fun _ he => (nomatch he), fun _ => hbreaks _ h⟩

/-- How a call ends, whatever the other threads do meanwhile. -/
theorem triple_body (h0 : 0 ≤ n) (hchoose : Broker.Chooses π n) (c : ClientCall El)
    (hC : ∀ i r hr, c = .request i r hr → ∀ e ∈ r.writes (ids i), C e.1 e.2) :
    (c.body ids).Triple (World.Onward n C) (World.Regular n C : World π → Prop) (c.Fails ids n C) := by
  cases c with
  | send k p record clock =>
    exact triple_producer ids h0 hchoose
      (fun r => .sent k p (BaseProducer.finish record r).1 (BaseProducer.finish record r).2) rfl (fun _ => rfl)
      (fun _ => rfl) rfl fun _ h => ⟨_, rfl, h⟩
  | future k p record clock =>
    exact triple_producer ids h0 hchoose (fun r => .future (FutureProducer.finish record r)) rfl (fun _ => rfl)
      (fun _ => rfl) rfl fun _ h => ⟨_, rfl, h⟩
  | stream record clock =>
    exact triple_producer ids h0 hchoose (fun r => .stream (StreamProducer.finish record r)) rfl (fun _ => rfl)
      (fun _ => rfl) rfl fun _ h => ⟨_, rfl, h⟩
  | typed topic partition payload key headers clock =>
    exact triple_producer ids h0 hchoose .typed rfl (fun _ => rfl) (fun _ => rfl) rfl fun _ h => ⟨_, rfl, h⟩
  | receive i r =>
    unfold body
    dsimp only [script]
    rw [Script.body_map]
    refine (triple_receive ids h0 hchoose i r).andFinally fun o => ?_
    rcases o with receipt | e | _
    · exact Act.triple_ret fun _ _ => ⟨fun _ he => (nomatch he), fun h => (nomatch h)⟩
    · refine Act.triple_ret fun w h => ⟨fun e' he => ?_, fun h => (nomatch h)⟩
      rw [← Option.some.inj he]
      exact h
    · exact Act.triple_ret fun _ h => ⟨fun _ he => (nomatch he), fun _ => h⟩
  | request i r hr => exact triple_request ids h0 hchoose rfl (hC i r hr rfl) rfl fun _ h => h
  | shutdown => exact triple_request ids h0 hchoose rfl (fun _ he => (nomatch he)) rfl fun _ h => h

end ClientCall

end

/-! ### The partitioners that count -/

theorem RoundRobinPartitioner.chooses {n : Int} (h1 : 1 ≤ n) (hn : n ≤ 1073741824) :
    Broker.Chooses RoundRobinPartitioner n := by
  intro r topic key
  have hlow := Int.lt_tmod_of_pos r.counter (show 0 < n by omega)
  have hhigh := Int.tmod_lt_of_pos r.counter (show 0 < n by omega)
  refine ⟨(r.counter.tmod n + n).tmod n, (partition_eq_some h1).2 ⟨rfl, ?_⟩, Int.tmod_nonneg _ (by omega),
    Int.tmod_lt_of_pos _ (by omega)⟩
  simp only [i32Max]
  omega

theorem ConsistentPartitioner.chooses {n : Int} (h1 : 1 ≤ n) (hn : n ≤ 1073741824) :
    Broker.Chooses ConsistentPartitioner n := by
  intro c topic key
  cases key with
  | some k =>
    refine ⟨ofKey k n, ?_, ofKey_range k (by omega)⟩
    show (c.partition (some k) n).1 = _
    rw [ConsistentPartitioner.partition, if_neg (by omega)]
  | none =>
    show ∃ p, (c.partition none n).1 = some p ∧ _
    rw [ConsistentPartitioner.partition, if_neg (by omega)]
    exact RoundRobinPartitioner.chooses h1 hn c.fallback topic none

/-! ### The run -/

variable [∀ a, ToBytes (El a)] {ι : Type}

/-- The commits that the requests of the schedule ask for. -/
def Committed (sched : List (Choice ι (ClientCall El))) (key : String × String × Int) (o : Int) : Prop :=
  ∃ t i r hr, .call t (.request i r hr) ∈ sched ∧ (key, o) ∈ r.writes (ids i)

variable [DecidableEq ι] {π : Type} [Partitioner π] {config : RmqClientConfig} {partitioner : π} {b : Broker π}

/-- Only a shutdown sets a flag. -/
private theorem exists_shutdown_of_closing (hb : Broker.withPartitioner config partitioner = .ok b)
    (sched : List (Choice ι (ClientCall El)))
    (h : (System.exec (ClientCall.body ids) (.init (World.init b)) sched).shared.broker.Closing) :
    ∃ t, .call t .shutdown ∈ sched := by
  by_contra hno
  have hmakes : ∀ t (c : ClientCall El), .call t c ∈ sched → ∀ op, c.Makes op → op ≠ .shutdown := by
    rintro t c hc op hop rfl
    cases c with
    | send | future | stream | typed =>
      obtain ⟨_, -, hop⟩ := hop
      cases hop
    | receive | request => cases hop
    | shutdown => exact hno ⟨t, hc⟩
  obtain ⟨ops, hops, hw⟩ := clients_exec (p := fun _ op => op ≠ .shutdown) ids (World.init b) hmakes
  rw [← hw.shared] at h
  have hflags : (World.init b).broker.SameFlags
      (System.exec (Op.body ids) (.init (World.init b) : System ι Op (World π) RmqError Reply) ops).shared.broker := by
    refine System.exec_related (R := fun w w' : World π => w.broker.SameFlags w'.broker)
      (Q := fun op w w' => op ≠ .shutdown → w.broker.SameFlags w'.broker) (fun _ => .refl _) (fun _ _ _ => .trans)
      (fun _ op => op ≠ .shutdown) (fun op => ?_) (fun _ _ hop _ _ h => h hop) (System.carries_init _)
      (fun _ _ _ h => (nomatch h)) hops
    by_cases hop : op = .shutdown
    · exact (Op.always_stepOf ids op).mono fun _ _ _ h => absurd hop h
    · have hbody := Op.always_updates ids hop (Broker.updates_sameFlags (π := π)) fun _ _ _ _ =>
        Broker.updates_sameFlags.always_commitOffset fun _ _ _ => ⟨rfl, rfl⟩
      exact hbody.mono fun _ _ h _ => h
  obtain ⟨c, -, rfl⟩ := Broker.withPartitioner_eq_ok.1 hb
  rcases h with h | h
  · rw [hflags.1] at h
    cases h
  · rw [hflags.2] at h
    cases h

/-- The run lemma. -/
private theorem fails_exec (hb : Broker.withPartitioner config partitioner = .ok b)
    (hchoose : Broker.Chooses π b.config.defaultNumPartitions) (sched : List (Choice ι (ClientCall El)))
    {v : System ι (ClientCall El) (World π) RmqError (Returned El)}
    (hv : v = System.exec (ClientCall.body ids) (.init (World.init b)) sched) {t : ι} {c : ClientCall El}
    {o : Outcome RmqError (Returned El)} (h : (t, c, o) ∈ v.history) :
    c.Fails ids b.config.defaultNumPartitions (Committed ids sched) o v.shared := by
  subst hv
  have h0 : 0 ≤ b.config.defaultNumPartitions := by
    obtain ⟨p, -, hp, hlt⟩ := hchoose partitioner "" none
    omega
  have hregular : World.Regular b.config.defaultNumPartitions (Committed ids sched) (World.init b) := by
    obtain ⟨c, -, rfl⟩ := Broker.withPartitioner_eq_ok.1 hb
    exact ⟨rfl, fun t ht => (nomatch ht), fun key o ho => (nomatch ho)⟩
  refine (System.exec_triple (R := World.Onward b.config.defaultNumPartitions (Committed ids sched))
    (fun _ => .refl _) (fun _ _ _ => .trans) World.stable_regular (fun c o => c.stable_fails ids o)
    (fun t c => .call t c ∈ sched) (fun t c hc => c.triple_body ids h0 hchoose ?_) (fun _ _ hc => hc) hregular).2
      t c o h
  rintro i r hr rfl e he
  exact ⟨t, i, r, hr, hc, he⟩

/-- **Errors have causes.**  In any run of calls on a new broker, whose partitioner chooses one of the default number of
partitions, an error that a call has reported has its cause.  It reports a shutdown, and a shutdown is called; or a
partition that is out of range, which the record names or the request asks for; or a topic that the request asks for, or
the group of the consumer.  Only a typed consumer refuses a message, and only a wait hands on another error. -/
theorem errors_have_causes (hb : Broker.withPartitioner config partitioner = .ok b)
    (hchoose : Broker.Chooses π b.config.defaultNumPartitions) (sched : List (Choice ι (ClientCall El)))
    {v : System ι (ClientCall El) (World π) RmqError (Returned El)}
    (hv : v = System.exec (ClientCall.body ids) (.init (World.init b)) sched) {t : ι} {c : ClientCall El}
    {o : Outcome RmqError (Returned El)} (h : (t, c, o) ∈ v.history) {e : RmqError} (he : failure o = some e) :
    (c.scope ids).Allows b.config.defaultNumPartitions (∃ t, .call t .shutdown ∈ sched) e ∨ c.Refuses e := by
  refine ((fails_exec ids hb hchoose sched hv h).1 e he).imp_left fun hallows => hallows.mono_down fun hclosing => ?_
  subst hv
  exact exists_shutdown_of_closing ids hb sched hclosing

/-- **Panics have causes.**  In any run of calls on a new broker, whose partitioner chooses one of the default number of
partitions, a call panics for one of four causes only: a producer, since a partition of its topic has no offset left; a
poll, since its deadline is no instant; a call that receives for a group, since the group has been given an offset to
commit that has no next one; and a seek, since it asks for a number of last messages that is negative or no `i64`. -/
theorem panics_have_causes (hb : Broker.withPartitioner config partitioner = .ok b)
    (hchoose : Broker.Chooses π b.config.defaultNumPartitions) (sched : List (Choice ι (ClientCall El)))
    {v : System ι (ClientCall El) (World π) RmqError (Returned El)}
    (hv : v = System.exec (ClientCall.body ids) (.init (World.init b)) sched) {t : ι} {c : ClientCall El}
    (h : (t, c, .panic) ∈ v.history) : c.Breaks ids (Committed ids sched) v.shared.broker :=
  (fails_exec ids hb hchoose sched hv h).2 rfl

end

/-- A record names a partition that does not exist, and another one comes after the shutdown. -/
def sendsInVain : List (Choice Nat (ClientCall fun _ : Unit => Bytes)) :=
  [.send () () ((BaseRecord.toTopic "t").withPartition 3) ⟨7, 0, fun _ => 0⟩, .shutdown,
    .send () () (BaseRecord.toTopic "t") ⟨7, 0, fun _ => 0⟩].flatMap fun c => .call 0 c :: List.replicate 20 (.step 0)

theorem errors_have_causes_two : ∃ b : Broker RoundRobinPartitioner,
    Broker.new (RmqClientConfig.new.set ConfigKeys.brokerId "b") = .ok b ∧
    let ids : Nat → BaseConsumer := fun _ => ⟨none, "m"⟩
    let v := System.exec (ClientCall.body ids) (.init (World.init b)) sendsInVain
    v.history.map (fun e => failure e.2.2) = [some (.partitionOutOfRange "t" 3), none, some .brokerShutdown] ∧
      ∀ e ∈ v.history, ∀ err, failure e.2.2 = some err →
        (e.2.1.scope ids).Allows 1 (∃ t, .call t .shutdown ∈ sendsInVain) err ∨ e.2.1.Refuses err := by
  have hb : Broker.new (RmqClientConfig.new.set ConfigKeys.brokerId "b") = .ok _ := rfl
  refine ⟨_, hb, by decide +kernel, fun e he err herr => ?_⟩
  exact errors_have_causes _ hb (RoundRobinPartitioner.chooses (by decide) (by decide)) _ rfl he herr

/-- A member of a group commits the greatest offset that there is, and receives. -/
def commitsTheLast : List (Choice Nat (ClientCall fun _ : Unit => Bytes)) :=
  [.request 0 (.subscribe default ["u"]) (by simp), .request 0 (.commit ⟨[⟨"u", 0, .offset i64Max⟩]⟩) (by simp),
    .receive 0 (.recv [])].flatMap fun c => .call 0 c :: List.replicate 20 (.step 0)

theorem panics_have_causes_member : ∃ b : Broker ConsistentPartitioner,
    Broker.withPartitioner (RmqClientConfig.new.set ConfigKeys.brokerId "b") .new = .ok b ∧
    let ids : Nat → BaseConsumer := fun _ => ⟨some "g", "m"⟩
    let v := System.exec (ClientCall.body ids) (.init (World.init b)) commitsTheLast
    v.history.map (fun e => e.2.2.map fun _ => ()) = [.ok (), .ok (), .panic] ∧
      ∀ e ∈ v.history, e.2.2 = .panic → e.2.1.Breaks ids (Committed ids commitsTheLast) v.shared.broker := by
  have hb : Broker.withPartitioner (RmqClientConfig.new.set ConfigKeys.brokerId "b") ConsistentPartitioner.new =
    .ok _ := rfl
  refine ⟨_, hb, by decide +kernel, ?_⟩
  rintro ⟨t, c, o⟩ he rfl
  exact panics_have_causes _ hb (ConsistentPartitioner.chooses (by decide) (by decide)) _ rfl he

end RMemQueue
