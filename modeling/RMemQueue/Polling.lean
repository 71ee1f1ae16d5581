import RMemQueue.WorldRun

/-!
# What a poll does, whatever happens meanwhile

A poll of any consumer, with or without a group, while other threads append and evict.  `Broker.Read` is what the
result of a fetch says of the log; the log is read at one moment, and the result is used at a later one.

`PollInvariant.after_pollOnce`: what holds of a consumer and of the calls that its thread has ended, and survives the
steps of the others, the reset of a position and the return of a message, is kept by a poll.  `PollInvariant.exec`: it
holds in every run in which one thread uses the consumer.
-/

namespace RMemQueue

open Conc

variable {π : Type}

/-- The calls that a thread has ended. -/
abbrev Calls := List (Op × Outcome RmqError Reply)

/-! ### A fetch -/

namespace Broker

def logAt (b : Broker π) (key : String × Int) : TrimmedLog StoredMessage := b.backend.log key.1 key.2

variable {b b₀ b' : Broker π} {key : String × Int} {position : Option Int} {groupId : Option String}

theorem Later.logAt (hl : b.Later b') (key : String × Int) : b.logAt key ≤ b'.logAt key := hl.backend.log ..

/-- The partition that a read sees. -/
theorem logAt_of_seen {topic : String} {partition : Int} {t : Topic} {p : Partition}
    (ht : b.backend.topic? topic = some t) (hp : t.partition? partition = some p) :
    b.logAt (topic, partition) = p.abs := by
  apply InMemoryBackend.log_of_partition?
  rw [InMemoryBackend.partition?, ht]
  exact hp

/-- The errors that leave the position alone. -/
def Harmless : RmqError → Prop
  | .offsetOutOfRange _ _ _ => False
  | _ => True

private theorem harmless_of_watermarks {topic : String} {partition : Int} {e : RmqError}
    (hs : b.backend.Seen topic (fun t => InMemoryBackend.ofResult (t.watermarks partition)) (.err e)) : Harmless e := by
  rcases hs with ⟨t, ht, ho⟩ | ho | ho
  · rw [eq_comm, InMemoryBackend.ofResult_eq_err, Topic.watermarks, Topic.getPartition_eq] at ho
    cases hp : t.partition? partition with
    | none =>
      rw [hp] at ho
      obtain rfl := Except.error.inj ho
      trivial
    | some p =>
      rw [hp] at ho
      cases ho
  · obtain rfl := Outcome.err.inj ho
    trivial
  · obtain rfl := Outcome.err.inj ho
    trivial

/-- The oldest offset that a read sees is not above the oldest message. -/
private theorem oldest_le {topic : String} {partition : Int} {r : Int × Int}
    (hs : b.backend.Seen topic (fun t => InMemoryBackend.ofResult (t.watermarks partition)) (.ok r)) :
    ∃ n : Nat, r.1 = n ∧ n ≤ (b.logAt (topic, partition)).dropped := by
  rcases hs with ⟨t, ht, ho⟩ | ho | ho
  · rw [eq_comm, InMemoryBackend.ofResult_eq_ok, Topic.watermarks, Topic.getPartition_eq] at ho
    cases hp : t.partition? partition with
    | none =>
      rw [hp] at ho
      cases ho
    | some p =>
      rw [hp] at ho
      obtain rfl : p.watermarks = r := Except.ok.inj ho
      rw [logAt_of_seen ht hp, p.watermarks_eq]
      dsimp only
      split
      · exact ⟨0, rfl, Nat.zero_le _⟩
      · exact ⟨_, rfl, le_refl _⟩
  · cases ho
  · cases ho

/-- A call that only reads the backend. -/
private theorem after_reading {α : Type} {x : BackendM α} {G : InMemoryBackend → Outcome RmqError α → Prop}
    (b : Broker π) (hx : x.After InMemoryBackend.Later (fun b b' => b' = b) (fun b o b' => b' = b ∧ G b o) b.backend
      b.backend) : (onBackend x).After Later (fun b b' => b' = b) (fun b o b' => b' = b ∧ G b.backend o) b b := by
  refine Act.After.zoom hx (fun _ => rfl) (fun o h => ⟨rfl, h.2⟩) (fun _ _ h => h.backend) (fun c d h => ?_)
    fun c o d h => ⟨?_, h.2⟩
  · rw [h]
    rfl
  · rw [h.1]
    rfl

theorem after_oldestOffset (topic : String) (partition : Int) (b : Broker π) :
    (oldestOffset topic partition).After Later (fun b b' => b' = b) (fun b o b' => b' = b ∧
      (∀ v : Int, o = .ok v → ∃ n : Nat, v = n ∧ n ≤ (b.logAt (topic, partition)).dropped) ∧
      ∀ e, o = .err e → Harmless e) b b := by
  have hw := after_reading b (InMemoryBackend.after_watermarks topic partition b.backend)
  refine hw.bind ?_ ?_ fun _ _ h => ⟨h.1, by simp, by simp⟩
  · rintro r t t' ⟨ht, hs⟩
    refine ⟨ht, fun v hv => ?_, by simp⟩
    obtain rfl := Outcome.ok.inj hv
    exact oldest_le hs
  · rintro e t t' ⟨ht, hs⟩
    refine ⟨ht, by simp, fun e' he => ?_⟩
    obtain rfl := Outcome.err.inj he
    exact harmless_of_watermarks hs

/-- What the result of a fetch from `position` says: `b₀` is the broker when the log was read, `b` the one at the end. -/
def Read (b₀ b : Broker π) (key : String × Int) (position : Option Int) (groupId : Option String) :
    Outcome RmqError (Option StoredMessage) → Prop
  | .ok (some m) => ∃ n : Nat, m.offset = n ∧ (b₀.logAt key).dropped ≤ n ∧ (b₀.logAt key).history[n]? = some m ∧
      (∀ o, position = some o → o = n) ∧ (position = none → groupId = none → n ≤ (b₀.logAt key).dropped)
  | .err (.offsetOutOfRange _ _ v) => (∃ n : Nat, v = n ∧ n ≤ (b.logAt key).dropped) ∧
      ∀ o, position = some o → o < (b₀.logAt key).dropped ∨ (b₀.logAt key).next < o
  | _ => True

theorem read_err {e : RmqError} (he : Harmless e) : Read b₀ b key position groupId (.err e) := by
  cases e with
  | offsetOutOfRange => exact he.elim
  | _ => trivial

theorem Read.later {o : Outcome RmqError (Option StoredMessage)} (h : Read b₀ b key position groupId o)
    (hl : b.Later b') : Read b₀ b' key position groupId o := by
  rcases o with (_ | m) | e | _
  · trivial
  · exact h
  · cases e with
    | offsetOutOfRange _ _ v =>
      obtain ⟨⟨n, hn, hle⟩, hout⟩ := h
      exact ⟨⟨n, hn, hle.trans (TrimmedLog.dropped_mono (hl.logAt key))⟩, hout⟩
    | _ => trivial
  · trivial

/-- Where a fetch begins: at the position, if there is one, and without a group else at the oldest message. -/
private def Starts (b : Broker π) (key : String × Int) (position : Option Int) (groupId : Option String) (v : Int) : Prop :=
  (∀ o, position = some o → o = v) ∧
    (position = none → groupId = none → ∃ n : Nat, v = n ∧ n ≤ (b.logAt key).dropped)

private theorem Starts.later {v : Int} (h : b.Starts key position groupId v) (hl : b.Later b') :
    b'.Starts key position groupId v := by
  refine ⟨h.1, fun hpos hgroup => ?_⟩
  obtain ⟨n, hn, hle⟩ := h.2 hpos hgroup
  exact ⟨n, hn, hle.trans (TrimmedLog.dropped_mono (hl.logAt key))⟩

private theorem after_startOffset (key : String × Int) (position : Option Int) (groupId : Option String)
    (b : Broker π) :
    (startOffset key.1 key.2 position groupId).After Later (fun b b' => b' = b) (fun b o b' => b' = b ∧
      (∀ v : Int, o = .ok v → b.Starts key position groupId v) ∧ ∀ e, o = .err e → Harmless e) b b := by
  have holdest : ∀ (gid : Option String) (b : Broker π), (oldestOffset key.1 key.2).After Later (fun b b' => b' = b)
      (fun b o b' => b' = b ∧ (∀ v : Int, o = .ok v → b.Starts key none gid v) ∧ ∀ e, o = .err e → Harmless e) b b := by
    refine fun gid b => (after_oldestOffset key.1 key.2 b).mono (fun _ _ h => h) ?_
    rintro c o c' ⟨rfl, hv, herr⟩
    exact ⟨rfl, fun v ho => ⟨by simp, fun _ _ => hv v ho⟩, herr⟩
  cases position with
  | some o =>
    refine ⟨rfl, fun v hv => ⟨fun o' ho' => ?_, by simp⟩, by simp⟩
    rw [← Option.some.inj ho', ← Outcome.ok.inj hv]
  | none =>
    cases groupId with
    | none => exact holdest none b
    | some gid =>
      have hcommit : (groupOffset gid key.1 key.2 : BrokerM π _).After Later (fun b b' => b' = b)
          (fun b o b' => b' = b ∧ ∀ e, o ≠ .err e) b b := by
        refine Act.After.read_bind rfl ?_ (by simp) (by simp)
        intro c known _ _
        cases known
        · exact ⟨rfl, by simp⟩
        · exact ⟨rfl, fun d _ => ⟨rfl, by simp⟩⟩
      refine hcommit.bind ?_ (fun e _ _ h => absurd rfl (h.2 e)) fun _ _ h => ⟨h.1, by simp, by simp⟩
      rintro committed c c' ⟨rfl, -⟩
      cases committed with
      | none => exact holdest (some gid) _
      | some committed =>
        dsimp only
        split
        · exact ⟨rfl, fun v _ => ⟨by simp, by simp⟩, by simp⟩
        · exact ⟨rfl, by simp, by simp⟩

/-- What the read of the log has found. -/
private theorem read_of_seen {topic : String} {partition v : Int} {o : Outcome RmqError (Option StoredMessage)}
    (hv : b.Starts (topic, partition) position groupId v)
    (hs : b.backend.Seen topic (fun t => InMemoryBackend.ofResult (t.fetchOne partition v)) o) :
    (∀ m, o = .ok m → Read b b (topic, partition) position groupId o) ∧ ∀ t p v', o = .err (.offsetOutOfRange t p v') →
      ∀ o, position = some o → o < (b.logAt (topic, partition)).dropped ∨ (b.logAt (topic, partition)).next < o := by
  rcases hs with ⟨t, ht, ho⟩ | rfl | rfl
  · change o = InMemoryBackend.ofResult (t.fetchOne partition v) at ho
    have hpart : ∀ p, t.partition? partition = some p → o = InMemoryBackend.ofResult (p.readOne v) := by
      intro p hp
      rw [ho, Topic.fetchOne, Topic.getPartition_eq, hp]
      rfl
    cases hp : t.partition? partition with
    | none =>
      have ho' : o = .err (.partitionOutOfRange t.name partition) := by
        rw [ho, Topic.fetchOne, Topic.getPartition_eq, hp]
        rfl
      subst ho'
      exact ⟨by simp, by simp⟩
    | some p =>
      have hlog := logAt_of_seen ht hp
      rw [hpart p hp]
      rcases p.readOne_cases v with ⟨n, m, rfl, hg, hr⟩ | ⟨-, hr⟩ | ⟨hout, -, hr⟩
      · rw [hr]
        refine ⟨fun m' _ => ⟨n, (p.stamped_of_get? hg).1, ?_, ?_, hv.1, fun hpos hgroup => ?_⟩,
          by simp [InMemoryBackend.ofResult]⟩
        · rw [hlog]
          exact (TrimmedLog.bounds_of_get? hg).1
        · rw [hlog, ← TrimmedLog.get?_of_dropped_le (TrimmedLog.bounds_of_get? hg).1]
          exact hg
        · obtain ⟨k, hk, hle⟩ := hv.2 hpos hgroup
          omega
      · rw [hr]
        exact ⟨fun _ _ => trivial, by simp [InMemoryBackend.ofResult]⟩
      · rw [hr]
        refine ⟨by simp [InMemoryBackend.ofResult], fun _ _ _ _ o ho => ?_⟩
        rw [hlog, hv.1 o ho]
        exact hout
  · exact ⟨by simp, by simp⟩
  · exact ⟨by simp, by simp⟩

/-- A fetch looks up the oldest offset after the read of the log at `b₀` has found its position out of range. -/
private theorem after_outOfRange (key : String × Int) (groupId : Option String)
    (hout : ∀ o, position = some o → o < (b₀.logAt key).dropped ∨ (b₀.logAt key).next < o) :
    (oldestOffset key.1 key.2 >>= fun oldest => (.fail (.offsetOutOfRange key.1 key.2 oldest) :
      BrokerM π (Option StoredMessage))).After Later (fun b b' => b' = b)
      (fun b o b' => b' = b ∧ b₀.Later b ∧ Read b₀ b key position groupId o) b₀ b₀ := by
  have holdest := (after_oldestOffset key.1 key.2 b₀).keep (J := fun b => b₀.Later b) (fun _ _ => Later.trans)
    (fun _ _ h he => he ▸ h) (fun _ _ _ h => h.1) (.refl b₀)
  refine holdest.bind ?_ ?_ ?_
  · rintro oldest b b' ⟨⟨rfl, hn, -⟩, hl⟩
    exact ⟨rfl, hl, hn oldest rfl, hout⟩
  · rintro e b b' ⟨⟨rfl, -, herr⟩, hl⟩
    exact ⟨rfl, hl, read_err (herr e rfl)⟩
  · rintro b b' ⟨⟨rfl, -⟩, hl⟩
    exact ⟨rfl, hl, trivial⟩

/-- The read of the log, where the fetch begins at `v`. -/
private theorem after_readLog {v : Int} (hv : b.Starts key position groupId v) :
    (onBackend (InMemoryBackend.fetchOne key.1 key.2 v)).attempt.After Later (fun b b' => b' = b)
      (fun c r c' => c' = c ∧ b.Later c ∧ ∃ o, r = o.caught ∧
        (∀ m, o = .ok m → Read c c key position groupId o) ∧ ∀ t p v', o = .err (.offsetOutOfRange t p v') →
          ∀ o, position = some o → o < (c.logAt key).dropped ∨ (c.logAt key).next < o) b b := by
  have hfetch := after_reading b (InMemoryBackend.after_fetchOne key.1 key.2 v b.backend)
  have hkeep := hfetch.keep (J := fun c => b.Later c ∧ c.Starts key position groupId v)
    (fun _ _ h hl => ⟨h.1.trans hl, h.2.later hl⟩) (fun _ _ h he => he ▸ h) (fun _ _ _ h => h.1) ⟨.refl b, hv⟩
  refine (Act.After.attempt hkeep).mono (fun _ _ h => h) ?_
  rintro c r c' ⟨o, ho, ⟨rfl, hs⟩, hl, hstarts⟩
  exact ⟨rfl, hl, o, ho, read_of_seen hstarts hs⟩

/-- A fetch from any position, for any group: the log is read at one moment, which lies in the call. -/
theorem after_fetchOneFromPosition (key : String × Int) (position : Option Int) (groupId : Option String)
    (b : Broker π) :
    (fetchOneFromPosition key.1 key.2 position groupId).After Later (fun b b' => b' = b)
      (fun b' o b'' => b'' = b' ∧ ∃ b₀, b.Later b₀ ∧ b₀.Later b' ∧ Read b₀ b' key position groupId o) b b := by
  refine Act.After.read_bind rfl ?_ ?_ ?_
  · rintro c _ hc -
    have hstart := (after_startOffset key position groupId c).keep (J := fun c => b.Later c) (fun _ _ => Later.trans)
      (fun _ _ h he => he ▸ h) (fun _ _ _ h => h.1) hc
    refine hstart.bind ?_ ?_ ?_
    · rintro v d d' ⟨⟨rfl, hv, -⟩, hd⟩
      refine (after_readLog (hv v rfl)).bind ?_ ?_ ?_
      · rintro r e e' ⟨rfl, he, o, ho, hok, hout⟩
        rcases o with m | err | _
        · obtain rfl := Outcome.ok.inj ho
          exact ⟨rfl, e', hd.trans he, .refl e', hok m rfl⟩
        · obtain rfl := Outcome.ok.inj ho
          cases err with
          -- the second look at the oldest offset comes later than the read of the log
          | offsetOutOfRange t p v' =>
            refine (after_outOfRange key groupId (hout t p v' rfl)).mono (fun _ _ h => h) ?_
            rintro f o f' ⟨rfl, hf, hread⟩
            exact ⟨rfl, e', hd.trans he, hf, hread⟩
          | _ => exact ⟨rfl, e', hd.trans he, .refl e', trivial⟩
        · cases ho
      · rintro err e e' ⟨-, -, o, ho, -⟩
        cases o <;> cases ho
      · rintro e e' ⟨rfl, he, -⟩
        exact ⟨rfl, e', hd.trans he, .refl e', trivial⟩
    · rintro e d d' ⟨⟨rfl, -, herr⟩, hd⟩
      exact ⟨rfl, d', hd, .refl d', read_err (herr e rfl)⟩
    · rintro d d' ⟨⟨rfl, -⟩, hd⟩
      exact ⟨rfl, d', hd, .refl d', trivial⟩
  · rintro c e hc he
    refine ⟨rfl, c, hc, .refl c, read_err ?_⟩
    cases hd : c.shutdown with
    | true =>
      obtain rfl : RmqError.brokerShutdown = e := by simpa [hd] using he
      trivial
    | false => simp [hd] at he
  · rintro c hc -
    exact ⟨rfl, c, hc, .refl c, trivial⟩

end Broker

/-! ### A poll -/

/-- What a poll of consumer `i` keeps.  The log is read at `b₀`, before the state of the consumer is updated. -/
structure PollInvariant (I : Session π → Calls → Prop) (i : Nat) (groupId : Option String) : Prop where
  rely : ∀ {s s' h}, I s h → s.broker.Later s'.broker → s'.state = s.state → I s' h
  silent : ∀ {s h} {o : Outcome RmqError (Option StoredMessage)}, I s h → (∀ m, o ≠ .ok (some m)) →
    I s (h ++ [(.consumer i .pollOnce, o.map .message)])
  reset : ∀ {s h b₀ key t p v}, I ⟨b₀, s.state⟩ h → I s h → b₀.Later s.broker →
    Broker.Read b₀ s.broker key (s.state.position.lookup key) groupId (.err (.offsetOutOfRange t p v)) →
    I ⟨s.broker, s.state.setPosition key v⟩ h
  deliver : ∀ {s h b₀ key m}, I ⟨b₀, s.state⟩ h → I s h → b₀.Later s.broker →
    Broker.Read b₀ s.broker key (s.state.position.lookup key) groupId (.ok (some m)) →
    key ∈ s.state.assignedPartitions.keys → key ∉ s.state.paused →
    ∀ idx, I ⟨s.broker, s.state.delivered key m.offset idx⟩
      (h ++ [(.consumer i .pollOnce, .ok (.message (some m)))])

namespace PollInvariant

open Session BaseConsumer

variable {I : Session π → Calls → Prop} {i : Nat} {c : BaseConsumer} (hI : PollInvariant I i c.groupId)
  {s s' : Session π} {h : Calls}

include hI

/-- The fetch of a poll. -/
private theorem after_fetch (hs : I s h) (key : String × Int) :
    (onBroker (Broker.fetchOneFromPosition key.1 key.2 (s.state.position.lookup key) c.groupId)).attempt.After Alone
      (fun s s' => I s h → I s' h) (fun _ o s' => ∃ o', o = o'.caught ∧ I s' h ∧ s'.state = s.state ∧
        ∃ b₀, I ⟨b₀, s.state⟩ h ∧ b₀.Later s'.broker ∧
          Broker.Read b₀ s'.broker key (s.state.position.lookup key) c.groupId o') s s := by
  have hfetch : (onBroker (Broker.fetchOneFromPosition key.1 key.2 (s.state.position.lookup key) c.groupId)).After
      Alone (fun s s' => s' = s) (fun s₁ o s' => s' = s₁ ∧ ∃ b₀, s.broker.Later b₀ ∧ b₀.Later s'.broker ∧
        Broker.Read b₀ s'.broker key (s.state.position.lookup key) c.groupId o) s s := by
    refine Act.After.zoom (Broker.after_fetchOneFromPosition key _ c.groupId s.broker) (fun _ => rfl)
      (fun o h => ⟨rfl, h.2⟩) (fun _ _ h => h.1) (fun t b h => ?_) fun t o b h => ?_
    · rw [h]
      rfl
    · obtain ⟨rfl, hread⟩ := h
      exact ⟨rfl, hread⟩
  have hkeep := hfetch.keep (J := fun t => I t h ∧ t.state = s.state)
    (fun _ _ ht hl => ⟨hI.rely ht.1 hl.1 hl.2, hl.2.trans ht.2⟩) (fun _ _ ht he => he ▸ ht) (fun _ _ _ hF => hF.1)
    ⟨hs, rfl⟩
  refine (Act.After.attempt hkeep).mono (fun _ _ he ht => he ▸ ht) ?_
  rintro t o t' ⟨o', ho, ⟨rfl, b₀, hb₀, hl, hread⟩, ht, hstate⟩
  exact ⟨o', ho, ht, hstate, b₀, hI.rely hs hb₀ rfl, hl, hread⟩

private theorem after_pollFrom (len first : Nat) (l : List Nat) (hs : I s' h) :
    (c.pollFrom first len l).After Alone (fun s s' => I s h → I s' h)
      (fun _ o s' => I s' (h ++ [(.consumer i .pollOnce, o.map .message)])) s s' := by
  -- on the entries that the poll still has to look at
  induction l generalizing s s' with
  | nil => exact hI.silent (o := .ok none) hs (by simp)
  | cons j l ih =>
    refine Act.After.read_bind (fun _ => hs) ?_ (fun _ _ _ h => nomatch h) fun _ _ h => nomatch h
    rintro t entry ht hentry
    obtain rfl := Outcome.ok.inj hentry
    have hst : I t h := hI.rely hs ht.1 ht.2
    show Act.After _ _ _ (c.onEntry _ _ (t.state.pollEntry ((first + j) % len))) t t
    cases helem : t.state.assignedPartitions.elements[(first + j) % len]? with
    | none =>
      rw [ConsumerState.pollEntry, helem]
      exact ih hst
    | some elem =>
      have hkey : elem.key ∈ t.state.assignedPartitions.keys := List.mem_map.2 ⟨elem, List.mem_of_getElem? helem, rfl⟩
      rw [ConsumerState.pollEntry_of_getElem? helem]
      cases hp : decide (elem.key ∈ t.state.paused) with
      | true => exact ih hst
      | false =>
        rw [onEntry]
        have hp : elem.key ∉ t.state.paused := of_decide_eq_false hp
        refine (hI.after_fetch hst elem.key).bind ?_ ?_ ?_
        · rintro r u u' ⟨o', ho, hu, hstate, b₀, hb₀, hl, hread⟩
          rw [← hstate] at hread hb₀ hp hkey
          rcases o' with (_ | msg) | e | _
          · obtain rfl := Outcome.ok.inj ho
            exact ih hu
          · obtain rfl := Outcome.ok.inj ho
            refine ⟨fun _ => hu, fun v hv => ?_⟩
            rw [← hv.2] at hread hb₀ hp hkey
            exact hI.deliver hb₀ (hI.rely hu hv.1 hv.2) (hl.trans hv.1) (hread.later hv.1) hkey hp _
          · obtain rfl := Outcome.ok.inj ho
            cases e with
            -- the poll resets the position and goes on to the next entry
            | offsetOutOfRange t p v =>
              refine ⟨fun _ => hu, fun v hv => ?_⟩
              rw [← hv.2] at hread hb₀
              exact ih (hI.reset hb₀ (hI.rely hu hv.1 hv.2) (hl.trans hv.1) (hread.later hv.1))
            | topicNotFound => exact ih hu
            | partitionOutOfRange => exact ih hu
            -- every other error ends the poll
            | groupNotFound => exact hI.silent hu (by simp)
            | brokerShutdown => exact hI.silent hu (by simp)
            | invalidConfig => exact hI.silent hu (by simp)
            | custom => exact hI.silent hu (by simp)
          · cases ho
        · rintro e u u' ⟨o', ho, -⟩
          cases o' <;> cases ho
        · rintro u u' ⟨o', ho, hu, -⟩
          exact hI.silent (o := .panic) hu (by simp)

theorem after_pollOnce (hs : I s h) :
    c.pollOnce.After Alone (fun s s' => I s h → I s' h)
      (fun _ o s' => I s' (h ++ [(.consumer i .pollOnce, o.map .message)])) s s := by
  refine Act.After.read_bind id ?_ (fun _ _ _ h => nomatch h) fun _ _ h => nomatch h
  rintro t bounds ht hb
  have hst : I t h := hI.rely hs ht.1 ht.2
  show Act.After _ _ _ (if bounds.2 = 0 then _ else _) t t
  split
  · exact hI.silent (o := .ok none) hst (by simp)
  · exact hI.after_pollFrom _ _ _ hst

end PollInvariant

/-! ### The run -/

section

variable {ι : Type} {I : Session π → Calls → Prop} {i : Nat}

/-- The other threads let the broker get later, and do not touch consumer `i`. -/
private def Unmoved (i : Nat) (w w' : World π) : Prop :=
  w.broker.Later w'.broker ∧ w'.consumers i = w.consumers i

private theorem unmoved_refl (i : Nat) (w : World π) : Unmoved i w w := ⟨.refl _, rfl⟩

private theorem Unmoved.trans {w w' w'' : World π} (h : Unmoved i w w') (h' : Unmoved i w' w'') :
    Unmoved i w w'' :=
  ⟨h.1.trans h'.1, h'.2.trans h.2⟩

private theorem always_unmoved [Partitioner π] (ids : Nat → BaseConsumer) {op : Op} (hop : op.actor ≠ some i) :
    (op.body ids : Act (World π) RmqError Reply).Always (Unmoved i) :=
  (Op.always_stepOf ids op).mono fun _ _ hs => ⟨hs.1, hs.frame hop⟩

/-- Thread `t` keeps what holds of consumer `i`; the other threads do not touch the consumer. -/
private def sessionProtocol (t : ι) (i : Nat) (I : Session π → Calls → Prop) :
    Protocol ι Op (World π) RmqError Reply where
  rely j w w' := j = t → Unmoved i w w'
  inner j h w w' := (j = t → I ((World.sessionLens i).get w) h → I ((World.sessionLens i).get w') h) ∧
    (j ≠ t → Unmoved i w w')
  last j h op w o w' := (j = t → I ((World.sessionLens i).get w) h →
      I ((World.sessionLens i).get w') (h ++ [(op, o)])) ∧
    (j ≠ t → Unmoved i w w')
  rely_refl _ w _ := unmoved_refl i w
  rely_trans _ _ _ _ h₁ h₂ hj := (h₁ hj).trans (h₂ hj)
  inner_rely _ _ _ _ _ hij h hj := h.2 fun hj' => hij (hj.trans hj'.symm)
  last_rely _ _ _ _ _ _ _ hij h hj := h.2 fun hj' => hij (hj.trans hj'.symm)

/-- An operation of consumer `i` that keeps what holds of it when it returns. -/
def Request.Keeps (I : Session π → Calls → Prop) (i : Nat) (c : BaseConsumer) (r : Request) : Prop :=
  ∀ s h, I s h → (r.body c : ConsumerM π Reply).After BaseConsumer.Alone (fun s s' => I s h → I s' h)
    (fun s o s' => I s h → I s' (h ++ [(.consumer i r, o)])) s s

theorem PollInvariant.keeps {c : BaseConsumer} (hI : PollInvariant I i c.groupId) : Request.pollOnce.Keeps I i c :=
  fun _ _ hs => (after_reply (hI.after_pollOnce hs)).mono (fun _ _ h => h) fun _ _ _ h _ => h

variable [DecidableEq ι] [Partitioner π] {ids : Nat → BaseConsumer}

/-- An invariant of a consumer that one thread uses: besides polls the thread may execute operations of the consumer that
keep it, and other operations. -/
theorem PollInvariant.exec (hI : PollInvariant I i (ids i).groupId) (t : ι) (allowed : Op → Prop)
    (hown : ∀ r, allowed (.consumer i r) → r ≠ .pollOnce → r.Keeps I i (ids i))
    (hrest : ∀ op, allowed op → op.actor ≠ some i → ∀ s h o, I s h → I s (h ++ [(op, o)]))
    {w₀ : World π} (h₀ : I ((World.sessionLens i).get w₀) []) {sched : List (Choice ι Op)}
    (ht : ∀ op, .call t op ∈ sched → allowed op) (hother : ∀ j op, .call j op ∈ sched → j ≠ t → op.actor ≠ some i) :
    I ((World.sessionLens i).get (System.exec (Op.body ids) (.init w₀) sched).shared)
      (own t (System.exec (Op.body ids) (.init w₀) sched).history) := by
  have hkeeps : ∀ r, allowed (.consumer i r) → r.Keeps I i (ids i) := by
    intro r hr
    by_cases hpoll : r = .pollOnce
    · subst hpoll
      exact hI.keeps
    · exact hown r hr hpoll
  refine System.exec_invariant (sessionProtocol t i I) (fun w h => I ((World.sessionLens i).get w) (own t h))
    (fun j op => (j = t → allowed op) ∧ (j ≠ t → op.actor ≠ some i)) ?_ ?_ ?_ ?_ h₀
  -- a call, under the steps of the other threads
  · intro j op w h hop hinv
    by_cases hj : j = t
    · subst hj
      by_cases hactor : op.actor = some i
      · obtain ⟨r, rfl⟩ : ∃ r, op = .consumer i r := by
          cases op with
          | consumer j r => exact ⟨r, by rw [Option.some.inj hactor]⟩
          | send => cases hactor
          | shutdown => cases hactor
        refine Act.After.zoom (hkeeps r (hop.1 rfl) _ _ hinv) (fun hN => ⟨fun _ => hN, fun hj => absurd rfl hj⟩)
          (fun o hF => ⟨fun _ => hF, fun hj => absurd rfl hj⟩) (fun _ _ hR => hR rfl) ?_ ?_
        · refine fun v s hN => ⟨fun _ => ?_, fun hj => absurd rfl hj⟩
          rwa [(World.sessionLens i).get_put]
        · refine fun v o s hF => ⟨fun _ => ?_, fun hj => absurd rfl hj⟩
          rwa [(World.sessionLens i).get_put]
      · refine ((always_unmoved ids hactor).after (unmoved_refl i w)).mono
          (fun _ _ hs => ⟨fun _ hI' => hI.rely hI' hs.1 hs.2, fun hj => absurd rfl hj⟩)
          fun _ o _ hs => ⟨fun _ hI' => ?_, fun hj => absurd rfl hj⟩
        exact hrest op (hop.1 rfl) hactor _ _ o (hI.rely hI' hs.1 hs.2)
    · exact ((always_unmoved ids (hop.2 hj)).after (unmoved_refl i w)).mono
        (fun _ _ hs => ⟨fun h => absurd h hj, fun _ => hs⟩) fun _ _ _ hs => ⟨fun h => absurd h hj, fun _ => hs⟩
  -- a step inside a call
  · intro j w w' h hin hinv
    by_cases hj : j = t
    · subst hj
      exact hin.1 rfl hinv
    · exact hI.rely hinv (hin.2 hj).1 (hin.2 hj).2
  -- the last step of a call, which puts it into the history
  · intro j op w o w' h hlast hinv
    by_cases hj : j = t
    · subst hj
      rw [own_append_self]
      exact hlast.1 rfl hinv
    · rw [own_append_ne hj]
      exact hI.rely hinv (hlast.2 hj).1 (hlast.2 hj).2
  · exact fun j op hmem => ⟨fun hj => ht op (hj ▸ hmem), hother j op hmem⟩

end

end RMemQueue
