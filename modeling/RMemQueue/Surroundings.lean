import RMemQueue.ConsumerRun
import RMemQueue.Lib.Serial
import RMemQueue.SharedPoints

/-!
# What the operations of a consumer depend on

The operations that run concurrently on a consumer look at the broker but for the members of its groups, and leave that
as it is: `surroundings`.  What an operation asks the broker before it updates the state (`Request.ask`) has the same
answer at any time.
-/

namespace RMemQueue

open Conc

variable {π : Type}

namespace Broker

/-- What the operations of a shared consumer look at in a broker, and leave as it is. -/
structure Surroundings where
  backend : InMemoryBackend
  shutdown : Bool
  config : BrokerConfig
  offsetStore : OffsetStore
  groups : String → Bool

def surroundings (b : Broker π) : Surroundings :=
  ⟨b.backend, b.shutdown, b.config, b.offsetStore, fun gid => (b.consumerGroups.lookup gid).isSome⟩

variable {b b' : Broker π}

private theorem within_onBackend {α : Type} {x : BackendM α} (hx : x.ReadOnly) :
    (onBackend x : BrokerM π α).Within surroundings :=
  hx.within_zoom fun _ _ h => congrArg Surroundings.backend h

private theorem within_checkShutdown : (checkShutdown : BrokerM π Unit).Within surroundings := by
  refine Act.within_read fun b b' h => ?_
  rw [show b.shutdown = b'.shutdown from congrArg Surroundings.shutdown h]

private theorem lookup_isSome (h : b.surroundings = b'.surroundings) (gid : String) :
    (b.consumerGroups.lookup gid).isSome = (b'.consumerGroups.lookup gid).isSome :=
  congrFun (congrArg Surroundings.groups h) gid

private theorem within_requireGroup (gid : String) : (requireGroup gid : BrokerM π Unit).Within surroundings :=
  Act.within_read fun b b' h => by rw [lookup_isSome h gid]

private theorem within_offsetStore (gid topic : String) (partition : Int) :
    (Act.read fun b => .ok (b.offsetStore.lookup (gid, topic, partition)) : BrokerM π _).Within surroundings := by
  refine Act.within_read fun b b' h => ?_
  rw [show b.offsetStore = b'.offsetStore from congrArg Surroundings.offsetStore h]

theorem within_watermarks (topic : String) (partition : Int) :
    (watermarks topic partition : BrokerM π _).Within surroundings :=
  within_onBackend (InMemoryBackend.readOnly_watermarks topic partition)

theorem within_committedOffset (gid topic : String) (partition : Int) :
    (committedOffset gid topic partition : BrokerM π _).Within surroundings :=
  within_checkShutdown.bind fun _ => (within_requireGroup gid).bind fun _ => within_offsetStore gid topic partition

private theorem within_oldestOffset (topic : String) (partition : Int) :
    (oldestOffset topic partition : BrokerM π Int).Within surroundings :=
  (within_watermarks topic partition).bind fun _ => trivial

private theorem within_startOffset (topic : String) (partition : Int) (position : Option Int)
    (groupId : Option String) : (startOffset topic partition position groupId : BrokerM π Int).Within surroundings := by
  unfold startOffset
  split
  · trivial
  · exact within_oldestOffset topic partition
  · rename_i gid
    refine Act.Within.bind ?_ fun committed => ?_
    · refine (Act.within_read fun b b' h => by rw [lookup_isSome h gid]).bind fun known => ?_
      cases known
      · trivial
      · exact within_offsetStore gid topic partition
    · cases committed with
      | none => exact within_oldestOffset topic partition
      | some committed =>
        dsimp only
        split <;> trivial

/-- A fetch looks at nothing else. -/
theorem within_fetchOneFromPosition (topic : String) (partition : Int) (position : Option Int)
    (groupId : Option String) :
    (fetchOneFromPosition topic partition position groupId : BrokerM π _).Within surroundings := by
  refine within_checkShutdown.bind fun _ => ?_
  refine (within_startOffset topic partition position groupId).bind fun offset => ?_
  refine (Act.Within.attempt ?_).bind fun result => ?_
  · exact within_onBackend (InMemoryBackend.readOnly_fetchOne topic partition offset)
  · split
    · trivial
    · exact (within_oldestOffset topic partition).bind fun _ => trivial
    · trivial

/-- `leave_group` changes the members of the group, which exists before and after. -/
theorem within_leaveGroup (order : HashOrder) (gid memberId : String) :
    (leaveGroup order gid memberId : BrokerM π Unit).Within surroundings := by
  refine within_checkShutdown.bind fun _ => (within_requireGroup gid).bind fun _ => ?_
  refine (Act.within_read fun b b' h => ?_).bind fun config => ?_
  · rw [show b.config = b'.config from congrArg Surroundings.config h]
  refine (within_onBackend (InMemoryBackend.readOnly_metadata config.brokerId none)).bind fun metadata => ?_
  refine ⟨fun b => ?_, fun b b' h => ?_, fun _ => trivial⟩
  · dsimp only
    cases hg : b.consumerGroups.lookup gid with
    | none => rfl
    | some g =>
      have hsome : ∀ g', (fun id => ((b.consumerGroups.insert gid g').lookup id).isSome) =
          fun id => (b.consumerGroups.lookup id).isSome := by
        intro g'
        funext id
        by_cases hid : id = gid
        · subst hid
          simp [hg]
        · rw [AList.lookup_insert_ne hid]
      simp only [surroundings, hsome]
  · have hgroup := lookup_isSome h gid
    dsimp only
    cases hg : b.consumerGroups.lookup gid with
    | none =>
      rw [hg] at hgroup
      rw [Option.isNone_iff_eq_none.1 (Option.isSome_eq_false_iff.1 hgroup.symm)]
    | some g =>
      rw [hg] at hgroup
      obtain ⟨g', hg'⟩ := Option.isSome_iff_exists.1 hgroup.symm
      rw [hg']

end Broker

/-! ### What the operations depend on -/

namespace Session

variable {α : Type}

/-- What nobody changes while operations on the consumer run. -/
def surroundings (s : Session π) : Broker.Surroundings := s.broker.surroundings

theorem within_onBroker {x : BrokerM π α} (hx : x.Within Broker.surroundings) : (onBroker x).Within surroundings :=
  Act.Within.zoom (L := brokerLens) hx

theorem silent_onBroker (x : BrokerM π α) : (onBroker x).Always fun s s' => s'.state = s.state :=
  Act.always_part_zoom x fun _ _ => rfl

end Session

/-- The call `y` is what is left of `x`: it asks the broker only, and ends with the same answer. -/
structure Asks (b : Broker π) (x y : ConsumerM π StateUpdate) : Prop where
  within : y.Within Session.surroundings
  silent : y.Always fun s s' => s'.state = s.state
  run : ∀ s : Session π, s.surroundings = b.surroundings → (y.run s).1 = (x.run s).1

namespace Asks

variable {b : Broker π} {x y : ConsumerM π StateUpdate}

/-- The step lemma. -/
theorem next {f : Session π → Session π} {k : Session π → ConsumerM π StateUpdate} (h : Asks b x (.atomic f k))
    {s : Session π} (hs : s.surroundings = b.surroundings) : Asks b x (k s) := by
  obtain ⟨hview, hlocal, hk⟩ := h.within
  refine ⟨hk s, (h.silent s).2, fun v hv => ?_⟩
  rw [← h.run v hv]
  show _ = ((k v).run (f v)).1
  rw [hlocal v s (hv.trans hs.symm)]
  exact (hk s).run (hview v).symm

theorem state_run (h : Asks b x y) (s : Session π) : (y.run s).2.state = s.state :=
  h.silent.run (fun _ => rfl) (fun _ _ _ h₁ h₂ => h₂.trans h₁) s

end Asks

namespace BaseConsumer

open Session

variable (c : BaseConsumer)

private theorem asks_leave (order : HashOrder) :
    (c.leave order : ConsumerM π Unit).Within surroundings ∧
      (c.leave order : ConsumerM π Unit).Always fun s s' => s'.state = s.state := by
  unfold leave
  split
  · rename_i gid _
    exact ⟨within_onBroker (Broker.within_leaveGroup order gid c.memberId), silent_onBroker _⟩
  · exact ⟨trivial, trivial⟩

private theorem asks_seekTarget (topic : String) (partition : Int) (offset : Offset) :
    (c.seekTarget topic partition offset : ConsumerM π Int).Within surroundings ∧
      (c.seekTarget topic partition offset : ConsumerM π Int).Always fun s s' => s'.state = s.state := by
  have hmarks := within_onBroker (Broker.within_watermarks (π := π) topic partition)
  have hsilent := silent_onBroker (Broker.watermarks (π := π) topic partition)
  cases offset with
  | beginning => exact ⟨hmarks.bind fun _ => trivial, hsilent.bind fun _ => trivial⟩
  | end_ => exact ⟨hmarks.bind fun _ => trivial, hsilent.bind fun _ => trivial⟩
  | offset o => exact ⟨trivial, trivial⟩
  | stored =>
    unfold seekTarget
    cases c.groupId with
    | none => exact ⟨trivial, trivial⟩
    | some gid =>
      have hw := within_onBroker (Broker.within_committedOffset (π := π) gid topic partition)
      exact ⟨hw.bind fun _ => trivial, (silent_onBroker _).bind fun _ => trivial⟩
  | offsetTail tail =>
    refine ⟨hmarks.bind fun r => ?_, hsilent.bind fun r => ?_⟩
    all_goals
      dsimp only
      split <;> trivial

/-- What the operations do before they update the state. -/
theorem asks_ask {r : Request} {x : ConsumerM π StateUpdate} (h : r.ask c = some x) (b : Broker π) : Asks b x x := by
  have hsplit : x.Within surroundings ∧ x.Always fun s s' => s'.state = s.state := by
    cases r with
    | unsubscribe order =>
      obtain rfl := Option.some.inj h
      obtain ⟨hwithin, hsilent⟩ := c.asks_leave (π := π) order
      -- what the first critical section reads is for the callback only
      exact ⟨⟨fun _ => rfl, fun _ _ _ => rfl, fun _ => hwithin.bind fun _ => trivial⟩,
        fun _ => ⟨rfl, hsilent.bind fun _ => trivial⟩⟩
    | assign partitions =>
      obtain rfl := Option.some.inj h
      exact ⟨trivial, trivial⟩
    | seek topic partition offset =>
      obtain rfl := Option.some.inj h
      obtain ⟨hwithin, hsilent⟩ := c.asks_seekTarget (π := π) topic partition offset
      exact ⟨hwithin.bind fun _ => trivial, hsilent.bind fun _ => trivial⟩
    | storeOffset topic partition offset =>
      obtain rfl := Option.some.inj h
      exact ⟨trivial, trivial⟩
    | _ => cases h
  exact ⟨hsplit.1, hsplit.2, fun _ _ => rfl⟩

end BaseConsumer

end RMemQueue
