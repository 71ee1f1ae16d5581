import RMemQueue.Registry
import RMemQueue.Consumer

/-!
# Building a client (`base_producer.rs`, `base_consumer.rs`)

Every client gets its broker from the registry, with the configuration that it is built from.  The configuration is
only read where the registry has to create a broker: `getOrCreate` panics when there is no `broker.id`, and a live
broker is shared whatever else the configuration says (`get_or_create_validates_iff`).
-/

namespace RMemQueue

open Conc Registry

/-! ### The errors of a configuration -/

namespace BrokerConfig

/-- The only errors of a computation are invalid configurations. -/
def RaisesInvalid {α : Type} (x : RmqResult α) : Prop := ∀ e, x = .error e → ∃ text, e = .invalidConfig text

private theorem RaisesInvalid.bind {α β : Type} {x : RmqResult α} {f : α → RmqResult β} (hx : RaisesInvalid x)
    (hf : ∀ a, RaisesInvalid (f a)) : RaisesInvalid (x >>= f) := by
  intro e h
  cases x with
  | error e' =>
    cases h
    exact hx _ rfl
  | ok a => exact hf a e h

private theorem raisesInvalid_number (config : RmqClientConfig) (ty : IntType) (key : String) :
    RaisesInvalid (number config ty key) := by
  intro e h
  unfold number at h
  split at h
  · cases h
  · split at h
    · cases h
    · cases h
      exact ⟨_, rfl⟩

theorem raisesInvalid_fromConfig (config : RmqClientConfig) : RaisesInvalid (fromConfig config) := by
  unfold fromConfig
  split
  · rintro e ⟨⟩
    exact ⟨_, rfl⟩
  · refine .bind (raisesInvalid_number _ _ _) fun _ => ?_
    refine .bind (raisesInvalid_number _ _ _) fun _ => ?_
    refine .bind (raisesInvalid_number _ _ _) fun _ => ?_
    refine .bind (raisesInvalid_number _ _ _) fun _ => ?_
    refine .bind (raisesInvalid_number _ _ _) fun _ => ?_
    rintro e ⟨⟩

end BrokerConfig

namespace Registry

variable {config : RmqClientConfig} {brokerId : String}

/-! ### The call of the registry -/

/-- Without a `broker.id` the call panics. -/
theorem run_getOrCreate_of_none (h : config.get ConfigKeys.brokerId = none) (r : Registry) :
    (getOrCreate config).run r = (.panic, r) := by
  unfold getOrCreate
  rw [h]
  rfl

/-- A live broker is shared. -/
theorem run_getOrCreate_of_live (h : config.get ConfigKeys.brokerId = some brokerId) {r : Registry} {broker : Nat}
    (hlive : r.upgrade brokerId = some broker) :
    (getOrCreate config).run r = (.ok broker, { r with held := broker :: r.held }) := by
  unfold getOrCreate
  rw [h]
  dsimp only
  rw [Act.run_bind, lookup, Act.run_step, hlive]
  rfl

/-- Where no broker is alive, the configuration decides. -/
theorem run_getOrCreate_of_dead (h : config.get ConfigKeys.brokerId = some brokerId) {r : Registry}
    (hdead : r.upgrade brokerId = none) :
    ((getOrCreate config).run r).1 =
      match BrokerConfig.fromConfig config with
      | .ok _ => .ok r.brokers.length
      | .error e => .err e := by
  unfold getOrCreate
  rw [h]
  dsimp only
  rw [Act.run_bind, lookup, Act.run_step, hdead, Outcome.andThen_ok, onLookup, Act.run_bind, create, Act.run_step,
    Broker.new, Broker.withPartitioner]
  cases BrokerConfig.fromConfig config with
  | error e => rfl
  | ok c => rfl

/-- What the doc of `FromRmqConfig` promises: no panic, and an invalid configuration is reported. -/
def Validated (config : RmqClientConfig) (o : Outcome RmqError Nat) : Prop :=
  o ≠ .panic ∧ ((∃ text, o = .err (.invalidConfig text)) ↔ ∃ e, BrokerConfig.fromConfig config = .error e)

end Registry

/-- A client is built with a validated configuration if and only if there is a `broker.id`, and the configuration is
valid or no broker with this id is alive. -/
theorem get_or_create_validates_iff (config : RmqClientConfig) (r : Registry) :
    Validated config ((getOrCreate config).run r).1 ↔
      ∃ brokerId, config.get ConfigKeys.brokerId = some brokerId ∧
        (r.upgrade brokerId = none ∨ ∃ c, BrokerConfig.fromConfig config = .ok c) := by
  cases hid : config.get ConfigKeys.brokerId with
  | none =>
    rw [run_getOrCreate_of_none hid]
    simp [Validated]
  | some brokerId =>
    simp only [Option.some.injEq, exists_eq_left']
    cases hup : r.upgrade brokerId with
    | some broker =>
      rw [run_getOrCreate_of_live hid hup]
      cases hc : BrokerConfig.fromConfig config with
      | error e => simp [Validated, hc]
      | ok c => simp [Validated, hc]
    | none =>
      rw [Validated, run_getOrCreate_of_dead hid hup]
      cases hc : BrokerConfig.fromConfig config with
      | error e =>
        obtain ⟨text, rfl⟩ := BrokerConfig.raisesInvalid_fromConfig config e hc
        simp
      | ok c => simp

/-- A configuration without a `broker.id` panics. -/
theorem get_or_create_panics : ¬∀ (config : RmqClientConfig) (r : Registry),
    Validated config ((getOrCreate config).run r).1 := by
  intro h
  exact (h .new .init).1 rfl

/-! ### The clients -/

/-- `BaseProducer::with_context`: the address of the broker. -/
def BaseProducer.withContext (config : RmqClientConfig) : RegistryM Nat := getOrCreate config

/-- `BaseConsumer::with_context`: the address of the broker, and the identity of the consumer.  `nanos` is the wall
clock and `counter` the value of `MEMBER_ID_COUNTER`. -/
def BaseConsumer.withContext (nanos counter : Nat) (config : RmqClientConfig) : RegistryM (Nat × BaseConsumer) := do
  let broker ← getOrCreate config
  pure (broker, ⟨config.get ConfigKeys.groupId, "consumer-" ++ toString nanos ++ "-" ++ toString counter⟩)

/-- A consumer is built exactly where a producer is, on the same broker. -/
theorem BaseConsumer.run_withContext (nanos counter : Nat) (config : RmqClientConfig) (r : Registry) :
    ∃ c : BaseConsumer, c.groupId = config.get ConfigKeys.groupId ∧
      (BaseConsumer.withContext nanos counter config).run r =
        (((BaseProducer.withContext config).run r).1.map fun broker => (broker, c),
          ((BaseProducer.withContext config).run r).2) := by
  refine ⟨⟨config.get ConfigKeys.groupId, "consumer-" ++ toString nanos ++ "-" ++ toString counter⟩, rfl, ?_⟩
  rw [BaseConsumer.withContext, BaseProducer.withContext, Act.run_bind]
  rcases (getOrCreate config).run r with ⟨_ | _ | _, r'⟩ <;> rfl

end RMemQueue
