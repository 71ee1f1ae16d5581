import RMemQueue.Broker
import RMemQueue.Lib.Threads

/-!
# The registry of brokers (`registry.rs`)

The registry maps a `broker.id` to a weak reference of a broker.  `getOrCreate` looks the id up under the read lock,
creates a broker when the lookup has not found a live one, and inserts it under the write lock.  A broker is known by
its address; it is alive as long as a client or a running call holds an `Arc` of it, and clients clone and drop their
`Arc`s between any two steps of the calls.

`one_live_broker`: as long as no insertion meets an entry whose broker is alive, two calls with one id whose brokers
are alive have returned the same broker.  Two calls that both look the id up before either inserts break this.
-/

namespace RMemQueue

open Conc

/-- The registry and the allocated brokers. -/
structure Registry where
  /-- The weak references by id. -/
  entries : AList fun _ : String => Nat
  /-- The brokers by address. -/
  brokers : List (Broker RoundRobinPartitioner)
  /-- The `Arc`s of running calls. -/
  building : List Nat
  /-- The `Arc`s of clients. -/
  held : List Nat

abbrev RegistryM := Act Registry RmqError

namespace Registry

def init : Registry := ⟨∅, [], [], []⟩

/-- The strong count of the broker is not zero. -/
def live (r : Registry) (broker : Nat) : Bool := broker ∈ r.held ∨ broker ∈ r.building

/-- `Weak::upgrade` of the entry of an id. -/
def upgrade (r : Registry) (brokerId : String) : Option Nat := (r.entries.lookup brokerId).filter r.live

/-- The id of the broker at an address. -/
def idOf? (r : Registry) (broker : Nat) : Option String := r.brokers[broker]?.map fun b => b.config.brokerId

/-- The lookup under the read lock; a live broker is returned to the client. -/
def lookup (brokerId : String) : RegistryM (Option Nat) :=
  .step fun r =>
    match r.upgrade brokerId with
    | some strong => (.ok (some strong), { r with held := strong :: r.held })
    | none => (.ok none, r)

/-- `Broker::new`. -/
def create (config : RmqClientConfig) : RegistryM Nat :=
  .step fun r =>
    match Broker.new config with
    | .ok broker =>
      (.ok r.brokers.length, { r with
        brokers := r.brokers ++ [broker]
        building := r.brokers.length :: r.building })
    | .error e => (.err e, r)

/-- The insertion under the write lock; the broker is returned to the client. -/
def insert (brokerId : String) (broker : Nat) : RegistryM Nat :=
  .step fun r =>
    (.ok broker, { r with
      entries := r.entries.insert brokerId broker
      building := r.building.erase broker
      held := broker :: r.held })

/-- What `getOrCreate` does after its lookup. -/
def onLookup (config : RmqClientConfig) (brokerId : String) : Option Nat → RegistryM Nat
  | some strong => pure strong
  | none => do
    let broker ← create config
    insert brokerId broker

def getOrCreate (config : RmqClientConfig) : RegistryM Nat :=
  match config.get ConfigKeys.brokerId with
  | none => .panicked
  | some brokerId => do
    let found ← lookup brokerId
    onLookup config brokerId found

/-- `Arc::clone` of a broker that a client holds. -/
def clone (broker : Nat) : RegistryM Nat :=
  .step fun r => if broker ∈ r.held then (.ok broker, { r with held := broker :: r.held }) else (.panic, r)

/-- A client drops an `Arc`. -/
def drop (broker : Nat) : RegistryM Nat :=
  .step fun r => if broker ∈ r.held then (.ok broker, { r with held := r.held.erase broker }) else (.panic, r)

end Registry

/-- The calls of clients on the registry and on their `Arc`s. -/
inductive RegistryCall where
  | getOrCreate (config : RmqClientConfig)
  | clone (broker : Nat)
  | drop (broker : Nat)

def RegistryCall.body : RegistryCall → RegistryM Nat
  | .getOrCreate config => Registry.getOrCreate config
  | .clone broker => Registry.clone broker
  | .drop broker => Registry.drop broker

namespace Registry

abbrev Run (ι : Type) := System ι RegistryCall Registry RmqError Nat

/-- The next step of thread `i` inserts a broker under the id. -/
def Inserts {ι : Type} (w : Run ι) (i : ι) (brokerId : String) : Prop :=
  ∃ call broker, w.running i = some (call, insert brokerId broker)

/-- No insertion of the schedule meets an entry whose broker is alive. -/
def InsertsOverDead {ι : Type} [DecidableEq ι] (sched : List (Choice ι RegistryCall)) : Prop :=
  ∀ initial rest i, sched = initial ++ .step i :: rest →
    ∀ brokerId, Inserts (System.exec RegistryCall.body (.init .init) initial) i brokerId →
      (System.exec RegistryCall.body (.init .init) initial : Run ι).shared.upgrade brokerId = none

/-! ### What holds in every state -/

private theorem live_iff {r : Registry} {broker : Nat} : r.live broker ↔ broker ∈ r.held ∨ broker ∈ r.building := by
  simp [live]

private theorem upgrade_eq_some {r : Registry} {brokerId : String} {broker : Nat} :
    r.upgrade brokerId = some broker ↔ r.entries.lookup brokerId = some broker ∧ r.live broker := by
  simp [upgrade, Option.filter_eq_some_iff]

/-- The entries name brokers with their ids, and the broker of a client is the one registered under its id. -/
structure Consistent (r : Registry) : Prop where
  entry : ∀ brokerId broker, r.entries.lookup brokerId = some broker → r.idOf? broker = some brokerId
  held : ∀ broker ∈ r.held, ∃ brokerId, r.idOf? broker = some brokerId ∧ r.entries.lookup brokerId = some broker

/-- Brokers keep their addresses. -/
def Grows (r r' : Registry) : Prop := ∀ broker brokerId, r.idOf? broker = some brokerId → r'.idOf? broker = some brokerId

/-- The broker has the id of the configuration. -/
def Names (r : Registry) (config : RmqClientConfig) (broker : Nat) : Prop :=
  ∃ brokerId, config.get ConfigKeys.brokerId = some brokerId ∧ r.idOf? broker = some brokerId

/-- What may be left of a call. -/
inductive Rest (r : Registry) : RegistryCall → RegistryM Nat → Prop where
  | lookup {config brokerId} (h : config.get ConfigKeys.brokerId = some brokerId) :
      Rest r (.getOrCreate config) (lookup brokerId >>= onLookup config brokerId)
  | create {config brokerId} (h : config.get ConfigKeys.brokerId = some brokerId) :
      Rest r (.getOrCreate config) (create config >>= insert brokerId)
  | insert {config brokerId broker} (h : config.get ConfigKeys.brokerId = some brokerId)
      (hid : r.idOf? broker = some brokerId) : Rest r (.getOrCreate config) (insert brokerId broker)
  | clone (broker) : Rest r (.clone broker) (clone broker)
  | drop (broker) : Rest r (.drop broker) (drop broker)
  | ended {call o} (h : ∀ config broker, call = .getOrCreate config → o = .ok broker → r.Names config broker) :
      Rest r call (.ret o)

theorem Grows.refl (r : Registry) : r.Grows r := fun _ _ h => h

theorem Names.grows {r r' : Registry} {config : RmqClientConfig} {broker : Nat} (h : r.Names config broker)
    (hg : r.Grows r') : r'.Names config broker := by
  obtain ⟨brokerId, hget, hid⟩ := h
  exact ⟨brokerId, hget, hg broker brokerId hid⟩

theorem Rest.grows {r r' : Registry} {call : RegistryCall} {x : RegistryM Nat} (h : r.Rest call x) (hg : r.Grows r') :
    r'.Rest call x := by
  cases h with
  | lookup h => exact .lookup h
  | create h => exact .create h
  | insert h hid => exact .insert h (hg _ _ hid)
  | clone broker => exact .clone broker
  | drop broker => exact .drop broker
  | ended h => exact .ended fun config broker hc ho => (h config broker hc ho).grows hg

/-- A call begins. -/
theorem rest_body (r : Registry) (call : RegistryCall) : r.Rest call call.body := by
  cases call with
  | getOrCreate config =>
    show r.Rest _ (getOrCreate config)
    unfold getOrCreate
    split
    · exact .ended (by simp)
    · rename_i brokerId h
      exact .lookup h
  | clone broker => exact .clone broker
  | drop broker => exact .drop broker

theorem Consistent.init : Consistent .init := ⟨by simp [Registry.init], by simp [Registry.init]⟩

/-- A client obtains an `Arc` of the broker that is registered. -/
private theorem Consistent.hold {r : Registry} (h : r.Consistent) {brokerId : String} {broker : Nat}
    (he : r.entries.lookup brokerId = some broker) : Consistent { r with held := broker :: r.held } := by
  refine ⟨h.entry, fun a ha => ?_⟩
  rcases List.mem_cons.1 ha with rfl | ha
  · exact ⟨brokerId, h.entry _ _ he, he⟩
  · exact h.held a ha

private theorem grows_append (r : Registry) (broker : Broker RoundRobinPartitioner) (building : List Nat) :
    r.Grows { r with brokers := r.brokers ++ [broker], building } := by
  intro a brokerId ha
  obtain ⟨b, hb, hid⟩ := Option.map_eq_some_iff.1 ha
  have hlt : a < r.brokers.length := (List.getElem?_eq_some_iff.1 hb).1
  exact Option.map_eq_some_iff.2 ⟨b, by rw [List.getElem?_append_left hlt, hb], hid⟩

/-- The registered broker is dead, so no client holds a broker of the id: the new one may be registered. -/
private theorem Consistent.insert {r : Registry} (h : r.Consistent) {brokerId : String} {broker : Nat}
    (hdead : r.upgrade brokerId = none) (hid : r.idOf? broker = some brokerId) (building : List Nat) :
    Consistent { r with entries := r.entries.insert brokerId broker, building, held := broker :: r.held } := by
  have hnone : ∀ a ∈ r.held, r.idOf? a ≠ some brokerId := by
    intro a ha haid
    obtain ⟨brokerId', haid', he⟩ := h.held a ha
    obtain rfl : brokerId' = brokerId := Option.some.inj (haid'.symm.trans haid)
    have hup := upgrade_eq_some.2 ⟨he, live_iff.2 (Or.inl ha)⟩
    rw [hdead] at hup
    cases hup
  refine ⟨fun id a he => ?_, fun a ha => ?_⟩
  · by_cases hne : id = brokerId
    · subst hne
      obtain rfl : broker = a := by simpa using he
      exact hid
    · exact h.entry id a (by simpa [AList.lookup_insert_ne hne] using he)
  · rcases List.mem_cons.1 ha with rfl | hold
    · exact ⟨brokerId, hid, AList.lookup_insert _⟩
    · obtain ⟨id, haid, he⟩ := h.held a hold
      have hne : id ≠ brokerId := by
        rintro rfl
        exact hnone a hold haid
      exact ⟨id, haid, by rw [AList.lookup_insert_ne hne]; exact he⟩

/-- One step of a call; an insertion only over a dead entry. -/
private theorem rest_step {r : Registry} (h : r.Consistent) {call : RegistryCall} {f : Registry → Registry}
    {k : Registry → RegistryM Nat} (hrest : r.Rest call (.atomic f k))
    (hins : ∀ brokerId broker, Act.atomic f k = insert brokerId broker → r.upgrade brokerId = none) :
    (f r).Consistent ∧ r.Grows (f r) ∧ (f r).Rest call (k r) := by
  generalize hx : Act.atomic f k = x at hrest
  cases hrest with
  | @lookup config brokerId hget =>
    cases hx
    cases hup : r.upgrade brokerId with
    | none =>
      simp only [hup]
      exact ⟨h, .refl r, .create hget⟩
    | some strong =>
      have he := (upgrade_eq_some.1 hup).1
      simp only [hup]
      refine ⟨h.hold he, .refl r, .ended fun config' broker hc ho => ?_⟩
      cases hc
      cases ho
      exact ⟨brokerId, hget, h.entry _ _ he⟩
  | @create config brokerId hget =>
    cases hx
    cases hnew : Broker.new config with
    | error e =>
      exact ⟨h, .refl r, .ended (by rintro _ _ _ ⟨⟩)⟩
    | ok broker =>
      have hid := BrokerConfig.get_brokerId (Broker.config_of_new hnew)
      rw [hget] at hid
      have hg := grows_append r broker (r.brokers.length :: r.building)
      refine ⟨⟨fun id a he => hg _ _ (h.entry id a he), fun a ha => ?_⟩, hg, .insert hget ?_⟩
      · obtain ⟨id, haid, he⟩ := h.held a ha
        exact ⟨id, hg _ _ haid, he⟩
      · show (r.brokers ++ [broker])[r.brokers.length]?.map _ = _
        rw [List.getElem?_concat_length]
        exact hid.symm
  -- the entry that is overwritten is dead, so that no held broker loses its place
  | @insert config brokerId broker hget hid =>
    have hdead := hins brokerId broker hx
    cases hx
    refine ⟨h.insert hdead hid _, .refl r, .ended fun config' a hc ho => ?_⟩
    cases hc
    cases ho
    exact ⟨brokerId, hget, hid⟩
  | clone broker =>
    cases hx
    by_cases hb : broker ∈ r.held
    · obtain ⟨brokerId, -, he⟩ := h.held broker hb
      simp only [hb, if_true]
      exact ⟨h.hold he, .refl r, .ended (by rintro _ _ ⟨⟩)⟩
    · simp only [hb, if_false]
      exact ⟨h, .refl r, .ended (by rintro _ _ ⟨⟩)⟩
  | drop broker =>
    cases hx
    by_cases hb : broker ∈ r.held
    · simp only [hb, if_true]
      exact ⟨⟨h.entry, fun a ha => h.held a (List.mem_of_mem_erase ha)⟩, .refl r, .ended (by rintro _ _ ⟨⟩)⟩
    · simp only [hb, if_false]
      exact ⟨h, .refl r, .ended (by rintro _ _ ⟨⟩)⟩
  | ended h => cases hx

variable {ι : Type} [DecidableEq ι]

/-- What holds in every state of a run. -/
structure Sane (w : Run ι) : Prop where
  consistent : w.shared.Consistent
  running : ∀ i call x, w.running i = some (call, x) → w.shared.Rest call x
  history : ∀ i config broker, (i, .getOrCreate config, .ok broker) ∈ w.history → w.shared.Names config broker

/-- A thread reaches the state `r` with `x` left. -/
private theorem sane_resume {w : Run ι} (hw : Sane w) {i : ι} {call : RegistryCall} {r : Registry} {x : RegistryM Nat}
    (hr : r.Consistent) (hg : w.shared.Grows r) (hx : r.Rest call x) : Sane (w.resume i call r x) := by
  have hother : ∀ j d y, j ≠ i → (w.resume i call r x).running j = some (d, y) → r.Rest d y := by
    intro j d y hj hy
    refine (hw.running j d y ?_).grows hg
    cases x <;> simpa [System.resume, hj] using hy
  cases x with
  | ret o =>
    refine ⟨hr, fun j d y hy => ?_, fun j config broker h => ?_⟩
    · by_cases hj : j = i
      · subst hj
        simp [System.resume] at hy
      · exact hother j d y hj hy
    · rcases List.mem_append.1 h with h | h
      · exact (hw.history j config broker h).grows hg
      · obtain ⟨rfl, rfl, rfl⟩ : j = i ∧ .getOrCreate config = call ∧ .ok broker = o := by simpa using h
        cases hx with
        | ended hend => exact hend config broker rfl rfl
  | atomic f k =>
    refine ⟨hr, fun j d y hy => ?_, fun j config broker h => (hw.history j config broker h).grows hg⟩
    by_cases hj : j = i
    · subst hj
      obtain ⟨rfl, rfl⟩ : call = d ∧ Act.atomic f k = y := by simpa [System.resume] using hy
      exact hx
    · exact hother j d y hj hy

/-- The invariant along a run. -/
theorem sane_exec {sched : List (Choice ι RegistryCall)} (hsched : InsertsOverDead sched) :
    Sane (System.exec RegistryCall.body (.init .init) sched) := by
  refine System.exec_stepwise (P := Sane) ⟨.init, by simp [System.init], by simp [System.init]⟩ ?_
  intro initial x rest hs hw
  rcases System.next_cases RegistryCall.body (System.exec RegistryCall.body (.init .init) initial) x with
    h | ⟨i, call, -, -, h⟩ | ⟨i, call, f, k, rfl, hrun, h⟩
  · rwa [h]
  · rw [h]
    exact sane_resume hw hw.consistent (.refl _) (rest_body _ call)
  · rw [h]
    obtain ⟨hc, hg, hrest⟩ := rest_step hw.consistent (hw.running i _ _ hrun) fun brokerId broker hx =>
      hsched initial rest i hs brokerId ⟨call, broker, hx ▸ hrun⟩
    exact sane_resume hw hc hg hrest

end Registry

open Registry

/-- As long as no insertion of the run meets an entry whose broker is alive, two calls with the same id have returned
the same broker when both brokers are alive; it is a broker of this id. -/
theorem one_live_broker {ι : Type} [DecidableEq ι] {sched : List (Choice ι RegistryCall)}
    (hsched : InsertsOverDead sched) {w : Run ι} (hw : w = System.exec RegistryCall.body (.init .init) sched)
    {i j : ι} {c₁ c₂ : RmqClientConfig} {a b : Nat} (h₁ : (i, .getOrCreate c₁, .ok a) ∈ w.history)
    (h₂ : (j, .getOrCreate c₂, .ok b) ∈ w.history)
    (hid : c₁.get ConfigKeys.brokerId = c₂.get ConfigKeys.brokerId) (ha : a ∈ w.shared.held) (hb : b ∈ w.shared.held) :
    a = b ∧ ∃ broker, w.shared.brokers[a]? = some broker ∧
      c₁.get ConfigKeys.brokerId = some broker.config.brokerId := by
  have hsane : Sane w := hw ▸ sane_exec hsched
  obtain ⟨id₁, hget₁, hn₁⟩ := hsane.history i c₁ a h₁
  obtain ⟨id₂, hget₂, hn₂⟩ := hsane.history j c₂ b h₂
  obtain rfl : id₁ = id₂ := Option.some.inj (hget₁.symm.trans (hid.trans hget₂))
  -- both are registered under the id
  have hreg : ∀ x ∈ w.shared.held, w.shared.idOf? x = some id₁ → w.shared.entries.lookup id₁ = some x := by
    intro x hx hxid
    obtain ⟨id, hxid', he⟩ := hsane.consistent.held x hx
    obtain rfl : id = id₁ := Option.some.inj (hxid'.symm.trans hxid)
    exact he
  obtain ⟨broker, hbroker, hbid⟩ := Option.map_eq_some_iff.1 hn₁
  refine ⟨Option.some.inj ((hreg a ha hn₁).symm.trans (hreg b hb hn₂)), broker, hbroker, ?_⟩
  rw [hget₁, hbid]

/-- The configuration of the examples. -/
def brokerB : RmqClientConfig := RmqClientConfig.new.set ConfigKeys.brokerId "b"

/-- Two calls, one after the other. -/
def oneAfterOther : List (Choice Nat RegistryCall) :=
  [.call 0 (.getOrCreate brokerB), .step 0, .step 0, .step 0, .call 1 (.getOrCreate brokerB), .step 1]

/-- Two calls that both look the id up before either inserts. -/
def bothLookUp : List (Choice Nat RegistryCall) :=
  [.call 0 (.getOrCreate brokerB), .call 1 (.getOrCreate brokerB), .step 0, .step 1, .step 0, .step 0, .step 1, .step 1]

private theorem lookup_ne_insert (config : RmqClientConfig) (brokerId brokerId' : String) (broker : Nat) :
    lookup brokerId >>= onLookup config brokerId ≠ insert brokerId' broker := by
  intro h
  have hf := congrFun (Act.atomic.inj h).1 .init
  have he : (∅ : AList fun _ : String => Nat).lookup brokerId' = some broker := by
    have := congrArg (fun r : Registry => r.entries.lookup brokerId') hf
    exact this.trans (AList.lookup_insert _)
  simp at he

private theorem insertsOverDead_oneAfterOther : InsertsOverDead oneAfterOther := by
  intro initial rest i hs brokerId hins
  obtain ⟨n, hlt, rfl, hget⟩ := split_place hs
  rcases n with _ | _ | _ | _ | _ | _ | n
  · cases hget
  · rfl
  · rfl
  · rfl
  · cases hget
  · obtain ⟨call, broker, hrun⟩ := hins
    obtain rfl : 1 = i := by injection hget with hget; injection hget
    injection hrun with hrun
    injection hrun with _ hrun
    exact absurd hrun (lookup_ne_insert brokerB "b" brokerId broker)
  · exact absurd hlt (by simp [oneAfterOther])

/-- The second call finds the broker of the first. -/
theorem one_live_broker_two :
    let w : Run Nat := System.exec RegistryCall.body (.init .init) oneAfterOther
    (0, .getOrCreate brokerB, .ok 0) ∈ w.history ∧ (1, .getOrCreate brokerB, .ok 0) ∈ w.history ∧
    ∃ broker, w.shared.brokers[0]? = some broker ∧ brokerB.get ConfigKeys.brokerId = some broker.config.brokerId := by
  have h₁ : (0, .getOrCreate brokerB, .ok 0) ∈
      (System.exec RegistryCall.body (.init .init) oneAfterOther : Run Nat).history := List.mem_of_getElem? (i := 0) rfl
  have h₂ : (1, .getOrCreate brokerB, .ok 0) ∈
      (System.exec RegistryCall.body (.init .init) oneAfterOther : Run Nat).history := List.mem_of_getElem? (i := 1) rfl
  exact ⟨h₁, h₂, (one_live_broker insertsOverDead_oneAfterOther rfl h₁ h₂ rfl (by decide +kernel) (by decide +kernel)).2⟩

/-- Two clients hold different live brokers with one id. -/
theorem one_live_broker_split :
    let w : Run Nat := System.exec RegistryCall.body (.init .init) bothLookUp
    (0, .getOrCreate brokerB, .ok 0) ∈ w.history ∧ (1, .getOrCreate brokerB, .ok 1) ∈ w.history ∧
    0 ∈ w.shared.held ∧ 1 ∈ w.shared.held := by
  refine ⟨List.mem_of_getElem? (i := 0) rfl, List.mem_of_getElem? (i := 1) rfl, by decide +kernel, by decide +kernel⟩

end RMemQueue
