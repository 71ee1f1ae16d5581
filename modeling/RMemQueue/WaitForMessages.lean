import RMemQueue.BrokerRun

/-!
# Waiting on partitions (`broker_backend.rs`)

`wait_for_messages` waits on the partitions of the topics, one after the other, until a wait is woken or the time is up.
The clock and the waits are not in its hands: a call is given how they behave.

* `waits_for_messages_iff`: the result says whether a wait was woken, unless there is exactly one partition to wait on;
  `PartitionNotify::wait` returns whether it has timed out, and the call hands that on as it is.
-/

namespace RMemQueue

open Conc

/-- The readings of the clock in the order in which a call takes them, the last instant that there is, and how its waits
end: the `i`-th one has timed out, or it was woken. -/
structure WaitEnv where
  now : Nat → Nat
  lastInstant : Nat
  timedOut : Nat → Bool

namespace InMemoryBackend

/-- The loop of `wait_for_messages` from its `i`-th round on: its result, and the waits that it makes with what
`PartitionNotify::wait` returns. -/
def waitEach (env : WaitEnv) (deadline : Nat) : Nat → List NotifyRef → Bool × List (NotifyRef × Bool)
  | _, [] => (false, [])
  | i, notify :: notifies =>
    let remaining := deadline - env.now (i + 1)
    if remaining = 0 then (false, [])
    else
      let timedOut := env.timedOut i
      if !timedOut then (true, [(notify, timedOut)])
      else
        let (result, waits) := waitEach env deadline (i + 1) notifies
        (result, (notify, timedOut) :: waits)

/-- Times are in nanoseconds; a deadline that is not an instant is a panic. -/
def waitForMessages (b : InMemoryBackend) (topics : List String) (timeout : Nat) (env : WaitEnv) :
    Outcome RmqError Bool × List (NotifyRef × Bool) :=
  match ((getPartitionNotifies topics).run b).1 with
  | .ok [] => (.ok false, [])
  | .ok [notify] => (.ok (env.timedOut 0), [(notify, env.timedOut 0)])
  | .ok notifies =>
    let deadline := env.now 0 + timeout
    if env.lastInstant < deadline then (.panic, [])
    else
      let (result, waits) := waitEach env deadline 0 notifies
      (.ok result, waits)
  | .err e => (.err e, [])
  | .panic => (.panic, [])

/-- The number of partitions of the topics. -/
def partitionTotal (b : InMemoryBackend) (topics : List String) : Nat :=
  (topics.flatMap fun name => (b.topic? name).elim [] (·.partitions)).length

variable {b : InMemoryBackend}

/-- There is a handle for each partition. -/
private theorem run_getPartitionNotifies (b : InMemoryBackend) (topics : List String) :
    ∃ notifies, ((getPartitionNotifies topics).run b).1 = .ok notifies ∧ notifies.length = b.partitionTotal topics := by
  refine ⟨_, rfl, ?_⟩
  rw [List.length_flatMap, partitionTotal, List.length_flatMap]
  refine congrArg List.sum (List.map_congr_left fun name _ => ?_)
  cases hl : b.topics.lookup name with
  | none => simp [topic?, hl]
  | some a =>
    cases ht : b.heap[a]? with
    | none => simp [topic?, hl, ht]
    | some t =>
      have hall : ∀ i ∈ List.range t.partitionCount.toNat, (t.partition? i).isSome = true := by
        intro i hi
        have hlt := List.mem_range.1 hi
        rw [t.isSome_partition?]
        omega
      simp only [topic?, hl, ht, Option.bind_some, Option.elim_some]
      rw [List.length_map, List.filter_eq_self.2 hall, List.length_range, t.length_eq]

/-- The loop reports a wait that was woken. -/
private theorem waitEach_iff (env : WaitEnv) (deadline : Nat) (i : Nat) (notifies : List NotifyRef) :
    (waitEach env deadline i notifies).1 = true ↔ ∃ w ∈ (waitEach env deadline i notifies).2, w.2 = false := by
  induction notifies generalizing i with
  | nil => simp [waitEach]
  | cons notify notifies ih =>
    rw [waitEach]
    by_cases hzero : deadline - env.now (i + 1) = 0
    · simp [hzero]
    · cases ht : env.timedOut i with
      | false => simp [hzero]
      | true => simp [hzero, ih]

end InMemoryBackend

open InMemoryBackend

/-- **One partition is different.**  Whatever the clock does and the waits end with, `Ok(true)` means that a wait was
woken if and only if the topics have no partition or several. -/
theorem waits_for_messages_iff (b : InMemoryBackend) (topics : List String) (timeout : Nat) (env : WaitEnv) :
    ((b.waitForMessages topics timeout env).1 = .ok true ↔
        ∃ w ∈ (b.waitForMessages topics timeout env).2, w.2 = false) ↔
      b.partitionTotal topics ≠ 1 := by
  obtain ⟨notifies, hrun, hlen⟩ := run_getPartitionNotifies b topics
  rw [waitForMessages, hrun, ← hlen]
  match notifies with
  | [] => simp
  | [notify] => cases env.timedOut 0 <;> simp
  | notify :: notify' :: rest =>
    have hloop := waitEach_iff env (env.now 0 + timeout) 0 (notify :: notify' :: rest)
    refine iff_of_true ?_ (by simp)
    dsimp only
    split
    · simp
    · rw [Outcome.ok.injEq]
      exact hloop

/-- With one partition a wait that has timed out is reported as `Ok(true)`, and one that was woken as `Ok(false)`. -/
theorem waits_for_messages_inverted : ∃ b : Broker RoundRobinPartitioner,
    Broker.new (RmqClientConfig.new.set ConfigKeys.brokerId "b") = .ok b ∧
    let backend := ((Broker.ensureTopic "t" 1).run b).2.backend
    backend.waitForMessages ["t"] 10 ⟨fun _ => 0, 100, fun _ => true⟩ = (.ok true, [((0, 0), true)]) ∧
      backend.waitForMessages ["t"] 10 ⟨fun _ => 0, 100, fun _ => false⟩ = (.ok false, [((0, 0), false)]) := by
  refine ⟨_, rfl, ?_⟩
  intro backend
  constructor
  · decide +kernel
  · decide +kernel

end RMemQueue
