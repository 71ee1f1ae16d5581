import RMemQueue.GroupCoverage
import RMemQueue.GroupState
import RMemQueue.Receiving

/-!
# A group receives each message once

The members of a group hold the assignments that the broker has for them, and receive through any of the calls that
wait, each member in its own thread; they also pause, resume, commit and ask.  Other threads produce and use other
consumers.  No message is received twice: not by two members, since in every broker that is reached their assignments
have no partition in common, and not by one, since its positions only go back over evicted messages.
-/

namespace RMemQueue

open Conc

section

variable {τ : Type} {El : τ → Type}

/-- The call leaves the assignment of its consumer, and moves the positions only to receive. -/
def ClientCall.Draws : ClientCall El → Prop
  | receive _ _ => True
  | request _ r _ => ¬r.Assigns ∧ ∀ key, ¬r.Moves key
  | _ => False

/-- The partition and the offset of what a call on one of the consumers has returned. -/
def taken {ι : Type} (members : Finset Nat) :
    ι × ClientCall El × Outcome RmqError (Returned El) → Option ((String × Int) × Int)
  | (_, .receive i _, .ok (.received (some receipt))) =>
    if i ∈ members then some (receipt.place, receipt.offset) else none
  | _ => none

private theorem taken_eq_some {ι : Type} {members : Finset Nat}
    {e : ι × ClientCall El × Outcome RmqError (Returned El)} {x : (String × Int) × Int}
    (h : taken members e = some x) : ∃ t i r receipt, e = (t, .receive i r, .ok (.received (some receipt))) ∧
      i ∈ members ∧ x = (receipt.place, receipt.offset) := by
  unfold taken at h
  split at h
  · rename_i t i r receipt
    split at h
    · rename_i hi
      exact ⟨t, i, r, receipt, rfl, hi, (Option.some.inj h).symm⟩
    · cases h
  · cases h

variable [∀ a, ToBytes (El a)] {π ι : Type} [DecidableEq ι] [Partitioner π] (ids : Nat → BaseConsumer)

private theorem ClientCall.Draws.makes {c : ClientCall El} (hc : c.Draws) {i : Nat} (hi : c.actor = some i) {op : Op}
    (hop : c.Makes op) : op = .consumer i .pollOnce ∨ op.LeavesAlone i := by
  cases c with
  | receive j r =>
    obtain rfl : j = i := Option.some.inj hi
    exact Or.inl hop
  | request j r hr =>
    obtain rfl : op = .consumer j r := hop
    refine Or.inr fun request hrequest => ?_
    obtain ⟨-, rfl⟩ := Op.consumer.inj hrequest
    exact hc
  | _ => exact hc.elim

/-- Consumers whose assignments have no partition in common receive nothing twice. -/
theorem nodup_taken (members : Finset Nat) (thread : Nat → ι) {w₀ : World π}
    (hdisjoint : ∀ i ∈ members, ∀ j ∈ members, i ≠ j → ∀ key ∈ (w₀.consumers i).assignedPartitions.keys,
      key ∉ (w₀.consumers j).assignedPartitions.keys)
    {sched : List (Choice ι (ClientCall El))}
    (hs : ∀ t c i, .call t c ∈ sched → c.actor = some i → i ∈ members → t = thread i ∧ c.Draws) :
    ((System.exec (ClientCall.body ids) (.init w₀) sched).history.filterMap (taken members)).Nodup ∧
    ∀ t i r receipt, (t, .receive i r, .ok (.received (some receipt))) ∈
      (System.exec (ClientCall.body ids) (.init w₀) sched).history → i ∈ members →
      receipt.place ∈ (w₀.consumers i).assignedPartitions.keys := by
  have hmakes : ∀ t c, .call t c ∈ sched → ∀ op, c.Makes op → ∀ i ∈ members, op.actor = some i →
      t = thread i ∧ (op = .consumer i .pollOnce ∨ op.LeavesAlone i) := by
    intro t c hc op hop i hi hactor
    obtain ⟨ht, hdraws⟩ := hs t c i hc (hop.actor ▸ hactor) hi
    exact ⟨ht, hdraws.makes (hop.actor ▸ hactor) hop⟩
  obtain ⟨ops, hops, hw⟩ := clients_exec ids w₀ hmakes
  have hthread : ∀ t i r o, (t, .receive i r, o) ∈ (System.exec (ClientCall.body ids) (.init w₀) sched).history →
      i ∈ members → t = thread i := by
    intro t i r o he hi
    have hcalled : ∀ t c, .call t c ∈ sched → ∀ i, c.actor = some i → i ∈ members → t = thread i :=
      fun t c hc i hci hi => (hs t c i hc hci hi).1
    exact System.mem_history_exec hcalled he i rfl hi
  generalize System.exec (ClientCall.body ids) (.init w₀) sched = v at hw hthread
  -- each member by itself
  have hmember : ∀ i ∈ members,
      ((receiptsOf i (own (thread i) v.history)).Pairwise fun r r' => r.place = r'.place → r.offset < r'.offset) ∧
      ∀ receipt ∈ receiptsOf i (own (thread i) v.history),
        receipt.place ∈ (w₀.consumers i).assignedPartitions.keys := by
    intro i hi
    have hself : ∀ op, .call (thread i) op ∈ ops → op = .consumer i .pollOnce ∨ op.LeavesAlone i := by
      intro op hop
      by_cases hactor : op.actor = some i
      · exact (hops _ op hop i hi hactor).2
      · refine Or.inr fun request hrequest => absurd ?_ hactor
        rw [hrequest]
        rfl
    have hother : ∀ t op, .call t op ∈ ops → t ≠ thread i → op.actor ≠ some i :=
      fun t op hop ht hactor => ht (hops t op hop i hi hactor).1
    have hdrawn : Drawn i (w₀.consumers i).assignedPartitions _ _ := drawn_exec ids (thread i) hself hother
    obtain ⟨drawn, hd⟩ := hands_issues i hw (thread i)
    refine ⟨hd.increasing hdrawn.increasing, fun receipt hr => ?_⟩
    obtain ⟨m, hm, hshows⟩ := hd.mem hr
    rw [hshows.place]
    exact hdrawn.owned m hm
  have howned : ∀ t i r receipt, (t, .receive i r, .ok (.received (some receipt))) ∈ v.history → i ∈ members →
      receipt.place ∈ (w₀.consumers i).assignedPartitions.keys := by
    intro t i r receipt he hi
    obtain rfl := hthread t i r _ he hi
    exact (hmember i hi).2 receipt (List.mem_filterMap.2 ⟨_, System.mem_own.2 he, if_pos rfl⟩)
  refine ⟨?_, howned⟩
  rw [List.nodup_iff_pairwise_ne, List.pairwise_filterMap, List.pairwise_iff_forall_sublist]
  intro e e' hsub x hx y hy hxy
  obtain ⟨t, i, r, receipt, rfl, hi, rfl⟩ := taken_eq_some hx
  obtain ⟨t', j, r', receipt', rfl, hj, rfl⟩ := taken_eq_some hy
  obtain ⟨hplace, hoffset⟩ := Prod.mk.inj hxy
  have he := hsub.subset (List.mem_cons_self ..)
  have he' := hsub.subset (List.mem_cons_of_mem _ (List.mem_singleton.2 rfl))
  by_cases hij : i = j
  · subst hij
    obtain rfl := hthread t i r _ he hi
    obtain rfl := hthread t' i r' _ he' hj
    have hpair : [receipt, receipt'].Sublist (receiptsOf i (own (thread i) v.history)) := by
      have hown : List.Sublist _ (receiptsOf i (own (thread i) v.history)) :=
        (hsub.filterMap fun e => if e.1 = thread i then some e.2 else none).filterMap (receiptOf i)
      simpa [receiptOf] using hown
    have hlt := List.pairwise_iff_forall_sublist.1 (hmember i hi).1 hpair hplace
    omega
  · refine hdisjoint i hi j hj hij receipt.place (howned t i r receipt he hi) ?_
    rw [hplace]
    exact howned t' j r' receipt' he' hj

end

/-! ### The groups of a broker that is reached -/

section

variable {π : Type}

def Broker.Consistent (b : Broker π) : Prop := ∀ gid g, b.consumerGroups.lookup gid = some g → g.Consistent

private theorem Broker.Consistent.insert {b : Broker π} (h : b.Consistent) (gid : String) {g : ConsumerGroup}
    (hg : g.Consistent) : Broker.Consistent { b with consumerGroups := b.consumerGroups.insert gid g } := by
  intro gid' g' hlookup
  change (b.consumerGroups.insert gid g).lookup gid' = some g' at hlookup
  rcases WriteLog.lookup_insert_cases hlookup with ⟨-, rfl⟩ | ⟨-, hold⟩
  · exact hg
  · exact h gid' g' hold

/-- Steps of the backend. -/
private theorem always_sameGroups {α : Type} (x : BackendM α) :
    (Broker.onBackend x : BrokerM π α).Always fun b b' => b.Consistent → b'.Consistent := by
  have hany : x.Always fun _ _ => True := by
    induction x with
    | ret o => trivial
    | atomic f k ih => exact fun s => ⟨trivial, ih s⟩
  exact Act.Always.zoom hany fun _ _ _ => id

private theorem groupSteps_consistent :
    Broker.GroupSteps fun b b' : Broker π => b.Consistent → b'.Consistent where
  refl _ := id
  ensureTopic _ _ := always_sameGroups _
  create _ gid h := h.insert gid (ConsumerGroup.consistent_new gid)
  join _ gid g order memberId topics counts _ h := h.insert gid (.join g order memberId topics counts)
  leave _ gid g order memberId counts hg h := h.insert gid ((h gid g hg).leave order memberId counts)

variable [Partitioner π] (ids : Nat → BaseConsumer)

private theorem Op.always_consistent (op : Op) : (op.body ids : Act (World π) RmqError Reply).Always
    fun w w' => w.broker.Consistent → w'.broker.Consistent := by
  have hread : ∀ {α : Type} (g : Broker π → Outcome RmqError α),
      (Act.read g : BrokerM π α).Always fun b b' => b.Consistent → b'.Consistent := Act.always_read fun _ => id
  cases op with
  | send call =>
    have hbody : (call.body : BrokerM π RecordMetadata).Always fun b b' => b.Consistent → b'.Consistent := by
      refine (hread _).bind fun _ => (hread _).bind fun config => (always_sameGroups _).bind fun _ => ?_
      refine (always_sameGroups _).bind fun metadata => Act.Always.bind ?_ fun p => ?_
      · cases call.partition with
        | some p => trivial
        | none => exact Act.always_step fun _ => id
      · exact (always_sameGroups _).bind fun _ => trivial
    exact Act.Always.zoom (always_reply hbody _) fun _ _ h => h
  | consumer i request =>
    have hany : request.Updates fun _ _ => True := by
      constructor <;> intros <;> trivial
    refine Act.Always.zoom (request.always_stepOf (ids i) groupSteps_consistent.covers (fun _ => ?_) hany)
      fun _ _ h => h.1
    intro gid topic partition offset
    exact (hread _).bind fun _ => (hread _).bind fun _ => Act.always_modify fun _ => id
  | shutdown =>
    have hbody : (Broker.shutdownBroker : BrokerM π Unit).Always fun b b' => b.Consistent → b'.Consistent :=
      (Act.always_modify fun _ => id).bind fun _ => always_sameGroups _
    exact Act.Always.zoom (always_reply hbody _) fun _ _ h => h

variable {ι : Type} [DecidableEq ι]

/-- The run lemma. -/
private theorem consistent_exec {config : RmqClientConfig} {partitioner : π} {b : Broker π}
    (hb : Broker.withPartitioner config partitioner = .ok b) (sched : List (Choice ι Op)) :
    (System.exec (Op.body ids) (.init (World.init b)) sched).shared.broker.Consistent := by
  refine System.exec_related (R := fun w w' : World π => w.broker.Consistent → w'.broker.Consistent) (fun _ => id)
    (fun _ _ _ h h' => h' ∘ h) (fun _ _ => True) (Op.always_consistent ids) (fun _ _ _ _ _ h => h)
    (System.carries_init _) (fun _ _ _ _ => trivial) (fun _ _ _ => trivial) ?_
  obtain ⟨c, -, rfl⟩ := Broker.withPartitioner_eq_ok.1 hb
  intro gid g h
  cases h

end

/-- Two members subscribe to a topic with two partitions, and the first one once more. -/
def joinsOfTwo : List (Choice Nat (ClientCall fun _ : Unit => Bytes)) :=
  [0, 1, 0].flatMap fun i => .call i (.request i (.subscribe default ["t"]) (by simp)) :: List.replicate 20 (.step i)

/-- A record for a partition of the topic. -/
def sendTo (p : Int) : ClientCall fun _ : Unit => Bytes :=
  .send () () ((BaseRecord.toTopic "t").withPartition p) ⟨7, 0, fun _ => 0⟩

/-- Each partition gets a message, and both members receive at the same time. -/
def receivesOfTwo : List (Choice Nat (ClientCall fun _ : Unit => Bytes)) :=
  [.call 2 (sendTo 0)] ++ List.replicate 20 (.step 2) ++ [.call 2 (sendTo 1)] ++ List.replicate 20 (.step 2) ++
    [.call 0 (.receive 0 (.recv [])), .call 1 (.receive 1 (.recv []))] ++
    (List.replicate 20 [.step 0, .step 1]).flatten

end RMemQueue
