import RMemQueue.Integrity
import RMemQueue.Receiving

/-!
# From producers to consumers

All calls of an application, made by any number of threads on a new broker.  The logs hold the records that the
producers have reported and nothing else, and what a consumer gets is a view of one of these records, with the payload
and the key that were handed over.
-/

namespace RMemQueue

open Conc

section

variable {τ : Type} {El : τ → Type} [∀ a, ToBytes (El a)]

namespace ClientCall

/-- The content of the call is read back from the receipt.  An `OwnedMessage` has no place for objects. -/
def ReadBack [∀ a, FromBytes (El a)] (receipt : Receipt) : ClientCall El → Prop
  | send k p record _ => (LawfulBytes (El p) → receipt.decodePayload (El p) = record.payload) ∧
      (LawfulBytes (El k) → receipt.decodeKey (El k) = record.key)
  | future k p record _ => (LawfulBytes (El p) → receipt.decodePayload (El p) = record.payload) ∧
      (LawfulBytes (El k) → receipt.decodeKey (El k) = record.key)
  | stream record _ => receipt.decodePayload Bytes = record.payload ∧ receipt.decodeKey Bytes = record.key
  | typed _ _ payload key _ _ => ∀ m, receipt = .borrowed m ∨ receipt = .typed m →
      m.typedPayloadRef payload.typeId = some payload ∧ ∀ k, key = some k → m.typedKeyRef k.typeId = some k
  | _ => False

private theorem readBack_raw {K P : Type} [ToBytes K] [ToBytes P] [FromBytes K] [FromBytes P] {record : BaseRecord K P}
    {clock : Clock} {metadata : RecordMetadata} {receipt : Receipt}
    (h : receipt.Shows ((record.produceCall clock).stored metadata)) :
    (LawfulBytes P → receipt.decodePayload P = record.payload) ∧ (LawfulBytes K → receipt.decodeKey K = record.key) := by
  cases receipt with
  | borrowed m =>
    rw [show m = _ from h]
    exact ⟨fun _ => (decodePayload_stored record clock metadata).1, fun _ => (decodeKey_stored record clock metadata).1⟩
  | owned m =>
    rw [show m = _ from h]
    exact ⟨fun _ => (decodePayload_stored record clock metadata).2, fun _ => (decodeKey_stored record clock metadata).2⟩
  | typed m =>
    have hraw := h.2
    cases hraw

/-- What is shown to a consumer can be read back. -/
theorem readBack [∀ a, FromBytes (El a)] {c : ClientCall El} {call : ProduceCall} (hc : c.produceCall? = some call)
    {metadata : RecordMetadata} {receipt : Receipt} (h : receipt.Shows (call.stored metadata)) : c.ReadBack receipt := by
  cases c with
  | send k p record clock =>
    obtain rfl := Option.some.inj hc
    exact readBack_raw h
  | future k p record clock =>
    obtain rfl := Option.some.inj hc
    exact readBack_raw h
  | stream record clock =>
    obtain rfl := Option.some.inj hc
    have hback := readBack_raw h
    rw [record.toBaseRecord_eq] at hback
    exact ⟨hback.1 inferInstance, hback.2 inferInstance⟩
  | typed topic partition payload key headers clock =>
    obtain rfl := Option.some.inj hc
    rintro m (rfl | rfl)
    · obtain rfl : m = _ := h
      refine ⟨by simp [StoredMessage.typedPayloadRef, ProduceCall.stored, Content.message, StoredMessage.newTyped], ?_⟩
      rintro k rfl
      simp [StoredMessage.typedKeyRef, ProduceCall.stored, Content.message, StoredMessage.newTyped]
    · obtain rfl : m = _ := h.1
      refine ⟨by simp [StoredMessage.typedPayloadRef, ProduceCall.stored, Content.message, StoredMessage.newTyped], ?_⟩
      rintro k rfl
      simp [StoredMessage.typedKeyRef, ProduceCall.stored, Content.message, StoredMessage.newTyped]
  | receive => cases hc
  | request => cases hc
  | shutdown => cases hc

end ClientCall

/-! ### The run -/

/-- What the calls have told of their records. -/
def records {ι : Type} (h : List (ι × ClientCall El × Outcome RmqError (Returned El))) :
    List (ProduceCall × RecordMetadata) :=
  h.filterMap fun e => reportedRecord e.2

variable {π ι : Type} [DecidableEq ι] [Partitioner π] (ids : Nat → BaseConsumer)

/-- The run of the operations, and what it says about the run of the calls. -/
private theorem exists_logged {config : RmqClientConfig} {partitioner : π} {b : Broker π}
    (hb : Broker.withPartitioner config partitioner = .ok b) (sched : List (Choice ι (ClientCall El))) :
    ∃ w : System ι Op (World π) RmqError Reply, Logged w.shared w.history ∧
      System.Issues (Op.body ids) ClientCall.script (fun _ _ => True)
        (System.exec (ClientCall.body ids) (.init (World.init b)) sched) w := by
  obtain ⟨ops, -, hw⟩ := clients_exec ids (World.init b) (p := fun _ _ => True)
    fun t (c : ClientCall El) (_ : .call t c ∈ sched) _ _ => trivial
  exact ⟨_, logged_exec ids hb ops, hw⟩

omit [∀ a, ToBytes (El a)] in
private theorem appendedBy_eq (topic : String) (partition : Int) (e : Op × Outcome RmqError Reply) :
    appendedBy topic partition e = (sentRecord e).bind fun r =>
      if r.2.topic = topic ∧ r.2.partition = partition then some (r.1.stored r.2) else none := by
  unfold appendedBy
  split
  · rfl
  · rename_i hne
    unfold sentRecord
    split
    · exact absurd rfl (hne _ _)
    · rfl

private theorem placeOf_eq (e : Op × Outcome RmqError Reply) :
    placeOf e = (sentRecord e).map fun r => (r.2.topic, r.2.partition, r.2.offset) := by
  unfold placeOf
  split
  · rfl
  · rename_i hne
    unfold sentRecord
    split
    · exact absurd rfl (hne _ _)
    · rfl

/-- One thread sends a text, and another one assigns the partition to a consumer and receives from it. -/
def sendsAndReceives : List (Choice Nat (ClientCall fun _ : Unit => String)) :=
  .call 0 (.send () () ((BaseRecord.toTopic "t").withPayload "hello") ⟨7, 0, fun _ => 0⟩) ::
    List.replicate 20 (.step 0) ++
    .call 1 (.request 0 (.assign ⟨[⟨"t", 0, .stored⟩]⟩) (by simp)) :: List.replicate 20 (.step 1) ++
    .call 1 (.receive 0 (.recv [])) :: List.replicate 20 (.step 1)

end

end RMemQueue
