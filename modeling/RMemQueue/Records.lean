import RMemQueue.LogContract

/-!
# Records and messages (`record.rs`, `message.rs`, `stream_producer.rs`, `typed.rs`)

What producers hand over and what consumers get: keys and payloads of any types that can be written as bytes, and the
views of a stored message.
-/

namespace RMemQueue

/-! ### Bytes -/

class ToBytes (α : Type) where
  toBytes : α → Bytes

class FromBytes (α : Type) where
  fromBytes : Bytes → Option α

export ToBytes (toBytes)
export FromBytes (fromBytes)

/-- What is written can be read. -/
class LawfulBytes (α : Type) [ToBytes α] [FromBytes α] : Prop where
  fromBytes_toBytes : ∀ a : α, fromBytes (toBytes a) = some a

/-- `[u8]` and `Vec<u8>`. -/
instance : ToBytes Bytes := ⟨id⟩

instance : FromBytes Bytes := ⟨some⟩

instance : LawfulBytes Bytes := ⟨fun _ => rfl⟩

/-- `str` and `String`. -/
instance : ToBytes String := ⟨fun s => s.toUTF8.data.toList⟩

/-- `String::from_utf8`. -/
instance : FromBytes String := ⟨fun data => String.fromUTF8? ⟨data.toArray⟩⟩

instance : LawfulBytes String where
  fromBytes_toBytes s := by
    show String.fromUTF8? ⟨s.toUTF8.data.toList.toArray⟩ = some s
    have hs : s.toByteArray.IsValidUTF8 := s.isValidUTF8
    rw [Array.toArray_toList, String.toUTF8_eq_toByteArray, String.fromUTF8?, dif_pos hs]
    rfl

/-- `()` is written as no bytes, and is read from any. -/
instance : ToBytes Unit := ⟨fun _ => []⟩

instance : FromBytes Unit := ⟨fun _ => some ()⟩

instance : LawfulBytes Unit := ⟨fun _ => rfl⟩

/-- `[u8; N]`, up to `N = 32`. -/
instance {n : Nat} [Fact (n ≤ 32)] : ToBytes (Vector UInt8 n) := ⟨Vector.toList⟩

/-- `[u8; N]` is read from exactly `N` bytes. -/
instance {n : Nat} : FromBytes (Vector UInt8 n) :=
  ⟨fun data => if h : data.length = n then some ⟨data.toArray, h⟩ else none⟩

instance {n : Nat} [Fact (n ≤ 32)] : LawfulBytes (Vector UInt8 n) where
  fromBytes_toBytes v := by
    show (if h : v.toList.length = n then some (⟨v.toList.toArray, h⟩ : Vector UInt8 n) else none) = some v
    have hn : v.toList.length = n := by simp
    rw [dif_pos hn]
    simp [← Vector.toList_inj]

/-! ### Messages -/

inductive Timestamp where
  | notAvailable
  | createTime (ms : Int)
  | logAppendTime (ms : Int)
  deriving DecidableEq, Repr

structure OwnedMessage where
  payload : Option Bytes
  key : Option Bytes
  topic : String
  partition : Int
  offset : Int
  timestamp : Timestamp
  headers : Option OwnedHeaders
  deriving DecidableEq, Repr

/-- `to_owned_message` and `detach`. -/
def StoredMessage.toOwnedMessage (m : StoredMessage) : OwnedMessage :=
  { payload := m.payload, key := m.key, topic := m.topic, partition := m.partition, offset := m.offset,
    timestamp := .createTime m.timestamp, headers := m.headers }

/-- The trait `Message`. -/
class Message (μ : Type) where
  key : μ → Option Bytes
  payload : μ → Option Bytes
  topic : μ → String
  partition : μ → Int
  offset : μ → Int
  timestamp : μ → Timestamp
  headers : μ → Option OwnedHeaders

def Message.decodePayload {μ : Type} [Message μ] (m : μ) (α : Type) [FromBytes α] : Option α :=
  (Message.payload m).bind fromBytes

def Message.decodeKey {μ : Type} [Message μ] (m : μ) (α : Type) [FromBytes α] : Option α :=
  (Message.key m).bind fromBytes

instance : Message OwnedMessage where
  key m := m.key
  payload m := m.payload
  topic m := m.topic
  partition m := m.partition
  offset m := m.offset
  timestamp m := m.timestamp
  headers m := m.headers

/-- A `BorrowedMessage` is a reference to a stored message. -/
instance : Message StoredMessage where
  key m := m.key
  payload m := m.payload
  topic m := m.topic
  partition m := m.partition
  offset m := m.offset
  timestamp m := .createTime m.timestamp
  headers m := m.headers

/-- `typed_payload_ref`: the object, if it has the type that is asked for. -/
def StoredMessage.typedPayloadRef (m : StoredMessage) (typeId : Nat) : Option AnyArc :=
  m.typedPayload.filter (·.typeId = typeId)

def StoredMessage.typedKeyRef (m : StoredMessage) (typeId : Nat) : Option AnyArc :=
  m.typedKey.filter (·.typeId = typeId)

def StoredMessage.hasTypedPayload (m : StoredMessage) : Bool := m.typedPayload.isSome

/-! ### Records -/

/-- `BaseRecord` and `FutureRecord`. -/
structure BaseRecord (K P : Type) where
  topic : String
  partition : Option Int
  payload : Option P
  key : Option K
  timestamp : Option Int
  headers : Option OwnedHeaders

structure OwnedRecord where
  topic : String
  partition : Option Int
  payload : Option Bytes
  key : Option Bytes
  timestamp : Option Int
  headers : Option OwnedHeaders

namespace BaseRecord

variable {K P : Type}

def toTopic (topic : String) : BaseRecord K P :=
  { topic, partition := none, payload := none, key := none, timestamp := none, headers := none }

def withPartition (r : BaseRecord K P) (p : Int) : BaseRecord K P := { r with partition := some p }

def withPayload (r : BaseRecord K P) (p : P) : BaseRecord K P := { r with payload := some p }

def withKey (r : BaseRecord K P) (k : K) : BaseRecord K P := { r with key := some k }

def withTimestamp (r : BaseRecord K P) (ts : Int) : BaseRecord K P := { r with timestamp := some ts }

def withHeaders (r : BaseRecord K P) (h : OwnedHeaders) : BaseRecord K P := { r with headers := some h }

variable [ToBytes K] [ToBytes P]

/-- The call of `produce` for a record. -/
def produceCall (r : BaseRecord K P) (clock : Clock) : ProduceCall :=
  ⟨r.topic, r.partition, .raw (r.key.map toBytes) (r.payload.map toBytes), r.headers, r.timestamp, clock⟩

/-- The message that is handed back with the error of a record. -/
def undelivered (r : BaseRecord K P) : OwnedMessage :=
  { payload := r.payload.map toBytes, key := r.key.map toBytes, topic := r.topic,
    partition := r.partition.getD (-1), offset := -1, timestamp := .createTime (r.timestamp.getD 0),
    headers := r.headers }

end BaseRecord

namespace OwnedRecord

/-- `From<BaseRecord>`. -/
def ofBaseRecord {K P : Type} [ToBytes K] [ToBytes P] (r : BaseRecord K P) : OwnedRecord :=
  { topic := r.topic, partition := r.partition, payload := r.payload.map toBytes, key := r.key.map toBytes,
    timestamp := r.timestamp, headers := r.headers }

/-- The record that `StreamProducer::send` builds, one field after the other. -/
def toBaseRecord (r : OwnedRecord) : BaseRecord Bytes Bytes :=
  let base := BaseRecord.toTopic r.topic
  let base := r.payload.elim base base.withPayload
  let base := r.key.elim base base.withKey
  let base := r.partition.elim base base.withPartition
  let base := r.timestamp.elim base base.withTimestamp
  r.headers.elim base base.withHeaders

/-- Nothing is lost on the way. -/
theorem toBaseRecord_eq (r : OwnedRecord) :
    r.toBaseRecord = ⟨r.topic, r.partition, r.payload, r.key, r.timestamp, r.headers⟩ := by
  obtain ⟨topic, partition, payload, key, timestamp, headers⟩ := r
  cases partition <;> cases payload <;> cases key <;> cases timestamp <;> cases headers <;> rfl

/-- A record that is sent through an `OwnedRecord` is the same call. -/
theorem produceCall_ofBaseRecord {K P : Type} [ToBytes K] [ToBytes P] (r : BaseRecord K P) (clock : Clock) :
    (ofBaseRecord r).toBaseRecord.produceCall clock = r.produceCall clock := by
  have hid : ∀ o : Option Bytes, o.map toBytes = o := fun o => by cases o <;> rfl
  rw [toBaseRecord_eq, BaseRecord.produceCall, BaseRecord.produceCall, ofBaseRecord, hid, hid]

end OwnedRecord

/-! ### What is stored for a record -/

section

variable {K P : Type} [ToBytes K] [ToBytes P] (r : BaseRecord K P) (clock : Clock) (metadata : RecordMetadata)

/-- A payload is read back from the message that is stored for it, through either view. -/
theorem decodePayload_stored [FromBytes P] [LawfulBytes P] :
    Message.decodePayload ((r.produceCall clock).stored metadata) P = r.payload ∧
      Message.decodePayload ((r.produceCall clock).stored metadata).toOwnedMessage P = r.payload := by
  have h : (r.payload.map toBytes).bind fromBytes = r.payload := by
    cases hp : r.payload with
    | none => rfl
    | some p => exact LawfulBytes.fromBytes_toBytes p
  exact ⟨h, h⟩

theorem decodeKey_stored [FromBytes K] [LawfulBytes K] :
    Message.decodeKey ((r.produceCall clock).stored metadata) K = r.key ∧
      Message.decodeKey ((r.produceCall clock).stored metadata).toOwnedMessage K = r.key := by
  have h : (r.key.map toBytes).bind fromBytes = r.key := by
    cases hp : r.key with
    | none => rfl
    | some k => exact LawfulBytes.fromBytes_toBytes k
  exact ⟨h, h⟩

end

end RMemQueue
