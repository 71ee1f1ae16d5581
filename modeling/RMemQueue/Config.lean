import RMemQueue.Message
import Mathlib.Data.List.AList

/-!
# Configuration (`config.rs`)

A client configuration maps keys to texts; `BrokerConfig.fromConfig` reads the broker's settings from it, with
their defaults, and reports a number that does not parse.  `IntType.parse` is `str::parse` at an integer type.
-/

namespace RMemQueue

structure RmqClientConfig where
  confMap : AList (fun _ : String => String)

namespace RmqClientConfig

def new : RmqClientConfig := ⟨∅⟩

def get (c : RmqClientConfig) (key : String) : Option String := c.confMap.lookup key

def set (c : RmqClientConfig) (key value : String) : RmqClientConfig := ⟨c.confMap.insert key value⟩

end RmqClientConfig

namespace ConfigKeys

def brokerId : String := "broker.id"
def numPartitions : String := "default.num.partitions"
def bufferCapacity : String := "partition.buffer.capacity"
def retentionPolicy : String := "retention.policy"
def retentionCapacity : String := "retention.capacity"
def retentionMs : String := "retention.ms"
def groupSessionTimeout : String := "group.session.timeout.ms"
def groupId : String := "group.id"

end ConfigKeys

/-! ### Parsing integers -/

inductive ParseIntError where
  | empty
  | invalidDigit
  | posOverflow
  | negOverflow
  deriving DecidableEq, Repr

def ParseIntError.text : ParseIntError → String
  | .empty => "cannot parse integer from empty string"
  | .invalidDigit => "invalid digit found in string"
  | .posOverflow => "number too large to fit in target type"
  | .negOverflow => "number too small to fit in target type"

/-- A machine integer type. -/
structure IntType where
  min : Int
  max : Int

namespace IntType

def i32 : IntType := ⟨-2147483648, 2147483647⟩
def u64 : IntType := ⟨0, 18446744073709551615⟩
def usize : IntType := ⟨0, 18446744073709551615⟩

/-- The digits are added up, or subtracted after a minus sign, until one is invalid or the sum is out of range. -/
def parseDigits (ty : IntType) (negative : Bool) : List Char → Int → Except ParseIntError Int
  | [], n => .ok n
  | c :: cs, n =>
    if c.isDigit then
      let digit : Int := c.toNat - 48
      let n := if negative then n * 10 - digit else n * 10 + digit
      if n > ty.max then .error .posOverflow
      else if n < ty.min then .error .negOverflow
      else ty.parseDigits negative cs n
    else .error .invalidDigit

def parse (ty : IntType) (s : String) : Except ParseIntError Int :=
  match s.toList with
  | [] => .error .empty
  | ['+'] => .error .invalidDigit
  | ['-'] => .error .invalidDigit
  | '+' :: cs => ty.parseDigits false cs 0
  | '-' :: cs => if ty.min < 0 then ty.parseDigits true cs 0 else .error .invalidDigit
  | cs => ty.parseDigits false cs 0

private theorem parseDigits_le_max (ty : IntType) (negative : Bool) (cs : List Char) {n m : Int} (hn : n ≤ ty.max)
    (h : ty.parseDigits negative cs n = .ok m) : m ≤ ty.max := by
  induction cs generalizing n with
  | nil => exact Except.ok.inj h ▸ hn
  | cons c cs ih =>
    simp only [parseDigits] at h
    repeat' split at h
    · cases h
    · cases h
    · exact ih (by omega) h
    · cases h
    · cases h
    · exact ih (by omega) h
    · cases h

/-- A number that has been parsed is in range. -/
theorem parse_le_max {ty : IntType} (h0 : 0 ≤ ty.max) {s : String} {n : Int} (h : ty.parse s = .ok n) : n ≤ ty.max := by
  unfold parse at h
  repeat' split at h
  all_goals first
    | cases h
    | exact parseDigits_le_max ty _ _ h0 h

end IntType

structure BrokerConfig where
  brokerId : String
  defaultNumPartitions : Int
  bufferCapacity : Nat
  retentionPolicy : String
  retentionMs : Option Nat
  retentionCapacity : Option Nat
  groupSessionTimeoutMs : Nat
  deriving DecidableEq, Repr

namespace BrokerConfig

/-- A number that the configuration may leave out. -/
def number (config : RmqClientConfig) (ty : IntType) (key : String) : RmqResult (Option Int) :=
  match config.get key with
  | none => .ok none
  | some s =>
    match ty.parse s with
    | .ok n => .ok (some n)
    | .error e => .error (.invalidConfig ("Invalid " ++ key ++ ": " ++ e.text))

def fromConfig (config : RmqClientConfig) : RmqResult BrokerConfig :=
  match config.get ConfigKeys.brokerId with
  | none => .error (.invalidConfig (ConfigKeys.brokerId ++ " is required"))
  | some brokerId => do
    let defaultNumPartitions ← number config .i32 ConfigKeys.numPartitions
    let bufferCapacity ← number config .usize ConfigKeys.bufferCapacity
    let retentionCapacity ← number config .usize ConfigKeys.retentionCapacity
    let retentionMs ← number config .u64 ConfigKeys.retentionMs
    let groupSessionTimeoutMs ← number config .u64 ConfigKeys.groupSessionTimeout
    return {
      brokerId
      defaultNumPartitions := defaultNumPartitions.getD 1
      bufferCapacity := (bufferCapacity.getD 10000).toNat
      retentionPolicy := (config.get ConfigKeys.retentionPolicy).getD "none"
      retentionMs := retentionMs.map Int.toNat
      retentionCapacity := retentionCapacity.map Int.toNat
      groupSessionTimeoutMs := (groupSessionTimeoutMs.getD 30000).toNat }

/-- The settings of a broker are the values that have been read, with the defaults for those left out. -/
theorem fromConfig_cases {config : RmqClientConfig} {c : BrokerConfig} (h : fromConfig config = .ok c) :
    ∃ brokerId defaultNumPartitions bufferCapacity retentionCapacity retentionMs groupSessionTimeoutMs,
      config.get ConfigKeys.brokerId = some brokerId ∧
      number config .i32 ConfigKeys.numPartitions = .ok defaultNumPartitions ∧
      number config .usize ConfigKeys.bufferCapacity = .ok bufferCapacity ∧
      number config .usize ConfigKeys.retentionCapacity = .ok retentionCapacity ∧
      number config .u64 ConfigKeys.retentionMs = .ok retentionMs ∧
      number config .u64 ConfigKeys.groupSessionTimeout = .ok groupSessionTimeoutMs ∧
      c = ⟨brokerId, defaultNumPartitions.getD 1, (bufferCapacity.getD 10000).toNat,
        (config.get ConfigKeys.retentionPolicy).getD "none", retentionMs.map Int.toNat,
        retentionCapacity.map Int.toNat, (groupSessionTimeoutMs.getD 30000).toNat⟩ := by
  unfold fromConfig at h
  split at h
  · cases h
  · rename_i brokerId hid
    obtain ⟨partitions, hpartitions, h⟩ := RmqResult.bind_eq_ok.1 h
    obtain ⟨buffer, hbuffer, h⟩ := RmqResult.bind_eq_ok.1 h
    obtain ⟨capacity, hcapacity, h⟩ := RmqResult.bind_eq_ok.1 h
    obtain ⟨ms, hms, h⟩ := RmqResult.bind_eq_ok.1 h
    obtain ⟨timeout, htimeout, h⟩ := RmqResult.bind_eq_ok.1 h
    cases h
    exact ⟨brokerId, partitions, buffer, capacity, ms, timeout, hid, hpartitions, hbuffer, hcapacity, hms, htimeout, rfl⟩

/-- The broker id is the one of the client configuration. -/
theorem get_brokerId {config : RmqClientConfig} {c : BrokerConfig} (h : fromConfig config = .ok c) :
    config.get ConfigKeys.brokerId = some c.brokerId := by
  obtain ⟨_, _, _, _, _, _, hid, -, -, -, -, -, rfl⟩ := fromConfig_cases h
  exact hid

theorem number_le_max {config : RmqClientConfig} {ty : IntType} {key : String} {n : Int} (h0 : 0 ≤ ty.max)
    (h : number config ty key = .ok (some n)) : n ≤ ty.max := by
  unfold number at h
  split at h
  · cases h
  · split at h
    · rename_i m hm
      cases h
      exact IntType.parse_le_max h0 hm
    · cases h

/-- The default number of partitions is an `i32`. -/
theorem defaultNumPartitions_le {config : RmqClientConfig} {c : BrokerConfig} (h : fromConfig config = .ok c) :
    c.defaultNumPartitions ≤ IntType.i32.max := by
  obtain ⟨_, n, _, _, _, _, -, hn, -, -, -, -, rfl⟩ := fromConfig_cases h
  cases n with
  | none => exact (by decide : (1 : Int) ≤ IntType.i32.max)
  | some n => exact number_le_max (by decide) hn

end BrokerConfig

end RMemQueue
