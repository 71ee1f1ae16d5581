import Mathlib.Order.Basic
import Mathlib.Data.List.Infix

/-!
# Logs that forget their oldest entries

An append-only history of entries, numbered from `0`, of which the oldest `dropped` ones are no longer retained.  An
entry keeps its number for ever; `get?` reads the retained ones.  `l ≤ l'` says that `l'` is a later state of the
log `l`: entries have been appended at the end and forgotten at the front.

`since` is what a reader finds that goes on from a number, and starts again with the oldest retained entry when there is
no such place in the log.
-/

/-- An append-only history whose oldest `dropped` entries are forgotten. -/
@[ext]
structure TrimmedLog (α : Type) where
  history : List α
  dropped : Nat
  dropped_le : dropped ≤ history.length

namespace TrimmedLog

variable {α : Type}

def empty : TrimmedLog α := ⟨[], 0, Nat.le_refl _⟩

/-- The retained entries, oldest first. -/
def retained (l : TrimmedLog α) : List α := l.history.drop l.dropped

/-- The number the next entry will get. -/
def next (l : TrimmedLog α) : Nat := l.history.length

/-- The entry numbered `n`, if it is retained. -/
def get? (l : TrimmedLog α) (n : Nat) : Option α := if l.dropped ≤ n then l.history[n]? else none

def push (l : TrimmedLog α) (a : α) : TrimmedLog α :=
  ⟨l.history ++ [a], l.dropped, by have := l.dropped_le; simp; omega⟩

/-- Forget the oldest `n` retained entries. -/
def trim (l : TrimmedLog α) (n : Nat) : TrimmedLog α :=
  ⟨l.history, min (l.dropped + n) l.history.length, Nat.min_le_right ..⟩

theorem length_retained (l : TrimmedLog α) : l.retained.length = l.next - l.dropped := by
  simp [retained, next]

theorem dropped_le_next (l : TrimmedLog α) : l.dropped ≤ l.next := l.dropped_le

theorem retained_eq_nil_iff (l : TrimmedLog α) : l.retained = [] ↔ l.dropped = l.next := by
  have := l.dropped_le_next
  rw [← List.length_eq_zero_iff, length_retained]
  omega

theorem get?_of_dropped_le {l : TrimmedLog α} {n : Nat} (h : l.dropped ≤ n) : l.get? n = l.history[n]? := by
  simp [get?, h]

theorem get?_of_lt_dropped {l : TrimmedLog α} {n : Nat} (h : n < l.dropped) : l.get? n = none := by
  simp [get?, Nat.not_le.2 h]

theorem get?_add (l : TrimmedLog α) (i : Nat) : l.get? (l.dropped + i) = l.retained[i]? := by
  rw [get?_of_dropped_le (Nat.le_add_right ..), retained, List.getElem?_drop]

theorem get?_eq_none_iff (l : TrimmedLog α) (n : Nat) : l.get? n = none ↔ n < l.dropped ∨ l.next ≤ n := by
  rcases Nat.lt_or_ge n l.dropped with h | h
  · simp [get?_of_lt_dropped h, h]
  · rw [get?_of_dropped_le h, List.getElem?_eq_none_iff]
    simp only [next]
    omega

/-- A number with an entry is between the bounds. -/
theorem bounds_of_get? {l : TrimmedLog α} {n : Nat} {a : α} (h : l.get? n = some a) : l.dropped ≤ n ∧ n < l.next := by
  have hne : l.get? n ≠ none := by rw [h]; simp
  rw [Ne, get?_eq_none_iff] at hne
  omega

theorem exists_get? {l : TrimmedLog α} {n : Nat} (hd : l.dropped ≤ n) (hn : n < l.next) : ∃ a, l.get? n = some a := by
  apply Option.ne_none_iff_exists'.1
  rw [Ne, get?_eq_none_iff]
  omega

theorem mem_retained_of_get? {l : TrimmedLog α} {n : Nat} {a : α} (h : l.get? n = some a) : a ∈ l.retained := by
  obtain ⟨i, rfl⟩ := Nat.exists_eq_add_of_le (bounds_of_get? h).1
  rw [get?_add] at h
  exact List.mem_of_getElem? h

@[simp] theorem next_push (l : TrimmedLog α) (a : α) : (l.push a).next = l.next + 1 := by simp [push, next]

@[simp] theorem dropped_push (l : TrimmedLog α) (a : α) : (l.push a).dropped = l.dropped := rfl

@[simp] theorem next_trim (l : TrimmedLog α) (n : Nat) : (l.trim n).next = l.next := rfl

/-! ### Later states of a log -/

/-- `l'` is a later state of the log `l`. -/
instance : Preorder (TrimmedLog α) where
  le l l' := l.history <+: l'.history ∧ l.dropped ≤ l'.dropped
  le_refl l := ⟨List.prefix_rfl, Nat.le_refl _⟩
  le_trans _ _ _ h₁ h₂ := ⟨h₁.1.trans h₂.1, Nat.le_trans h₁.2 h₂.2⟩

theorem empty_le (l : TrimmedLog α) : empty ≤ l := ⟨List.nil_prefix, Nat.zero_le _⟩

theorem le_push (l : TrimmedLog α) (a : α) : l ≤ l.push a := ⟨List.prefix_append .., Nat.le_refl _⟩

theorem le_trim (l : TrimmedLog α) (n : Nat) : l ≤ l.trim n := by
  refine ⟨List.prefix_rfl, ?_⟩
  have := l.dropped_le
  simp only [trim]
  omega

variable {l l' : TrimmedLog α}

theorem next_mono (h : l ≤ l') : l.next ≤ l'.next := h.1.length_le

theorem dropped_mono (h : l ≤ l') : l.dropped ≤ l'.dropped := h.2

/-- An entry never changes. -/
theorem history_mono (h : l ≤ l') {n : Nat} {a : α} (hn : l.history[n]? = some a) : l'.history[n]? = some a := by
  obtain ⟨t, ht⟩ := h.1
  obtain ⟨hlt, -⟩ := List.getElem?_eq_some_iff.1 hn
  rw [← ht, List.getElem?_append_left hlt, hn]

/-! ### Reading on -/

/-- The retained entries from the number `o` on; all of them if `o` is outside the log. -/
def since (l : TrimmedLog α) (o : Int) : List α :=
  if (l.dropped : Int) ≤ o ∧ o ≤ l.next then l.history.drop o.toNat else l.retained

theorem since_of_out {o : Int} (h : o < l.dropped ∨ l.next < o) : l.since o = l.retained := if_neg (by omega)

theorem since_eq_drop {o : Int} (h : o ≤ l.next) : l.since o = l.history.drop (max o.toNat l.dropped) := by
  unfold since
  split
  · rw [Nat.max_eq_left (by omega)]
  · rw [Nat.max_eq_right (by omega), retained]

/-- Below the log a reader starts with the oldest entry. -/
theorem since_of_le {o : Int} (h : o ≤ l.dropped) : l.since o = l.retained := by
  have hle := l.dropped_le_next
  rw [since_eq_drop (by omega), Nat.max_eq_right (by omega), retained]

theorem since_next (l : TrimmedLog α) : l.since l.next = [] := by
  rw [since_eq_drop (Int.le_refl _), Int.toNat_natCast, List.drop_eq_nil_iff, ← next]
  exact Nat.le_max_left ..

/-- The last `n` entries. -/
theorem since_sub {n : Nat} (h : n ≤ l.next) : l.since ((l.next : Int) - n) =
    l.retained.drop (l.retained.length - n) := by
  have hle := l.dropped_le_next
  rw [since_eq_drop (by omega), retained, List.drop_drop, ← retained, length_retained]
  congr 1
  omega

/-- The first entry is the one with the number. -/
theorem since_eq_cons {n : Nat} {a : α} (h : l.get? n = some a) : l.since n = a :: l.since (n + 1) := by
  have hbounds := bounds_of_get? h
  rw [get?_of_dropped_le (by omega)] at h
  obtain ⟨hlt, rfl⟩ := List.getElem?_eq_some_iff.1 h
  rw [since_eq_drop (by omega), since_eq_drop (by omega), Nat.max_eq_left (by omega), Nat.max_eq_left (by omega),
    Int.toNat_natCast, show ((n : Int) + 1).toNat = n + 1 by omega, List.drop_eq_getElem_cons hlt]

theorem since_eq_nil_iff {o : Int} : l.since o = [] ↔ l.retained = [] ∨ o = l.next := by
  have hle := l.dropped_le_next
  unfold since
  split
  · rw [List.drop_eq_nil_iff, ← next, retained_eq_nil_iff]
    omega
  · rw [retained_eq_nil_iff]
    omega

/-- A reader within a log that loses none of what is left to read goes on with that and what is appended. -/
theorem since_later (h : l ≤ l') {o : Int} (ho : o ≤ l.next)
    (hkeep : l.since o ++ l'.history.drop l.next ≠ [] → l'.dropped ≤ max o.toNat l.dropped) :
    l'.since o = l.since o ++ l'.history.drop l.next := by
  have hle := l.dropped_le_next
  have hnext := next_mono h
  have hdropped := dropped_mono h
  obtain ⟨t, ht⟩ := h.1
  have hall : l.since o ++ l'.history.drop l.next = l'.history.drop (max o.toNat l.dropped) := by
    have hwithin : max o.toNat l.dropped ≤ l.history.length := by
      rw [← next]
      omega
    rw [since_eq_drop ho, ← ht, next, List.drop_left, List.drop_append_of_le_length hwithin]
  rw [hall] at hkeep ⊢
  rw [since_eq_drop (by omega)]
  by_cases hnil : l'.history.drop (max o.toNat l.dropped) = []
  · rw [hnil]
    rw [List.drop_eq_nil_iff] at hnil ⊢
    omega
  · have := hkeep hnil
    congr 1
    omega

end TrimmedLog
