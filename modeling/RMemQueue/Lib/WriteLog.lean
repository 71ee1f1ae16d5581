import Mathlib.Data.List.AList

/-!
# Logs of writes

A log of writes to a map, and the map that they leave: each key holds the value that was written to it last
(`lookup_insert_cases`, `lookup_writeAll`).
-/

namespace WriteLog

variable {α β : Type} [DecidableEq α]

/-- Inversion for a look-up after a write. -/
theorem lookup_insert_cases {m : AList fun _ : α => β} {a x : α} {b y : β} (h : (m.insert a b).lookup x = some y) :
    (x = a ∧ y = b) ∨ (x ≠ a ∧ m.lookup x = some y) := by
  by_cases hx : x = a
  · subst hx
    rw [AList.lookup_insert] at h
    exact Or.inl ⟨rfl, (Option.some.inj h).symm⟩
  · rw [AList.lookup_insert_ne hx] at h
    exact Or.inr ⟨hx, h⟩

/-- The value that was written last to a key. -/
def latest (log : List (α × β)) (a : α) : Option β := (log.filter (·.1 = a)).getLast?.map (·.2)

/-- The map after the writes. -/
def writeAll (m : AList fun _ : α => β) (log : List (α × β)) : AList fun _ : α => β :=
  log.foldl (fun m e => m.insert e.1 e.2) m

@[simp] theorem latest_nil (a : α) : latest ([] : List (α × β)) a = none := rfl

@[simp] theorem writeAll_nil (m : AList fun _ : α => β) : writeAll m [] = m := rfl

theorem latest_append (log log' : List (α × β)) (a : α) :
    latest (log ++ log') a = (latest log' a).or (latest log a) := by
  rw [latest, List.filter_append, List.getLast?_append, latest, latest]
  cases (log'.filter (·.1 = a)).getLast? <;> rfl

theorem latest_singleton (e : α × β) (a : α) : latest [e] a = if e.1 = a then some e.2 else none := by
  unfold latest
  by_cases h : e.1 = a
  · simp [h]
  · simp [h]

theorem mem_of_latest {log : List (α × β)} {a : α} {b : β} (h : latest log a = some b) : (a, b) ∈ log := by
  obtain ⟨e, he, rfl⟩ := Option.map_eq_some_iff.1 h
  have hmem := List.mem_filter.1 (List.mem_of_getLast? he)
  obtain rfl : e.1 = a := by simpa using hmem.2
  exact hmem.1

/-- A key that is not written has no last write. -/
theorem latest_eq_none {log : List (α × β)} {a : α} (h : ∀ e ∈ log, e.1 ≠ a) : latest log a = none := by
  have hnil : log.filter (·.1 = a) = [] := List.filter_eq_nil_iff.2 fun e he => by simpa using h e he
  rw [latest, hnil]
  rfl

theorem writeAll_append (m : AList fun _ : α => β) (log log' : List (α × β)) :
    writeAll m (log ++ log') = writeAll (writeAll m log) log' :=
  List.foldl_append

/-- **The last write wins.** -/
theorem lookup_writeAll (m : AList fun _ : α => β) (log : List (α × β)) (a : α) :
    (writeAll m log).lookup a = (latest log a).or (m.lookup a) := by
  induction log generalizing m with
  | nil => rfl
  | cons e log ih =>
    rw [← List.singleton_append, writeAll_append, ih, latest_append, latest_singleton, Option.or_assoc]
    congr 1
    show (m.insert e.1 e.2).lookup a = _
    split
    · rename_i ha
      rw [← ha, AList.lookup_insert]
      rfl
    · rename_i ha
      rw [AList.lookup_insert_ne (Ne.symm ha)]
      rfl

end WriteLog
