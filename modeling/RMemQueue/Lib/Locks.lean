import RMemQueue.Lib.LockAct
import RMemQueue.Lib.Threads
import Mathlib.Data.Fintype.Defs
import Mathlib.Logic.Hydra

/-!
# Threads that take locks

Threads run calls that take reader–writer locks; a thread waits as long as its lock is not granted.  A policy decides
whether a reader has to wait for a writer who waits.

* `LockSystem.run_exclusive`: what one thread holds to write, no other thread holds.
* `LockSystem.Disciplined.exists_step`: with ranked locks some thread can always go on, whatever the policy.
* `LockSystem.Finite.acc_own`: calls in flight only take finitely many steps.
-/

namespace Conc

variable {Λ σ ε α : Type}

def Choice.isCall {ι κ : Type} : Choice ι κ → Bool
  | .call _ _ => true
  | .step _ => false

/-- Threads `ι` that issue the calls `κ`: the shared state, the call each thread has in flight with the locks it holds and
what is left of the call, and the ended calls. -/
structure LockSystem (ι κ Λ σ ε α : Type) where
  shared : σ
  running : ι → Option (κ × List (Λ × Mode) × LockAct Λ σ ε α)
  history : List (ι × κ × Outcome ε α)

namespace LockSystem

variable {ι κ : Type}

/-- No call is in flight or has ended. -/
def init (s : σ) : LockSystem ι κ Λ σ ε α := ⟨s, fun _ => none, []⟩

/-- The call that is still in flight when `x` is left of it. -/
def left (c : κ) (held : List (Λ × Mode)) : LockAct Λ σ ε α → Option (κ × List (Λ × Mode) × LockAct Λ σ ε α)
  | .ret _ => none
  | .atomic f k => some (c, held, .atomic f k)
  | .acquire l m k => some (c, held, .acquire l m k)
  | .release k => some (c, held, .release k)

/-- The call that has ended when `x` is left of it. -/
def ended (c : κ) : LockAct Λ σ ε α → List (κ × Outcome ε α)
  | .ret o => [(c, o)]
  | _ => []

theorem left_eq_some {c d : κ} {held held' : List (Λ × Mode)} {x y : LockAct Λ σ ε α}
    (h : left c held x = some (d, held', y)) : c = d ∧ held = held' ∧ x = y ∧ ended c x = [] ∧ ∀ o, y ≠ .ret o := by
  cases x <;> simp only [left, reduceCtorEq, Option.some.injEq, Prod.mk.injEq] at h
  all_goals
    obtain ⟨rfl, rfl, rfl⟩ := h
    exact ⟨rfl, rfl, rfl, rfl, by simp⟩

/-- The thread holds the lock. -/
def Holds (w : LockSystem ι κ Λ σ ε α) (i : ι) (l : Λ) (m : Mode) : Prop :=
  ∃ c held x, w.running i = some (c, held, x) ∧ (l, m) ∈ held

/-- The thread has asked for the lock and does not have it yet. -/
def Waits (w : LockSystem ι κ Λ σ ε α) (i : ι) (l : Λ) (m : Mode) : Prop :=
  ∃ c held k, w.running i = some (c, held, .acquire l m k)

/-- No holder of the lock excludes the mode. -/
def Free (w : LockSystem ι κ Λ σ ε α) (l : Λ) : Mode → Prop
  | .read => ∀ i, ¬ w.Holds i l .write
  | .write => ∀ i m, ¬ w.Holds i l m

/-- The lock is free, and nobody who waits to write goes before a reader. -/
def Clear (w : LockSystem ι κ Λ σ ε α) (l : Λ) : Mode → Prop
  | .read => w.Free l .read ∧ ∀ i, ¬ w.Waits i l .write
  | .write => w.Free l .write

/-- How requests are granted: not against a holder, and always if not even a waiting writer is in the way. -/
structure Policy (ι κ Λ σ ε α : Type) where
  grants : LockSystem ι κ Λ σ ε α → Λ → Mode → Prop
  free : ∀ w l m, grants w l m → w.Free l m
  clear : ∀ w l m, w.Clear l m → grants w l m

/-- Waiting writers go before readers. -/
def Policy.writersFirst : Policy ι κ Λ σ ε α where
  grants := Clear
  free w l m h := by
    cases m with
    | read => exact h.1
    | write => exact h
  clear _ _ _ h := h

variable [DecidableEq ι]

/-- Thread `i` has reached the shared state `s`, holds the given locks and has `x` left of call `c`. -/
def resume (w : LockSystem ι κ Λ σ ε α) (i : ι) (c : κ) (held : List (Λ × Mode)) (s : σ) (x : LockAct Λ σ ε α) :
    LockSystem ι κ Λ σ ε α :=
  ⟨s, Function.update w.running i (left c held x), w.history ++ (ended c x).map (i, ·)⟩

@[simp] theorem running_resume_self (w : LockSystem ι κ Λ σ ε α) (i : ι) (c : κ) (held : List (Λ × Mode)) (s : σ)
    (x : LockAct Λ σ ε α) : (w.resume i c held s x).running i = left c held x :=
  Function.update_self ..

theorem running_resume_ne {i j : ι} (hj : j ≠ i) (w : LockSystem ι κ Λ σ ε α) (c : κ) (held : List (Λ × Mode)) (s : σ)
    (x : LockAct Λ σ ε α) : (w.resume i c held s x).running j = w.running j :=
  Function.update_of_ne hj ..

section

variable (body : κ → LockAct Λ σ ε α) (P : Policy ι κ Λ σ ε α)

inductive Step : LockSystem ι κ Λ σ ε α → Choice ι κ → LockSystem ι κ Λ σ ε α → Prop
  | call {w : LockSystem ι κ Λ σ ε α} {i : ι} (c : κ) (hi : w.running i = none) :
      Step w (.call i c) (w.resume i c [] w.shared (body c))
  | atomic {w : LockSystem ι κ Λ σ ε α} {i : ι} {c : κ} {held : List (Λ × Mode)} {f : σ → σ}
      {k : σ → LockAct Λ σ ε α} (hi : w.running i = some (c, held, .atomic f k)) :
      Step w (.step i) (w.resume i c held (f w.shared) (k w.shared))
  | acquire {w : LockSystem ι κ Λ σ ε α} {i : ι} {c : κ} {held : List (Λ × Mode)} {l : Λ} {m : Mode}
      {k : LockAct Λ σ ε α} (hi : w.running i = some (c, held, .acquire l m k)) (hg : P.grants w l m) :
      Step w (.step i) (w.resume i c ((l, m) :: held) w.shared k)
  | release {w : LockSystem ι κ Λ σ ε α} {i : ι} {c : κ} {held : List (Λ × Mode)} {k : LockAct Λ σ ε α}
      (hi : w.running i = some (c, held, .release k)) :
      Step w (.step i) (w.resume i c held.tail w.shared k)

/-- The steps along a list of choices. -/
inductive Run : LockSystem ι κ Λ σ ε α → List (Choice ι κ) → LockSystem ι κ Λ σ ε α → Prop
  | nil (w : LockSystem ι κ Λ σ ε α) : Run w [] w
  | snoc {w w' w'' : LockSystem ι κ Λ σ ε α} {choices : List (Choice ι κ)} {x : Choice ι κ} (hrun : Run w choices w')
      (hstep : Step body P w' x w'') : Run w (choices ++ [x]) w''

/-- A step of a call in flight. -/
def Own (w w' : LockSystem ι κ Λ σ ε α) : Prop := ∃ i, Step body P w (.step i) w'

end

variable {body : κ → LockAct Λ σ ε α} {P : Policy ι κ Λ σ ε α} {rank : Λ → Nat}

/-- A choice leaves one thread with a part of its call. -/
theorem Step.resumes {w w' : LockSystem ι κ Λ σ ε α} {x : Choice ι κ} (h : Step body P w x w') :
    ∃ i c held s y, w' = w.resume i c held s y := by
  cases h with
  | call c hi => exact ⟨_, _, _, _, _, rfl⟩
  | atomic hi => exact ⟨_, _, _, _, _, rfl⟩
  | acquire hi hg => exact ⟨_, _, _, _, _, rfl⟩
  | release hi => exact ⟨_, _, _, _, _, rfl⟩

theorem running_resume {w : LockSystem ι κ Λ σ ε α} {i j : ι} {c d : κ} {held held' : List (Λ × Mode)} {s : σ}
    {x y : LockAct Λ σ ε α} (h : (w.resume i c held s x).running j = some (d, held', y)) :
    (j = i ∧ c = d ∧ held = held' ∧ x = y ∧ ∀ o, y ≠ .ret o) ∨ (j ≠ i ∧ w.running j = some (d, held', y)) := by
  by_cases hj : j = i
  · subst hj
    rw [running_resume_self] at h
    obtain ⟨hc, hheld, hx, -, hno⟩ := left_eq_some h
    exact Or.inl ⟨rfl, hc, hheld, hx, hno⟩
  · rw [running_resume_ne hj] at h
    exact Or.inr ⟨hj, h⟩

/-! ### The system executed -/

section

variable [DecidableEq Λ]

omit [DecidableEq ι] in
theorem holds_iff {w : LockSystem ι κ Λ σ ε α} {i : ι} {l : Λ} {m : Mode} :
    w.Holds i l m ↔ (w.running i).any (fun r => decide ((l, m) ∈ r.2.1)) = true := by
  simp [Holds, Option.any_eq_true]

omit [DecidableEq ι] in
theorem waits_iff {w : LockSystem ι κ Λ σ ε α} {i : ι} {l : Λ} {m : Mode} :
    w.Waits i l m ↔ (w.running i).any (fun r => r.2.2.asksFor l m) = true := by
  rw [Option.any_eq_true]
  constructor
  · rintro ⟨c, held, k, h⟩
    exact ⟨_, h, by simp [LockAct.asksFor]⟩
  · rintro ⟨⟨c, held, x⟩, h, hx⟩
    cases x <;> simp only [LockAct.asksFor, Bool.and_eq_true, decide_eq_true_eq, reduceCtorEq] at hx
    obtain ⟨rfl, rfl⟩ := hx
    exact ⟨c, held, _, h⟩

instance (w : LockSystem ι κ Λ σ ε α) (i : ι) (l : Λ) (m : Mode) : Decidable (w.Holds i l m) :=
  decidable_of_iff _ holds_iff.symm

instance (w : LockSystem ι κ Λ σ ε α) (i : ι) (l : Λ) (m : Mode) : Decidable (w.Waits i l m) :=
  decidable_of_iff _ waits_iff.symm

instance [Fintype ι] (w : LockSystem ι κ Λ σ ε α) (l : Λ) : (m : Mode) → Decidable (w.Clear l m)
  | .read => inferInstanceAs (Decidable ((∀ i, ¬ w.Holds i l .write) ∧ ∀ i, ¬ w.Waits i l .write))
  | .write => decidable_of_iff (∀ i, ¬ w.Holds i l .read ∧ ¬ w.Holds i l .write)
      (forall_congr' fun i => ⟨fun h m => by cases m; exacts [h.1, h.2], fun h => ⟨h .read, h .write⟩⟩)

instance [Fintype ι] (w : LockSystem ι κ Λ σ ε α) (l : Λ) (m : Mode) :
    Decidable (Policy.writersFirst.grants w l m) :=
  inferInstanceAs (Decidable (w.Clear l m))

end

section

variable (body P) [∀ w l m, Decidable (P.grants w l m)]

/-- What a choice makes of the state, if it is possible. -/
def next (w : LockSystem ι κ Λ σ ε α) : Choice ι κ → Option (LockSystem ι κ Λ σ ε α)
  | .call i c => if (w.running i).isNone then some (w.resume i c [] w.shared (body c)) else none
  | .step i =>
    match w.running i with
    | some (c, held, .atomic f k) => some (w.resume i c held (f w.shared) (k w.shared))
    | some (c, held, .acquire l m k) =>
      if P.grants w l m then some (w.resume i c ((l, m) :: held) w.shared k) else none
    | some (c, held, .release k) => some (w.resume i c held.tail w.shared k)
    | _ => none

def exec (w : LockSystem ι κ Λ σ ε α) (choices : List (Choice ι κ)) : Option (LockSystem ι κ Λ σ ε α) :=
  choices.foldlM (next body P) w

variable {body P}

theorem step_of_next {w w' : LockSystem ι κ Λ σ ε α} {x : Choice ι κ} (h : next body P w x = some w') :
    Step body P w x w' := by
  unfold next at h
  split at h
  · rename_i i c
    split at h
    · rename_i hi
      cases h
      exact .call c (Option.isNone_iff_eq_none.1 hi)
    · cases h
  · split at h
    · rename_i hi
      cases h
      exact .atomic hi
    · rename_i hi
      split at h
      · rename_i hg
        cases h
        exact .acquire hi hg
      · cases h
    · rename_i hi
      cases h
      exact .release hi
    · cases h

theorem run_of_exec {w w' : LockSystem ι κ Λ σ ε α} {choices : List (Choice ι κ)}
    (h : exec body P w choices = some w') : Run body P w choices w' := by
  induction choices using List.reverseRecOn generalizing w' with
  | nil =>
    cases h
    exact .nil w
  | append_singleton choices x ih =>
    rw [exec, List.foldlM_append] at h
    obtain ⟨v, hv, hx⟩ := Option.bind_eq_some_iff.1 h
    rw [List.foldlM_cons] at hx
    obtain ⟨u, hu, hw⟩ := Option.bind_eq_some_iff.1 hx
    cases hw
    exact .snoc (ih hv) (step_of_next hu)

end

/-! ### Mutual exclusion -/

/-- What one thread holds to write, no other thread holds. -/
def Exclusive (w : LockSystem ι κ Λ σ ε α) : Prop := ∀ i j l m, j ≠ i → w.Holds i l .write → ¬ w.Holds j l m

omit [DecidableEq ι] in
theorem exclusive_init (s : σ) : Exclusive (init s : LockSystem ι κ Λ σ ε α) := by
  rintro i j l m - ⟨c, held, x, hi, -⟩
  cases hi

/-- A thread that goes on holds what it held, or a lock that was free, or fewer locks. -/
private theorem Exclusive.resume {w : LockSystem ι κ Λ σ ε α} (hw : w.Exclusive) {i : ι} {c : κ}
    {held : List (Λ × Mode)} {s : σ} {x : LockAct Λ σ ε α}
    (hheld : ∀ l m, (l, m) ∈ held → w.Holds i l m ∨ w.Free l m) : (w.resume i c held s x).Exclusive := by
  -- who holds a lock afterwards held it before, or took it while it was free
  have hbefore : ∀ {j l m}, (w.resume i c held s x).Holds j l m → w.Holds j l m ∨ j = i ∧ w.Free l m := by
    rintro j l m ⟨d, held', y, hj, hmem⟩
    rcases running_resume hj with ⟨rfl, -, rfl, -, -⟩ | ⟨-, hj⟩
    · exact (hheld l m hmem).imp_right fun h => ⟨rfl, h⟩
    · exact Or.inl ⟨d, held', y, hj, hmem⟩
  intro j k l m hkj hj hk
  rcases hbefore hj with hj' | ⟨rfl, hfree⟩
  · rcases hbefore hk with hk' | ⟨rfl, hfree⟩
    · exact hw j k l m hkj hj' hk'
    · cases m with
      | read => exact hfree j hj'
      | write => exact hfree j .write hj'
  · rcases hbefore hk with hk' | ⟨rfl, -⟩
    · exact hfree k m hk'
    · exact hkj rfl

theorem Exclusive.step {w w' : LockSystem ι κ Λ σ ε α} {x : Choice ι κ} (hw : w.Exclusive) (h : Step body P w x w') :
    w'.Exclusive := by
  cases h with
  | call c hi => exact hw.resume (by simp)
  | atomic hi => exact hw.resume fun l m hl => Or.inl ⟨_, _, _, hi, hl⟩
  | acquire hi hg =>
    refine hw.resume fun l m hl => ?_
    rcases List.mem_cons.1 hl with hl | hl
    · obtain ⟨rfl, rfl⟩ := Prod.mk.inj hl
      exact Or.inr (P.free w l m hg)
    · exact Or.inl ⟨_, _, _, hi, hl⟩
  | release hi => exact hw.resume fun l m hl => Or.inl ⟨_, _, _, hi, List.mem_of_mem_tail hl⟩

theorem run_exclusive {w w' : LockSystem ι κ Λ σ ε α} {choices : List (Choice ι κ)} (hw : w.Exclusive)
    (h : Run body P w choices w') : w'.Exclusive := by
  induction h with
  | nil => exact hw
  | snoc hrun hstep ih => exact ih.step hstep

/-! ### Some thread can go on -/

/-- Every call in flight takes its locks in the order of the ranks. -/
def Disciplined (rank : Λ → Nat) (w : LockSystem ι κ Λ σ ε α) : Prop :=
  ∀ i c held x, w.running i = some (c, held, x) → x.Ordered rank [] held ∧ ∀ o, x ≠ .ret o

omit [DecidableEq ι] in
theorem disciplined_init (s : σ) : Disciplined rank (init s : LockSystem ι κ Λ σ ε α) := by
  intro i c held x h
  cases h

private theorem Disciplined.resume {w : LockSystem ι κ Λ σ ε α} (hw : w.Disciplined rank) {i : ι} {c : κ}
    {held : List (Λ × Mode)} {s : σ} {x : LockAct Λ σ ε α} (hx : x.Ordered rank [] held) :
    (w.resume i c held s x).Disciplined rank := by
  intro j d held' y h
  rcases running_resume h with ⟨-, -, rfl, rfl, hno⟩ | ⟨-, h⟩
  · exact ⟨hx, hno⟩
  · exact hw j d held' y h

theorem Disciplined.step (hbody : ∀ c, (body c).Within rank 0) {w w' : LockSystem ι κ Λ σ ε α} {x : Choice ι κ}
    (hw : w.Disciplined rank) (h : Step body P w x w') : w'.Disciplined rank := by
  cases h with
  | call c hi => exact hw.resume (hbody c [] (by simp))
  | atomic hi => exact hw.resume ((hw _ _ _ _ hi).1 w.shared)
  | acquire hi hg => exact hw.resume (hw _ _ _ _ hi).1.2
  | release hi =>
    obtain ⟨l, rest, rfl, hk⟩ := (hw _ _ _ _ hi).1
    exact hw.resume hk

theorem Disciplined.run (hbody : ∀ c, (body c).Within rank 0) {w w' : LockSystem ι κ Λ σ ε α}
    {choices : List (Choice ι κ)} (hw : w.Disciplined rank) (h : Run body P w choices w') : w'.Disciplined rank := by
  induction h with
  | nil => exact hw
  | snoc hrun hstep ih => exact ih.step hbody hstep

/-- A thread with a call in flight takes a step, or waits for a lock that is not granted. -/
private theorem Disciplined.steps_or_waits (body : κ → LockAct Λ σ ε α) (P : Policy ι κ Λ σ ε α)
    {w : LockSystem ι κ Λ σ ε α} (hw : w.Disciplined rank) {i : ι} {c : κ}
    {held : List (Λ × Mode)} {x : LockAct Λ σ ε α} (hi : w.running i = some (c, held, x)) :
    (∃ w', Own body P w w') ∨ ∃ l m, w.Waits i l m ∧ ¬ P.grants w l m ∧ ∀ h ∈ held, rank h.1 < rank l := by
  cases x with
  | ret o => exact absurd rfl ((hw i c held _ hi).2 o)
  | atomic f k => exact Or.inl ⟨_, i, .atomic hi⟩
  | acquire l m k =>
    by_cases hg : P.grants w l m
    · exact Or.inl ⟨_, i, .acquire hi hg⟩
    · exact Or.inr ⟨l, m, ⟨c, held, k, hi⟩, hg, (hw i c held _ hi).1.1⟩
  | release k => exact Or.inl ⟨_, i, .release hi⟩

omit [DecidableEq ι] in
/-- Whoever is refused a lock is refused it because of a thread that holds it, or because of a writer who waits. -/
private theorem holds_of_not_grants {w : LockSystem ι κ Λ σ ε α} {l : Λ} {m : Mode} (h : ¬ P.grants w l m) :
    (∃ j m', w.Holds j l m') ∨ ∃ j, w.Waits j l .write := by
  by_contra hno
  rw [not_or, not_exists, not_exists] at hno
  obtain ⟨hholds, hwaits⟩ := hno
  have hfree : ∀ j m', ¬ w.Holds j l m' := fun j m' hj => hholds j ⟨m', hj⟩
  apply h
  apply P.clear
  cases m with
  | read => exact ⟨fun j => hfree j .write, hwaits⟩
  | write => exact hfree

/-- The argument is on the rank of the lock that a thread waits for: whoever holds it waits for a higher one. -/
private theorem Disciplined.exists_step_of_waits {w : LockSystem ι κ Λ σ ε α} (hw : w.Disciplined rank) {n : Nat}
    (hrank : ∀ l, rank l ≤ n) {i : ι} {l : Λ} {m : Mode} (hi : w.Waits i l m) : ∃ w', Own body P w w' := by
  obtain ⟨d, hd⟩ : ∃ d, n - rank l = d := ⟨_, rfl⟩
  induction d using Nat.strong_induction_on generalizing i l m with
  | _ d ih =>
    -- a holder of the lock takes a step or waits for a higher lock
    have hholder : (∃ j m', w.Holds j l m') → ∃ w', Own body P w w' := by
      rintro ⟨j, m', c, held, x, hj, hmem⟩
      rcases hw.steps_or_waits body P hj with hstep | ⟨l', m'', hwaits, -, habove⟩
      · exact hstep
      · have hlt : rank l < rank l' := habove (l, m') hmem
        have hle : rank l' ≤ n := hrank l'
        exact ih (n - rank l') (by omega) hwaits rfl
    have hgo : ∀ {j m'}, w.Waits j l m' → P.grants w l m' → ∃ w', Own body P w w' := by
      rintro j m' ⟨c, held, k, hj⟩ hg
      exact ⟨_, j, .acquire hj hg⟩
    by_cases hg : P.grants w l m
    · exact hgo hi hg
    · rcases holds_of_not_grants hg with hh | ⟨j, hj⟩
      · exact hholder hh
      · by_cases hgj : P.grants w l .write
        · exact hgo hj hgj
        · by_cases hh : ∃ j m', w.Holds j l m'
          · exact hholder hh
          · refine absurd (P.clear w l .write fun j' m' h => ?_) hgj
            exact hh ⟨j', m', h⟩

/-- No deadlock: while a call is in flight, some call in flight can go on. -/
theorem Disciplined.exists_step {w : LockSystem ι κ Λ σ ε α} (hw : w.Disciplined rank) {n : Nat}
    (hrank : ∀ l, rank l ≤ n) {i : ι} (hi : w.running i ≠ none) : ∃ w', Own body P w w' := by
  obtain ⟨⟨c, held, x⟩, hr⟩ := Option.ne_none_iff_exists'.1 hi
  rcases hw.steps_or_waits body P hr with hstep | ⟨l, m, hwaits, -, -⟩
  · exact hstep
  · exact hw.exists_step_of_waits hrank hwaits

/-! ### Every call ends -/

/-- `y` is what a step of `x` may leave. -/
inductive Leaves : LockAct Λ σ ε α → LockAct Λ σ ε α → Prop
  | atomic (f : σ → σ) (k : σ → LockAct Λ σ ε α) (s : σ) : Leaves (k s) (.atomic f k)
  | acquire (l : Λ) (m : Mode) (k : LockAct Λ σ ε α) : Leaves k (.acquire l m k)
  | release (k : LockAct Λ σ ε α) : Leaves k (.release k)

omit [DecidableEq ι] in
private theorem wellFounded_leaves : WellFounded (Leaves (Λ := Λ) (σ := σ) (ε := ε) (α := α)) := by
  refine ⟨fun x => ?_⟩
  induction x with
  | ret o => exact ⟨_, fun y hy => nomatch hy⟩
  | atomic f k ih =>
    refine ⟨_, fun y hy => ?_⟩
    cases hy
    exact ih _
  | acquire l m k ih =>
    refine ⟨_, fun y hy => ?_⟩
    cases hy
    exact ih
  | release k ih =>
    refine ⟨_, fun y hy => ?_⟩
    cases hy
    exact ih

/-- What is left of the call that a thread has in flight. -/
private def residual (r : Option (κ × List (Λ × Mode) × LockAct Λ σ ε α)) : Multiset (LockAct Λ σ ε α) :=
  r.elim 0 fun r => {r.2.2}

omit [DecidableEq ι] in
private theorem residual_left {c : κ} {held : List (Λ × Mode)} {x y : LockAct Λ σ ε α} (hy : Leaves y x) :
    ∀ z ∈ residual (left c held y), Leaves z x := by
  intro z hz
  cases y <;> simp only [residual, left, Option.elim_none, Option.elim_some, Multiset.notMem_zero,
    Multiset.mem_singleton] at hz
  all_goals exact hz ▸ hy

/-- What is left of the calls of the given threads. -/
private def residuals (threads : Finset ι) (w : LockSystem ι κ Λ σ ε α) : Multiset (LockAct Λ σ ε α) :=
  ∑ i ∈ threads, residual (w.running i)

/-- A step replaces what is left of one call by what is left of it then. -/
private theorem cutExpand_own {threads : Finset ι} {w w' : LockSystem ι κ Λ σ ε α} (h : Own body P w w')
    (hidle : ∀ i, i ∉ threads → w.running i = none) :
    Relation.CutExpand Leaves (w'.residuals threads) (w.residuals threads) ∧
      ∀ i, i ∉ threads → w'.running i = none := by
  obtain ⟨i, hi⟩ := h
  have key : ∀ {c : κ} {held held' : List (Λ × Mode)} {s : σ} {x y : LockAct Λ σ ε α}, w.running i = some (c, held, x) →
      Leaves y x → Relation.CutExpand Leaves ((w.resume i c held' s y).residuals threads) (w.residuals threads) ∧
        ∀ j, j ∉ threads → (w.resume i c held' s y).running j = none := by
    intro c held held' s x y hr hy
    have hmem : i ∈ threads := by
      by_contra hmem
      rw [hidle i hmem] at hr
      cases hr
    refine ⟨⟨residual (left c held' y), x, residual_left hy, ?_⟩, fun j hj => ?_⟩
    · have hothers : ∑ j ∈ threads.erase i, residual ((w.resume i c held' s y).running j) =
          ∑ j ∈ threads.erase i, residual (w.running j) := by
        refine Finset.sum_congr rfl fun j hj => ?_
        rw [running_resume_ne (Finset.ne_of_mem_erase hj)]
      have hx : residual (w.running i) = {x} := by
        rw [hr]
        rfl
      rw [residuals, residuals, ← Finset.add_sum_erase threads _ hmem, ← Finset.add_sum_erase threads _ hmem, hothers,
        running_resume_self, hx]
      ac_rfl
    · rw [running_resume_ne fun h : j = i => hj (h ▸ hmem)]
      exact hidle j hj
  cases hi with
  | atomic hr => exact key hr (.atomic _ _ _)
  | acquire hr hg => exact key hr (.acquire _ _ _)
  | release hr => exact key hr (.release _)

/-- The threads that have calls in flight are finitely many. -/
def Finite (w : LockSystem ι κ Λ σ ε α) : Prop := ∃ threads : Finset ι, ∀ i, i ∉ threads → w.running i = none

omit [DecidableEq ι] in
theorem finite_init (s : σ) : Finite (init s : LockSystem ι κ Λ σ ε α) := ⟨∅, fun _ _ => rfl⟩

theorem Finite.step {w w' : LockSystem ι κ Λ σ ε α} {x : Choice ι κ} (hw : w.Finite) (h : Step body P w x w') :
    w'.Finite := by
  obtain ⟨threads, hidle⟩ := hw
  obtain ⟨i, c, held, s, y, rfl⟩ := h.resumes
  refine ⟨insert i threads, fun j hj => ?_⟩
  rw [Finset.mem_insert, not_or] at hj
  rw [running_resume_ne hj.1]
  exact hidle j hj.2

theorem Finite.run {w w' : LockSystem ι κ Λ σ ε α} {choices : List (Choice ι κ)} (hw : w.Finite)
    (h : Run body P w choices w') : w'.Finite := by
  induction h with
  | nil => exact hw
  | snoc hrun hstep ih => exact ih.step hstep

/-- The calls in flight only take finitely many steps. -/
theorem Finite.acc_own {w : LockSystem ι κ Λ σ ε α} (hw : w.Finite) : Acc (fun w₂ w₁ => Own body P w₁ w₂) w := by
  obtain ⟨threads, hidle⟩ := hw
  obtain ⟨M, hM⟩ : ∃ M, w.residuals threads = M := ⟨_, rfl⟩
  induction M using (wellFounded_leaves (Λ := Λ) (σ := σ) (ε := ε) (α := α)).cutExpand.induction generalizing w with
  | _ M ih =>
    refine ⟨_, fun w' h => ?_⟩
    obtain ⟨hcut, hidle'⟩ := cutExpand_own h hidle
    exact ih _ (hM ▸ hcut) hidle' rfl

end LockSystem

end Conc
