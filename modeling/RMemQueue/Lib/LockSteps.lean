import RMemQueue.Lib.Guards
import RMemQueue.Lib.Locks

/-!
# Threads with locks and threads without

Threads take the locks of their calls, and each call does what a call without locks does as long as nobody else changes
what its locks guard.  Mutual exclusion sees to that: a step only changes what its thread has locked to write, and nobody
else has a lock on that.

* `LockSystem.matched_step`, `LockSystem.matched_run`: what the threads with locks do, the threads of `Lib.Threads` do under
  some schedule that issues the same calls.
* `LockSystem.Reflects`: what that says about the shared state and the ended calls.
-/

namespace Conc

namespace LockSystem

variable {ι κ Λ σ ε α : Type} {G : Guards Λ σ}

/-- What a thread of `Lib.Threads` has in flight and has ended when `y` is left of the call `c`. -/
def status (c : κ) : Act σ ε α → Option (κ × Act σ ε α) × List (κ × Outcome ε α)
  | .ret o => (none, [(c, o)])
  | .atomic f k => (some (c, .atomic f k), [])

section

variable [DecidableEq ι]

/-- The threads without locks have reached the same: the same shared state, the same ended calls of a thread that is idle,
and of one that has a call in flight possibly that call as well. -/
structure Reflects (w : LockSystem ι κ Λ σ ε α) (v : System ι κ σ ε α) : Prop where
  shared : v.shared = w.shared
  idle : ∀ i, w.running i = none → v.running i = none ∧ own i v.history = own i w.history
  busy : ∀ i c held x, w.running i = some (c, held, x) →
    ((∃ y, v.running i = some (c, y)) ∧ own i v.history = own i w.history) ∨
      ∃ o, v.running i = none ∧ own i v.history = own i w.history ++ [(c, o)]

/-- A thread without locks has left of its call what the one with locks implements; a thread that has only locks to release
has ended its call there. -/
structure Matches (G : Guards Λ σ) (w : LockSystem ι κ Λ σ ε α) (v : System ι κ σ ε α) : Prop where
  shared : v.shared = w.shared
  idle : ∀ i, w.running i = none → v.running i = none ∧ own i v.history = own i w.history
  busy : ∀ i c held x, w.running i = some (c, held, x) → ∃ y : Act σ ε α, x.Implements G held w.shared y ∧
    v.running i = (status c y).1 ∧ own i v.history = own i w.history ++ (status c y).2

theorem Matches.reflects {w : LockSystem ι κ Λ σ ε α} {v : System ι κ σ ε α} (h : Matches G w v) : Reflects w v := by
  refine ⟨h.shared, h.idle, fun i c held x hi => ?_⟩
  obtain ⟨y, -, hrun, hown⟩ := h.busy i c held x hi
  cases y with
  | ret o => exact Or.inr ⟨o, hrun, hown⟩
  | atomic f k => exact Or.inl ⟨⟨_, hrun⟩, hown.trans (List.append_nil _)⟩

theorem matches_init (G : Guards Λ σ) (s : σ) : Matches G (init s : LockSystem ι κ Λ σ ε α) (System.init s) :=
  ⟨rfl, fun _ _ => ⟨rfl, rfl⟩, fun _ _ _ _ h => nomatch h⟩

theorem own_append (i : ι) (h h' : List (ι × κ × Outcome ε α)) : own i (h ++ h') = own i h ++ own i h' :=
  List.filterMap_append ..

theorem own_map_self (i : ι) (h : List (κ × Outcome ε α)) : own i (h.map (i, ·)) = h := by
  induction h with
  | nil => rfl
  | cons e h ih =>
    show own i ([(i, e)] ++ h.map (i, ·)) = e :: h
    rw [own_append, ih]
    simp [own]

theorem own_map_ne {i j : ι} (hij : j ≠ i) (h : List (κ × Outcome ε α)) : own j (h.map (i, ·)) = [] := by
  induction h with
  | nil => rfl
  | cons e h ih =>
    show own j ([(i, e)] ++ h.map (i, ·)) = []
    rw [own_append, ih]
    simp [own, Ne.symm hij]

omit [DecidableEq ι] in
/-- What one thread may do, another one does not notice in what it has locked. -/
theorem Exclusive.stable {w : LockSystem ι κ Λ σ ε α} (hw : w.Exclusive) {i j : ι} (hji : j ≠ i) {c d : κ}
    {held held' : List (Λ × Mode)} {x y : LockAct Λ σ ε α} (hi : w.running i = some (c, held, x))
    (hj : w.running j = some (d, held', y)) {s s' : σ} (h : G.Allows held s s') : G.Stable held' s s' := by
  intro l hl
  refine h l.1 fun hwrite => ?_
  exact hw i j l.1 l.2 hji ⟨c, held, x, hi, hwrite⟩ ⟨d, held', y, hj, hl⟩

/-- The threads with locks and those without them reach what is left of the same call of thread `i`, and the others do not
notice. -/
private theorem Matches.resume {w : LockSystem ι κ Λ σ ε α} {v v' : System ι κ σ ε α} (hm : Matches G w v) {i : ι} {c : κ}
    {held : List (Λ × Mode)} {s : σ} {x : LockAct Λ σ ε α} {y : Act σ ε α} (hxy : x.Implements G held s y)
    (hstable : ∀ j d held' z, j ≠ i → w.running j = some (d, held', z) → G.Stable held' w.shared s) (hs : v'.shared = s)
    (hi : v'.running i = (status c y).1) (hown : own i v'.history = own i w.history ++ (status c y).2)
    (hothers : ∀ j, j ≠ i → v'.running j = v.running j ∧ own j v'.history = own j v.history) :
    Matches G (w.resume i c held s x) v' := by
  have hself : own i (w.resume i c held s x).history = own i w.history ++ ended c x := by
    rw [LockSystem.resume, own_append, own_map_self]
  have hother : ∀ j, j ≠ i → own j (w.resume i c held s x).history = own j w.history := by
    intro j hj
    rw [LockSystem.resume, own_append, own_map_ne hj, List.append_nil]
  refine ⟨hs, fun j hj => ?_, fun j d held' z hj => ?_⟩
  · by_cases hji : j = i
    · subst hji
      rw [running_resume_self] at hj
      cases x <;> simp only [left, reduceCtorEq] at hj
      rename_i o
      obtain rfl : y = .ret o := hxy
      exact ⟨hi, hown.trans hself.symm⟩
    · rw [running_resume_ne hji] at hj
      rw [(hothers j hji).1, (hothers j hji).2, hother j hji]
      exact hm.idle j hj
  · by_cases hji : j = i
    · subst hji
      rw [running_resume_self] at hj
      obtain ⟨rfl, rfl, rfl, hend, -⟩ := left_eq_some hj
      refine ⟨y, hxy, hi, ?_⟩
      rw [hself, hend, List.append_nil]
      exact hown
    · rw [running_resume_ne hji] at hj
      obtain ⟨y', hz, hr, ho⟩ := hm.busy j d held' z hj
      rw [(hothers j hji).1, (hothers j hji).2, hother j hji]
      exact ⟨y', hz.mono (hstable j d held' z hji hj), hr, ho⟩

/-- A step of both. -/
private theorem Matches.resume_both {w : LockSystem ι κ Λ σ ε α} {v : System ι κ σ ε α} (hm : Matches G w v) {i : ι}
    {c : κ} {held : List (Λ × Mode)} {s : σ} {x : LockAct Λ σ ε α} {y : Act σ ε α} (hxy : x.Implements G held s y)
    (hstable : ∀ j d held' z, j ≠ i → w.running j = some (d, held', z) → G.Stable held' w.shared s)
    (hown : own i v.history = own i w.history) : Matches G (w.resume i c held s x) (v.resume i c s y) := by
  refine hm.resume hxy hstable (System.shared_resume ..) ?_ ?_ fun j hj => ?_
  · cases y <;> simp [System.resume, status]
  · rw [← hown]
    cases y <;> simp [System.resume, status]
  · cases y with
    | ret o => exact ⟨by simp [System.resume, hj], own_append_ne (Ne.symm hj) _ _⟩
    | atomic f k => exact ⟨by simp [System.resume, hj], rfl⟩

end

variable [DecidableEq ι] {body : κ → LockAct Λ σ ε α} {body' : κ → Act σ ε α} {P : Policy ι κ Λ σ ε α}

/-- A step that takes or releases a lock leaves the shared state as it is, and what it has locked is not needed by anyone
else; a read or a write is the next step without locks, or none. -/
theorem matched_step (hbody : ∀ c, (body c).Refines G (body' c)) {w w' : LockSystem ι κ Λ σ ε α} {v : System ι κ σ ε α}
    (hw : w.Exclusive) (hm : Matches G w v) {x : Choice ι κ} (h : Step body P w x w') :
    ∃ sched : List (Choice ι κ), sched.filter Choice.isCall = [x].filter Choice.isCall ∧
      Matches G w' (v.exec body' sched) := by
  have hsame : ∀ (i j : ι) (d : κ) (held : List (Λ × Mode)) (z : LockAct Λ σ ε α), j ≠ i →
      w.running j = some (d, held, z) → G.Stable held w.shared w.shared := fun _ _ _ held _ _ _ => .refl held _
  cases h with
  | @call i c hi =>
    refine ⟨[.call i c], rfl, ?_⟩
    obtain ⟨hidle, hown⟩ := hm.idle i hi
    have hnext := hm.resume_both (c := c) (hbody c [] w.shared) (hsame i) hown
    rw [← hm.shared] at hnext
    show Matches G _ (v.next body' (.call i c))
    rwa [System.next_call hidle, ← hm.shared]
  | @atomic i c held f k hi =>
    obtain ⟨y, hxy, hrun, hown⟩ := hm.busy i c held _ hi
    obtain ⟨hallows, hstep⟩ := hxy w.shared (.refl held _)
    have hstable : ∀ j d held' z, j ≠ i → w.running j = some (d, held', z) → G.Stable held' w.shared (f w.shared) :=
      fun j d held' z hji hj => hw.stable hji hi hj hallows
    rcases hstep with ⟨hf, hk⟩ | ⟨f', k', rfl, hf, hk⟩
    · refine ⟨[], rfl, ?_⟩
      rw [hf]
      exact hm.resume hk (hsame i) hm.shared hrun hown fun j _ => ⟨rfl, rfl⟩
    · refine ⟨[.step i], rfl, ?_⟩
      have hown' : own i v.history = own i w.history := hown.trans (List.append_nil _)
      show Matches G _ (v.next body' (.step i))
      rw [System.next_step hrun, hm.shared, hf]
      exact hm.resume_both hk hstable hown'
  | @acquire i c held l m k hi hg =>
    obtain ⟨y, hxy, hrun, hown⟩ := hm.busy i c held _ hi
    exact ⟨[], rfl, hm.resume (hxy w.shared (.refl held _)) (hsame i) hm.shared hrun hown fun j _ => ⟨rfl, rfl⟩⟩
  | @release i c held k hi =>
    obtain ⟨y, hxy, hrun, hown⟩ := hm.busy i c held _ hi
    exact ⟨[], rfl, hm.resume (hxy w.shared (.refl held _)) (hsame i) hm.shared hrun hown fun j _ => ⟨rfl, rfl⟩⟩

/-- Threads with locks do what threads without locks do under some schedule that issues the same calls. -/
theorem matched_run (hbody : ∀ c, (body c).Refines G (body' c)) {w w' : LockSystem ι κ Λ σ ε α} {v : System ι κ σ ε α}
    (hw : w.Exclusive) (hm : Matches G w v) {choices : List (Choice ι κ)} (h : Run body P w choices w') :
    ∃ sched : List (Choice ι κ), sched.filter Choice.isCall = choices.filter Choice.isCall ∧
      Matches G w' (v.exec body' sched) := by
  induction h with
  | nil => exact ⟨[], rfl, hm⟩
  | snoc hrun hstep ih =>
    obtain ⟨sched, hcalls, hm'⟩ := ih
    obtain ⟨sched', hcalls', hm''⟩ := matched_step hbody (run_exclusive hw hrun) hm' hstep
    refine ⟨sched ++ sched', ?_, ?_⟩
    · rw [List.filter_append, List.filter_append, hcalls, hcalls']
    · rw [System.exec_append]
      exact hm''

end LockSystem

end Conc
