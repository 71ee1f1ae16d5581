import RMemQueue.Lib.Threads

/-!
# Places in the code of calls

What is left of a call in flight is a program, and does not say where in its code the call is.  `Points` names the
places in the bodies of the calls: the code from a place on, and the place that the next step leads to.  `Points.track`
keeps the places of the threads of a system beside it.

`Points.placed_exec`: what is left of a call in flight is the code from its place on.
-/

namespace Conc

variable {ι κ σ ε α β τ P : Type}

namespace Act

/-- What is left of the call after its next step, which finds the state `s`. -/
def rest : Act σ ε α → σ → Act σ ε α
  | .ret o, _ => .ret o
  | .atomic _ k, s => k s

/-- A call that has not ended. -/
def Goes (x : Act σ ε α) : Prop := ∃ f k, x = .atomic f k

/-- A call that goes on after a critical section that has computed `o`. -/
theorem Goes.of_ret_bind {o : Outcome ε α} {g : α → Act σ ε β} (h : ((ret o).bind g).Goes) : ∃ a, o = .ok a := by
  obtain ⟨f, k, h⟩ := h
  cases o with
  | ok a => exact ⟨a, rfl⟩
  | err e => cases h
  | panic => cases h

/-- The result is wrapped only. -/
theorem Goes.of_bind_pure {x : Act σ ε α} {g : α → β} (h : (x >>= fun a => pure (g a)).Goes) : x.Goes := by
  obtain ⟨f', k', h⟩ := h
  rcases x with (a | e | _) | ⟨f, k⟩
  · cases h
  · cases h
  · cases h
  · exact ⟨f, k, rfl⟩

theorem Goes.rest_bind {x : Act σ ε α} (hx : x.Goes) (g : α → Act σ ε β) (s : σ) :
    (x >>= g).rest s = x.rest s >>= g := by
  obtain ⟨f', k', rfl⟩ := hx
  rfl

section

variable {s : σ} {t : τ} {L : Lens τ σ}

/-- A critical section `f` is left, and the call goes on with its result. -/
theorem Goes.step_bind {f : σ → Outcome ε α × σ} {g : α → Act σ ε β} (h : ((step f >>= g).rest s).Goes) :
    ∃ a, (f s).1 = .ok a ∧ (step f >>= g).rest s = g a := by
  obtain ⟨a, ha⟩ := Goes.of_ret_bind (o := (f s).1) h
  refine ⟨a, ha, ?_⟩
  show (Act.ret (f s).1).bind g = g a
  rw [ha]
  rfl

theorem Goes.read_bind {r : σ → Outcome ε α} {g : α → Act σ ε β} (h : ((read r >>= g).rest s).Goes) :
    ∃ a, r s = .ok a ∧ (read r >>= g).rest s = g a := by
  obtain ⟨a, ha⟩ := Goes.of_ret_bind (o := r s) h
  refine ⟨a, ha, ?_⟩
  show (Act.ret (r s)).bind g = g a
  rw [ha]
  rfl

/-- The same inside a call on a component. -/
theorem Goes.zoom_read_bind {γ : Type} {r : σ → Outcome ε α} {g : α → Act σ ε β} {j : β → Act τ ε γ}
    (h : (((read r >>= g).zoom L >>= j).rest t).Goes) :
    ∃ a, r (L.get t) = .ok a ∧ ((read r >>= g).zoom L >>= j).rest t = (g a).zoom L >>= j := by
  have hrest : ((read r >>= g).zoom L >>= j).rest t = ((Act.ret (r (L.get t))).bind g).zoom L >>= j := rfl
  rw [hrest] at h ⊢
  cases hr : r (L.get t) with
  | ok a => exact ⟨a, rfl, rfl⟩
  | err e =>
    rw [hr] at h
    obtain ⟨f, k, h⟩ := h
    cases h
  | panic =>
    rw [hr] at h
    obtain ⟨f, k, h⟩ := h
    cases h

/-- The last critical section of a call on a component. -/
theorem not_goes_zoom_step {γ : Type} {f : σ → Outcome ε α × σ} {g : α → Act σ ε β} {j : β → Act τ ε γ}
    (hg : ∀ a, ∃ o, g a = .ret o) (hj : ∀ b, ∃ o, j b = .ret o) : ¬(((step f >>= g).zoom L >>= j).rest t).Goes := by
  have hrest : ((step f >>= g).zoom L >>= j).rest t = ((Act.ret (f (L.get t)).1).bind g).zoom L >>= j := rfl
  rw [hrest]
  rintro ⟨f', k', h⟩
  cases hf : (f (L.get t)).1 with
  | ok a =>
    obtain ⟨o, ho⟩ := hg a
    rw [hf] at h
    replace h : (g a).zoom L >>= j = .atomic f' k' := h
    rw [ho] at h
    rcases o with b | e | _
    · obtain ⟨o, ho⟩ := hj b
      replace h : j b = .atomic f' k' := h
      rw [ho] at h
      cases h
    · cases h
    · cases h
  | err e =>
    rw [hf] at h
    cases h
  | panic =>
    rw [hf] at h
    cases h

end

end Act

/-- The places in the bodies of calls. -/
structure Points (body : κ → Act σ ε α) (P : Type) where
  /-- what a call has left at a place -/
  code : P → Act σ ε α
  start : κ → P
  /-- the place after the next step of a call, which finds the state -/
  advance : P → σ → P
  code_start : ∀ c, code (start c) = body c
  code_advance : ∀ p s, ((code p).rest s).Goes → code (advance p s) = (code p).rest s

namespace Points

variable [DecidableEq ι] {body : κ → Act σ ε α} (pts : Points body P)

/-- The places of the threads after a choice. -/
def move (w : System ι κ σ ε α) (place : ι → Option P) : Choice ι κ → ι → Option P
  | .call i c => if (w.running i).isNone then Function.update place i (some (pts.start c)) else place
  | .step i => Function.update place i ((place i).map fun p => pts.advance p w.shared)

/-- The places of the threads after a schedule. -/
def track (w : System ι κ σ ε α) (place : ι → Option P) : List (Choice ι κ) → ι → Option P
  | [] => place
  | x :: sched => track (w.next body x) (pts.move w place x) sched

/-- What is left of each call in flight is the code from its place on. -/
def Placed (w : System ι κ σ ε α) (place : ι → Option P) : Prop :=
  ∀ i c x, w.running i = some (c, x) → x.Goes ∧ ∃ p, place i = some p ∧ pts.code p = x

variable {pts} {w : System ι κ σ ε α} {place : ι → Option P}

omit [DecidableEq ι] in
theorem placed_init (s : σ) (place : ι → Option P) : pts.Placed (.init s : System ι κ σ ε α) place := by
  intro i c x h
  cases h

private theorem Placed.resume (h : pts.Placed w place) {i : ι} {c : κ} {s : σ} {x : Act σ ε α} {p : P}
    (hx : x.Goes → pts.code p = x) : pts.Placed (w.resume i c s x) (Function.update place i (some p)) := by
  intro j d y hy
  rcases System.running_resume hy with ⟨rfl, -, rfl, hgoes⟩ | ⟨hj, hy⟩
  · exact ⟨hgoes, p, Function.update_self .., hx hgoes⟩
  · obtain ⟨hgoes, q, hq, hcode⟩ := h j d y hy
    exact ⟨hgoes, q, by rw [Function.update_of_ne hj, hq], hcode⟩

/-- The step lemma. -/
theorem Placed.next (h : pts.Placed w place) (x : Choice ι κ) : pts.Placed (w.next body x) (pts.move w place x) := by
  cases x with
  | call i c =>
    cases hr : w.running i with
    | none =>
      rw [System.next_call hr, move, hr, Option.isNone_none, if_pos rfl]
      exact h.resume fun _ => pts.code_start c
    | some r =>
      have hn : w.next body (.call i c) = w := by simp only [System.next, hr]
      rw [hn, move, hr, Option.isNone_some, if_neg (by simp)]
      exact h
  | step i =>
    rcases hr : w.running i with _ | ⟨c, x⟩
    · -- nothing is in flight
      have hn : w.next body (.step i) = w := by simp only [System.next, hr]
      rw [hn, move]
      intro j d y hy
      have hj : j ≠ i := by
        rintro rfl
        rw [hr] at hy
        cases hy
      rw [Function.update_of_ne hj]
      exact h j d y hy
    · obtain ⟨⟨f, k, rfl⟩, p, hp, hcode⟩ := h i c x hr
      rw [move, hp, Option.map_some, System.next_step hr]
      refine h.resume fun hgoes => ?_
      have hadvance := pts.code_advance p w.shared
      rw [hcode] at hadvance
      exact hadvance hgoes

theorem track_concat (w : System ι κ σ ε α) (place : ι → Option P) (sched : List (Choice ι κ))
    (x : Choice ι κ) :
    pts.track w place (sched ++ [x]) = pts.move (w.exec body sched) (pts.track w place sched) x := by
  induction sched generalizing w place with
  | nil => rfl
  | cons y sched ih => exact ih (w.next body y) (pts.move w place y)

/-- The run lemma. -/
theorem placed_exec (h : pts.Placed w place) (sched : List (Choice ι κ)) :
    pts.Placed (w.exec body sched) (pts.track w place sched) := by
  induction sched generalizing w place with
  | nil => exact h
  | cons x sched ih => exact ih (h.next x)

end Points

end Conc
