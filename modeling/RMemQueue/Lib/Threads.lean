import RMemQueue.Lib.Act

/-!
# Threads and their interleavings

Threads issue calls on a shared state and take their atomic steps in any order.  A schedule is a list of choices
(which thread issues which call, which thread takes its next step); `System.exec` executes it, so a statement about
every interleaving is a statement about every schedule.  The history lists the calls that have ended, in the order
of their last steps.

`System.exec_invariant` is the rely–guarantee rule: when the last step of every call meets its guarantee and the
guarantees of the other threads are what each thread relies on, an invariant of the shared state and the history
that the guarantees preserve holds after every schedule.
-/

namespace Conc

variable {ι κ σ ε α : Type}

/-- Threads `ι` that issue the calls `κ`: the shared state, the call each thread has in flight, the ended calls. -/
structure System (ι κ σ ε α : Type) where
  shared : σ
  running : ι → Option (κ × Act σ ε α)
  history : List (ι × κ × Outcome ε α)

/-- No call is in flight or has ended. -/
def System.init (s : σ) : System ι κ σ ε α := ⟨s, fun _ => none, []⟩

/-- A thread issues a call, or takes the next step of the call it has in flight. -/
inductive Choice (ι κ : Type) where
  | call (i : ι) (c : κ)
  | step (i : ι)
  deriving DecidableEq

/-- What each thread relies on, what its steps inside a call do, and what the last step of a call does; the two latter
may depend on the calls that the thread has ended so far. -/
structure Protocol (ι κ σ ε α : Type) where
  rely : ι → σ → σ → Prop
  inner : ι → List (κ × Outcome ε α) → σ → σ → Prop
  last : ι → List (κ × Outcome ε α) → κ → σ → Outcome ε α → σ → Prop
  rely_refl : ∀ i s, rely i s s
  rely_trans : ∀ i s t u, rely i s t → rely i t u → rely i s u
  inner_rely : ∀ i j h s s', i ≠ j → inner j h s s' → rely i s s'
  last_rely : ∀ i j h c s o s', i ≠ j → last j h c s o s' → rely i s s'

/-- A choice of a schedule and the part before it are determined by its place. -/
theorem split_place {γ : Type} {l initial rest : List γ} {x : γ} (h : l = initial ++ x :: rest) :
    ∃ n < l.length, initial = l.take n ∧ l[n]? = some x := by
  subst h
  exact ⟨initial.length, by simp, by simp, by simp⟩

variable [DecidableEq ι]

/-- The calls that thread `i` has ended. -/
def own (i : ι) (h : List (ι × κ × Outcome ε α)) : List (κ × Outcome ε α) :=
  h.filterMap fun e => if e.1 = i then some e.2 else none

@[simp] theorem own_nil (i : ι) : own i ([] : List (ι × κ × Outcome ε α)) = [] := rfl

@[simp] theorem own_append_self (i : ι) (h : List (ι × κ × Outcome ε α)) (e : κ × Outcome ε α) :
    own i (h ++ [(i, e)]) = own i h ++ [e] := by
  simp [own]

theorem own_append_ne {i j : ι} (hij : j ≠ i) (h : List (ι × κ × Outcome ε α)) (e : κ × Outcome ε α) :
    own i (h ++ [(j, e)]) = own i h := by
  simp [own, hij]

namespace System

theorem mem_own {i : ι} {h : List (ι × κ × Outcome ε α)} {e : κ × Outcome ε α} : e ∈ own i h ↔ (i, e) ∈ h := by
  rw [own, List.mem_filterMap]
  constructor
  · rintro ⟨⟨j, e'⟩, he, h⟩
    split at h
    · rename_i hj
      subst hj
      obtain rfl := Option.some.inj h
      exact he
    · cases h
  · exact fun he => ⟨_, he, if_pos rfl⟩

/-- Thread `i` has reached the shared state `s` and has the given part of call `c` left. -/
def resume (w : System ι κ σ ε α) (i : ι) (c : κ) (s : σ) : Act σ ε α → System ι κ σ ε α
  | .ret o => ⟨s, Function.update w.running i none, w.history ++ [(i, c, o)]⟩
  | .atomic f k => ⟨s, Function.update w.running i (some (c, .atomic f k)), w.history⟩

/-- A choice that is not possible (the thread is busy, or has no call in flight) changes nothing. -/
def next (body : κ → Act σ ε α) (w : System ι κ σ ε α) : Choice ι κ → System ι κ σ ε α
  | .call i c =>
    match w.running i with
    | none => w.resume i c w.shared (body c)
    | some _ => w
  | .step i =>
    match w.running i with
    | some (c, .atomic f k) => w.resume i c (f w.shared) (k w.shared)
    | _ => w

@[simp] theorem shared_resume (w : System ι κ σ ε α) (i : ι) (c : κ) (s : σ) (x : Act σ ε α) :
    (w.resume i c s x).shared = s := by
  cases x <;> rfl

def exec (body : κ → Act σ ε α) (w : System ι κ σ ε α) (sched : List (Choice ι κ)) : System ι κ σ ε α :=
  sched.foldl (next body) w

@[simp] theorem exec_nil (body : κ → Act σ ε α) (w : System ι κ σ ε α) : exec body w [] = w := rfl

theorem exec_append (body : κ → Act σ ε α) (w : System ι κ σ ε α) (l₁ l₂ : List (Choice ι κ)) :
    exec body w (l₁ ++ l₂) = exec body (exec body w l₁) l₂ := List.foldl_append

/-- An invariant of the whole system that every choice of the schedule preserves. -/
theorem exec_induction {body : κ → Act σ ε α} {P : System ι κ σ ε α → Prop} (ok : Choice ι κ → Prop)
    (hnext : ∀ w x, ok x → P w → P (next body w x)) {sched : List (Choice ι κ)} (hs : ∀ x ∈ sched, ok x)
    {w : System ι κ σ ε α} (hw : P w) : P (exec body w sched) := by
  induction sched generalizing w with
  | nil => exact hw
  | cons x sched ih =>
    exact ih (fun y hy => hs y (List.mem_cons_of_mem _ hy)) (hnext w x (hs x (List.mem_cons_self ..)) hw)

/-- Induction over the choices of a schedule, each with the parts of the schedule before and after it. -/
theorem exec_stepwise {body : κ → Act σ ε α} {P : System ι κ σ ε α → Prop} {w : System ι κ σ ε α} (hw : P w)
    {sched : List (Choice ι κ)}
    (hnext : ∀ initial x rest, sched = initial ++ x :: rest →
      P (exec body w initial) → P (next body (exec body w initial) x)) : P (exec body w sched) := by
  induction sched generalizing w with
  | nil => exact hw
  | cons y sched ih =>
    exact ih (hnext [] y sched rfl hw) fun initial x rest h => hnext (y :: initial) x rest (by rw [h]; rfl)

section

variable {body : κ → Act σ ε α} {w : System ι κ σ ε α} {i : ι}

/-- The calls in flight after a thread has gone on: what is left of its own, and those of the others. -/
theorem running_resume {c : κ} {s : σ} {x : Act σ ε α} {j : ι} {d : κ} {y : Act σ ε α}
    (h : (w.resume i c s x).running j = some (d, y)) :
    (j = i ∧ c = d ∧ x = y ∧ ∃ f k, x = .atomic f k) ∨ (j ≠ i ∧ w.running j = some (d, y)) := by
  by_cases hj : j = i
  · subst hj
    cases x with
    | ret o => simp [resume] at h
    | atomic f k =>
      obtain ⟨rfl, rfl⟩ : c = d ∧ Act.atomic f k = y := by simpa [resume] using h
      exact Or.inl ⟨rfl, rfl, rfl, f, k, rfl⟩
  · refine Or.inr ⟨hj, ?_⟩
    cases x <;> simpa [resume, hj] using h

theorem next_call (hw : w.running i = none) (c : κ) : w.next body (.call i c) = w.resume i c w.shared (body c) := by
  simp only [System.next, hw]

theorem next_step {i : ι} {c : κ} {f : σ → σ} {k : σ → Act σ ε α} (hw : w.running i = some (c, .atomic f k)) :
    w.next body (.step i) = w.resume i c (f w.shared) (k w.shared) := by
  simp only [System.next, hw]

/-- A choice is not possible, issues a call of an idle thread, or takes a step of a call in flight. -/
theorem next_cases (body : κ → Act σ ε α) (w : System ι κ σ ε α) (x : Choice ι κ) :
    w.next body x = w ∨
    (∃ i c, x = .call i c ∧ w.running i = none ∧ w.next body x = w.resume i c w.shared (body c)) ∨
    (∃ i c f k, x = .step i ∧ w.running i = some (c, .atomic f k) ∧
      w.next body x = w.resume i c (f w.shared) (k w.shared)) := by
  cases x with
  | call i c =>
    cases hr : w.running i with
    | none => exact Or.inr (Or.inl ⟨i, c, rfl, hr, next_call hr c⟩)
    | some r => exact Or.inl (by simp only [System.next, hr])
  | step i =>
    rcases hr : w.running i with _ | ⟨c, _ | ⟨f, k⟩⟩
    · exact Or.inl (by simp only [System.next, hr])
    · exact Or.inl (by simp only [System.next, hr])
    · exact Or.inr (Or.inr ⟨i, c, f, k, rfl, hr, next_step hr⟩)

end

variable {P : Protocol ι κ σ ε α} {Inv : σ → List (ι × κ × Outcome ε α) → Prop}

/-- The invariant holds, and every call in flight still has its obligation. -/
def Sound (P : Protocol ι κ σ ε α) (Inv : σ → List (ι × κ × Outcome ε α) → Prop) (w : System ι κ σ ε α) : Prop :=
  Inv w.shared w.history ∧
    ∀ i c x, w.running i = some (c, x) →
      x.Pending (P.rely i) (P.inner i (own i w.history)) (P.last i (own i w.history) c) w.shared

private theorem sound_resume {w : System ι κ σ ε α} (hw : w.Sound P Inv)
    (hinner : ∀ i s s' h, P.inner i (own i h) s s' → Inv s h → Inv s' h)
    (hlast : ∀ i c s o s' h, P.last i (own i h) c s o s' → Inv s h → Inv s' (h ++ [(i, c, o)]))
    {i : ι} {c : κ} {s : σ} {x : Act σ ε α}
    (hx : x.After (P.rely i) (P.inner i (own i w.history)) (P.last i (own i w.history) c) w.shared s) :
    (w.resume i c s x).Sound P Inv := by
  cases x with
  | ret o =>
    refine ⟨hlast i c _ o s _ hx hw.1, fun j d y hy => ?_⟩
    rcases running_resume hy with ⟨-, -, -, f, k, h⟩ | ⟨hji, hy⟩
    · cases h
    · show y.Pending _ (P.inner j (own j (w.history ++ [(i, c, o)]))) (P.last j (own j (w.history ++ [(i, c, o)])) d) s
      rw [own_append_ne (Ne.symm hji)]
      exact (hw.2 j d y hy).rely (P.rely_trans j) (P.last_rely j i _ c _ o s hji hx)
  | atomic f k =>
    refine ⟨hinner i _ s _ hx.1 hw.1, fun j d y hy => ?_⟩
    rcases running_resume hy with ⟨rfl, rfl, rfl, -⟩ | ⟨hji, hy⟩
    · exact hx.2
    · exact (hw.2 j d y hy).rely (P.rely_trans j) (P.inner_rely j i _ _ s hji hx.1)

/-- One choice keeps the invariant and the obligations. -/
theorem Sound.next {body : κ → Act σ ε α} {w : System ι κ σ ε α} (hw : w.Sound P Inv) (allowed : ι → κ → Prop)
    (hstart : ∀ i c s h, allowed i c → Inv s h →
      (body c).After (P.rely i) (P.inner i (own i h)) (P.last i (own i h) c) s s)
    (hinner : ∀ i s s' h, P.inner i (own i h) s s' → Inv s h → Inv s' h)
    (hlast : ∀ i c s o s' h, P.last i (own i h) c s o s' → Inv s h → Inv s' (h ++ [(i, c, o)]))
    (x : Choice ι κ) (hx : ∀ i c, x = .call i c → allowed i c) : (w.next body x).Sound P Inv := by
  rcases w.next_cases body x with h | ⟨i, c, rfl, -, h⟩ | ⟨i, c, f, k, rfl, hr, h⟩
  · rw [h]
    exact hw
  · rw [h]
    exact sound_resume hw hinner hlast (hstart i c _ _ (hx i c rfl) hw.1)
  · rw [h]
    exact sound_resume hw hinner hlast (hw.2 i c _ hr _ (P.rely_refl i _))

/-- The rely–guarantee rule: every schedule whose calls are allowed keeps the invariant. -/
theorem exec_invariant {body : κ → Act σ ε α} (P : Protocol ι κ σ ε α)
    (Inv : σ → List (ι × κ × Outcome ε α) → Prop) (allowed : ι → κ → Prop)
    (hstart : ∀ i c s h, allowed i c → Inv s h →
      (body c).After (P.rely i) (P.inner i (own i h)) (P.last i (own i h) c) s s)
    (hinner : ∀ i s s' h, P.inner i (own i h) s s' → Inv s h → Inv s' h)
    (hlast : ∀ i c s o s' h, P.last i (own i h) c s o s' → Inv s h → Inv s' (h ++ [(i, c, o)]))
    {sched : List (Choice ι κ)} (hs : ∀ i c, .call i c ∈ sched → allowed i c) {s : σ} (hinit : Inv s []) :
    Inv (exec body (init s) sched).shared (exec body (init s) sched).history := by
  have hsound : (exec body (init s) sched).Sound P Inv := by
    refine exec_induction (fun x => ∀ i c, x = .call i c → allowed i c) ?_ ?_ ⟨hinit, ?_⟩
    · exact fun w x hx hw => hw.next allowed hstart hinner hlast x hx
    · intro x hx i c hxc
      exact hs i c (hxc ▸ hx)
    · intro i c x hx
      simp [init] at hx
  exact hsound.1

/-! ### One call among others -/

/-- What is left of each call in flight takes the steps that the call may take. -/
def Carries (Q : κ → σ → σ → Prop) (w : System ι κ σ ε α) : Prop :=
  ∀ i c x, w.running i = some (c, x) → x.Always (Q c)

variable {Q : κ → σ → σ → Prop} {body : κ → Act σ ε α} {w : System ι κ σ ε α}

omit [DecidableEq ι] in
theorem carries_init (s : σ) : Carries Q (init s : System ι κ σ ε α) := by
  intro i c x h
  cases h

private theorem carries_resume (hw : w.Carries Q) {i : ι} {c : κ} {x : Act σ ε α} (hx : x.Always (Q c)) (s : σ) :
    (w.resume i c s x).Carries Q := by
  intro j d y hy
  rcases running_resume hy with ⟨-, rfl, rfl, -⟩ | ⟨-, hy⟩
  · exact hx
  · exact hw j d y hy

theorem Carries.next (hbody : ∀ c, (body c).Always (Q c)) (hw : w.Carries Q) (x : Choice ι κ) :
    (w.next body x).Carries Q := by
  rcases w.next_cases body x with h | ⟨i, c, -, -, h⟩ | ⟨i, c, f, k, -, hr, h⟩
  · rwa [h]
  · rw [h]
    exact carries_resume hw (hbody c) _
  · rw [h]
    exact carries_resume hw (hw i c _ hr w.shared).2 _

theorem Carries.exec (hbody : ∀ c, (body c).Always (Q c)) (hw : w.Carries Q) (sched : List (Choice ι κ)) :
    (w.exec body sched).Carries Q := by
  induction sched generalizing w with
  | nil => exact hw
  | cons x sched ih => exact ih (hw.next hbody x)

/-- The calls in flight are among the given ones. -/
def InFlight (allowed : ι → κ → Prop) (w : System ι κ σ ε α) : Prop :=
  ∀ i c x, w.running i = some (c, x) → allowed i c

private theorem inFlight_resume {allowed : ι → κ → Prop} (hw : w.InFlight allowed) {i : ι} {c : κ} (hc : allowed i c)
    (s : σ) (x : Act σ ε α) : (w.resume i c s x).InFlight allowed := by
  intro j d y hy
  rcases running_resume hy with ⟨rfl, rfl, -, -⟩ | ⟨-, hy⟩
  · exact hc
  · exact hw j d y hy

theorem InFlight.next {allowed : ι → κ → Prop} (hw : w.InFlight allowed) {x : Choice ι κ}
    (hx : ∀ i c, x = .call i c → allowed i c) : (w.next body x).InFlight allowed := by
  rcases w.next_cases body x with h | ⟨i, c, rfl, -, h⟩ | ⟨i, c, f, k, -, hr, h⟩
  · rwa [h]
  · rw [h]
    exact inFlight_resume hw (hx i c rfl) _ _
  · rw [h]
    exact inFlight_resume hw (hw i c _ hr) _ _

/-- A choice takes an `R`-step when the calls of the system are made of such. -/
theorem next_related {R : σ → σ → Prop} (refl : ∀ s, R s s) {allowed : ι → κ → Prop}
    (hR : ∀ i c, allowed i c → ∀ s s', Q c s s' → R s s') (hw : w.Carries Q) (hfly : w.InFlight allowed)
    (x : Choice ι κ) : R w.shared (w.next body x).shared := by
  rcases w.next_cases body x with h | ⟨i, c, rfl, -, h⟩ | ⟨i, c, f, k, -, hr, h⟩
  · rw [h]
    exact refl _
  · rw [h, shared_resume]
    exact refl _
  · rw [h, shared_resume]
    exact hR i c (hfly i c _ hr) _ _ (hw i c _ hr w.shared).1

theorem InFlight.exec {allowed : ι → κ → Prop} (hw : w.InFlight allowed) {sched : List (Choice ι κ)}
    (hs : ∀ i c, .call i c ∈ sched → allowed i c) : (w.exec body sched).InFlight allowed := by
  induction sched generalizing w with
  | nil => exact hw
  | cons x sched ih =>
    exact ih (hw.next fun i c h => hs i c (h ▸ List.mem_cons_self ..)) fun i c h => hs i c (List.mem_cons_of_mem _ h)

/-- When the calls in flight and those that are issued only take `R`-steps, so does the schedule. -/
theorem exec_related {R : σ → σ → Prop} (refl : ∀ s, R s s) (trans : ∀ s t u, R s t → R t u → R s u)
    (allowed : ι → κ → Prop) (hbody : ∀ c, (body c).Always (Q c))
    (hR : ∀ i c, allowed i c → ∀ s s', Q c s s' → R s s') (hw : w.Carries Q) (hfly : w.InFlight allowed)
    {sched : List (Choice ι κ)} (hs : ∀ i c, .call i c ∈ sched → allowed i c) :
    R w.shared (w.exec body sched).shared := by
  induction sched generalizing w with
  | nil => exact refl _
  | cons x sched ih =>
    have hrest := ih (hw.next hbody x) (hfly.next fun i c h => hs i c (h ▸ List.mem_cons_self ..))
      fun i c h => hs i c (List.mem_cons_of_mem _ h)
    exact trans _ _ _ (next_related refl hR hw hfly x) hrest

/-- Since the history was `h`, thread `i` has issued the call `c` and no other one; what is left of the call has its
obligation, or the call has ended and only `R`-steps have been taken since. -/
def One (R N : σ → σ → Prop) (F : σ → Outcome ε α → σ → Prop) (i : ι) (c : κ) (h : List (ι × κ × Outcome ε α))
    (w : System ι κ σ ε α) : Prop :=
  ∃ h', w.history = h ++ h' ∧
    ((∃ x, w.running i = some (c, x) ∧ x.Pending R N F w.shared ∧ ∀ e ∈ h', e.1 ≠ i) ∨
      (w.running i = none ∧ ∃ s o s', F s o s' ∧ R s' w.shared ∧ (i, c, o) ∈ h' ∧ ∀ e ∈ h', e.1 = i → e = (i, c, o)))

variable {R N : σ → σ → Prop} {F : σ → Outcome ε α → σ → Prop} {i : ι} {c : κ} {h : List (ι × κ × Outcome ε α)}

/-- The thread of the call reaches the state `s` with `x` left. -/
private theorem one_resume (refl : ∀ s, R s s) {h' : List (ι × κ × Outcome ε α)} (hh : w.history = h ++ h')
    (hno : ∀ e ∈ h', e.1 ≠ i) {s₀ s : σ} {x : Act σ ε α} (hx : x.After R N F s₀ s) : One R N F i c h (w.resume i c s x) := by
  cases x with
  | ret o =>
    refine ⟨h' ++ [(i, c, o)], by simp [resume, hh], Or.inr ⟨by simp [resume], s₀, o, s, hx, refl s, by simp, ?_⟩⟩
    intro e he hei
    rcases List.mem_append.1 he with he | he
    · exact absurd hei (hno e he)
    · exact List.mem_singleton.1 he
  | atomic f k => exact ⟨h', hh, Or.inl ⟨.atomic f k, by simp [resume], hx.2, hno⟩⟩

private theorem one_call (refl : ∀ s, R s s) (hidle : w.running i = none) (hc : (body c).After R N F w.shared w.shared) :
    One R N F i c w.history (w.next body (.call i c)) := by
  rw [next_call hidle]
  exact one_resume refl (List.append_nil _).symm (by simp) hc

/-- A step of the call, or of another thread. -/
private theorem One.next (refl : ∀ s, R s s) (trans : ∀ s t u, R s t → R t u → R s u) (hw : One R N F i c h w)
    {x : Choice ι κ} (hx : ∀ c', x ≠ .call i c')
    (hother : x ≠ .step i → R w.shared (w.next body x).shared) : One R N F i c h (w.next body x) := by
  obtain ⟨h', hh, hcase⟩ := hw
  -- a choice of another thread
  have hframe : ∀ (j : ι) (d : κ) (s : σ) (y : Act σ ε α), j ≠ i → R w.shared s → One R N F i c h (w.resume j d s y) := by
    intro j d s y hj hR
    have hrun : (w.resume j d s y).running i = w.running i := by
      cases y <;> simp [resume, Ne.symm hj]
    have hhist : ∃ h'', (w.resume j d s y).history = h ++ (h' ++ h'') ∧ ∀ e ∈ h'', e.1 ≠ i := by
      cases y with
      | ret o => exact ⟨[(j, d, o)], by simp [resume, hh], by simp [hj]⟩
      | atomic f k => exact ⟨[], by simp [resume, hh], by simp⟩
    obtain ⟨h'', hh'', hno⟩ := hhist
    refine ⟨h' ++ h'', hh'', ?_⟩
    rw [hrun, shared_resume]
    rcases hcase with ⟨z, hz, hpend, hnoi⟩ | ⟨hz, s₀, o, s₁, hF, hR', hmem, honly⟩
    · refine Or.inl ⟨z, hz, hpend.rely trans hR, fun e he => ?_⟩
      exact (List.mem_append.1 he).elim (hnoi e) (hno e)
    · refine Or.inr ⟨hz, s₀, o, s₁, hF, trans _ _ _ hR' hR, List.mem_append_left _ hmem, fun e he hei => ?_⟩
      exact (List.mem_append.1 he).elim (fun he => honly e he hei) fun he => absurd hei (hno e he)
  rcases w.next_cases body x with hn | ⟨j, d, rfl, hr, hn⟩ | ⟨j, d, f, k, rfl, hr, hn⟩
  · rw [hn]
    exact ⟨h', hh, hcase⟩
  · rw [hn]
    have hj : j ≠ i := by
      rintro rfl
      exact hx d rfl
    exact hframe j d _ _ hj (refl _)
  · by_cases hj : j = i
    · subst hj
      rcases hcase with ⟨z, hz, hpend, hnoi⟩ | ⟨hz, -⟩
      · rw [hr] at hz
        obtain ⟨rfl, rfl⟩ := Prod.mk.inj (Option.some.inj hz)
        rw [hn]
        exact one_resume refl hh hnoi (hpend _ (refl _))
      · rw [hr] at hz
        cases hz
    · rw [hn]
      apply hframe j d _ _ hj
      have := hother fun he => hj (Choice.step.inj he)
      rwa [hn, shared_resume] at this

private theorem one_exec (refl : ∀ s, R s s) (trans : ∀ s t u, R s t → R t u → R s u) {allowed : κ → Prop}
    (hbody : ∀ c, (body c).Always (Q c)) (hR : ∀ c, allowed c → ∀ s s', Q c s s' → R s s') (hw : w.Carries Q)
    (hfly : w.InFlight fun j d => j ≠ i → allowed d) (hone : One R N F i c h w) {sched : List (Choice ι κ)}
    (hs : ∀ j d, .call j d ∈ sched → j ≠ i ∧ allowed d) : One R N F i c h (w.exec body sched) := by
  induction sched generalizing w with
  | nil => exact hone
  | cons x sched ih =>
    have hx : ∀ j d, x = .call j d → j ≠ i ∧ allowed d := fun j d h => hs j d (h ▸ List.mem_cons_self ..)
    refine ih (hw.next hbody x) (hfly.next fun j d h hj => (hx j d h).2)
      (hone.next refl trans (fun d h => (hx i d h).1 rfl) fun hne => ?_)
      fun j d h => hs j d (List.mem_cons_of_mem _ h)
    rcases w.next_cases body x with hn | ⟨j, d, rfl, -, hn⟩ | ⟨j, d, f, k, rfl, hr, hn⟩
    · rw [hn]
      exact refl _
    · rw [hn, shared_resume]
      exact refl _
    · rw [hn, shared_resume]
      exact hR d (hfly j d _ hr fun h => hne (by rw [h])) _ _ (hw j d _ hr w.shared).1

/-- A call that is issued in some state of a system, among calls of other threads that only take `R`-steps. -/
theorem one_of_call (refl : ∀ s, R s s) (trans : ∀ s t u, R s t → R t u → R s u) (allowed : κ → Prop)
    (hbody : ∀ c, (body c).Always (Q c)) (hR : ∀ c, allowed c → ∀ s s', Q c s s' → R s s') (hw : w.Carries Q)
    (hidle : w.running i = none) (hfly : w.InFlight fun _ => allowed)
    (hc : (body c).After R N F w.shared w.shared) {sched : List (Choice ι κ)}
    (hs : ∀ j d, .call j d ∈ sched → j ≠ i ∧ allowed d) :
    One R N F i c w.history (w.exec body (.call i c :: sched)) ∧
      (w.exec body (.call i c :: sched)).InFlight fun j d => j ≠ i → allowed d := by
  have hfly' : (w.next body (.call i c)).InFlight fun j d => j ≠ i → allowed d := by
    have hweak : w.InFlight fun j d => j ≠ i → allowed d := fun j d x hx _ => hfly j d x hx
    refine hweak.next fun j d h hj => ?_
    obtain ⟨rfl, -⟩ := Choice.call.inj h
    exact absurd rfl hj
  exact ⟨one_exec refl trans hbody hR (hw.next hbody _) hfly' (one_call refl hidle hc) hs,
    hfly'.exec fun j d h _ => (hs j d h).2⟩

end System

end Conc
