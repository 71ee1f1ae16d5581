import Mathlib.Data.List.Forall2
import Mathlib.Logic.Function.Basic

/-!
# Calls made of atomic steps

A call on a shared state is a sequence of atomic steps (critical sections) with local computation between them; it
ends by returning a value, by returning an error, or by panicking.  One definition of a call serves both readings:
`Act.run` executes it alone, and the threads of `Lib.Threads` execute its steps interleaved with those of others.

* `Act.Always R`: every step of the call, from whatever state it is taken, is a step of the relation `R`.
* `Act.After R N F`: a rely–guarantee judgement.  If other threads only make `R`-steps, every step but the last is
  an `N`-step, and the last one together with the outcome meets `F`.
-/

namespace Conc

/-- How a call ends. -/
inductive Outcome (ε α : Type) where
  | ok (a : α)
  | err (e : ε)
  | panic
  deriving DecidableEq, Repr

/-- A call on the shared state `σ` with errors `ε` and results `α`: it has ended, or it takes an atomic step `f`
and goes on with what the step has seen of the state before it. -/
inductive Act (σ ε α : Type) where
  | ret (o : Outcome ε α)
  | atomic (f : σ → σ) (k : σ → Act σ ε α)

/-- A part of a larger state, with the laws of getting and putting. -/
structure Lens (τ σ : Type) where
  get : τ → σ
  put : τ → σ → τ
  get_put : ∀ t s, get (put t s) = s
  put_get : ∀ t, put t (get t) = t
  put_put : ∀ t s s', put (put t s) s' = put t s'

variable {σ τ ε α β : Type}

namespace Outcome

/-- Go on after a normal return. -/
def andThen (o : Outcome ε α) (s : σ) (g : α → σ → Outcome ε β × σ) : Outcome ε β × σ :=
  match o with
  | .ok a => g a s
  | .err e => (.err e, s)
  | .panic => (.panic, s)

@[simp] theorem andThen_ok (a : α) (s : σ) (g : α → σ → Outcome ε β × σ) : (ok a).andThen s g = g a s := rfl

@[simp] theorem andThen_err (e : ε) (s : σ) (g : α → σ → Outcome ε β × σ) :
    (err e).andThen s g = (err e, s) := rfl

@[simp] theorem andThen_panic (s : σ) (g : α → σ → Outcome ε β × σ) :
    (panic : Outcome ε α).andThen s g = (panic, s) := rfl

/-- The outcome with its value wrapped. -/
def map (f : α → β) : Outcome ε α → Outcome ε β
  | .ok a => .ok (f a)
  | .err e => .err e
  | .panic => .panic

/-- The outcome of a call whose errors are caught; a panic is not caught. -/
def caught : Outcome ε α → Outcome ε (Except ε α)
  | .ok a => .ok (.ok a)
  | .err e => .ok (.error e)
  | .panic => .panic

@[simp] theorem caught_ok (a : α) : (ok a : Outcome ε α).caught = .ok (.ok a) := rfl

@[simp] theorem caught_err (e : ε) : (err e : Outcome ε α).caught = .ok (.error e) := rfl

@[simp] theorem caught_panic : (panic : Outcome ε α).caught = .panic := rfl

end Outcome

namespace Act

def bind : Act σ ε α → (α → Act σ ε β) → Act σ ε β
  | .ret (.ok a), g => g a
  | .ret (.err e), _ => .ret (.err e)
  | .ret .panic, _ => .ret .panic
  | .atomic f k, g => .atomic f fun s => (k s).bind g

instance : Monad (Act σ ε) where
  pure a := .ret (.ok a)
  bind := Act.bind

/-- One atomic step that computes the outcome of the call. -/
def step (f : σ → Outcome ε α × σ) : Act σ ε α :=
  .atomic (fun s => (f s).2) fun s => .ret (f s).1

/-- One atomic step that only reads. -/
def read (g : σ → Outcome ε α) : Act σ ε α :=
  .atomic (fun s => s) fun s => .ret (g s)

/-- One atomic step that only writes. -/
def modify (f : σ → σ) : Act σ ε Unit :=
  .atomic f fun _ => .ret (.ok ())

def fail (e : ε) : Act σ ε α := .ret (.err e)

def panicked : Act σ ε α := .ret .panic

/-- The call with its errors caught. -/
def attempt : Act σ ε α → Act σ ε (Except ε α)
  | .ret o => .ret o.caught
  | .atomic f k => .atomic f fun s => (k s).attempt

/-- The call on a part of a larger state. -/
def zoom (L : Lens τ σ) : Act σ ε α → Act τ ε α
  | .ret o => .ret o
  | .atomic f k => .atomic (fun t => L.put t (f (L.get t))) fun t => (k (L.get t)).zoom L

/-- One call after the other. -/
def forEach (f : α → Act σ ε β) : List α → Act σ ε (List β)
  | [] => pure []
  | a :: as => do
    let b ← f a
    let bs ← forEach f as
    pure (b :: bs)

theorem bind_assoc {γ : Type} (x : Act σ ε α) (g : α → Act σ ε β) (h : β → Act σ ε γ) :
    (x >>= g) >>= h = x >>= fun a => g a >>= h := by
  show (x.bind g).bind h = x.bind fun a => (g a).bind h
  induction x with
  | ret o => cases o <;> rfl
  | atomic f k ih =>
    show atomic f _ = atomic f _
    exact congrArg (atomic f) (funext ih)

theorem forEach_cons_bind {γ : Type} (f : α → Act σ ε β) (a : α) (l : List α) (h : List β → Act σ ε γ) :
    (forEach f (a :: l) >>= h) = f a >>= fun b => forEach f l >>= fun bs => h (b :: bs) := by
  rw [forEach, bind_assoc]
  exact congrArg (f a >>= ·) (funext fun b => bind_assoc ..)

theorem forEach_singleton_bind {γ : Type} (f : α → Act σ ε β) (a : α) (h : List β → Act σ ε γ) :
    (forEach f [a] >>= h) = f a >>= fun b => h [b] :=
  bind_assoc (f a) (fun b => pure [b]) h

/-! ### The call executed alone -/

/-- The outcome and the final state when no other thread takes a step. -/
def run : Act σ ε α → σ → Outcome ε α × σ
  | .ret o, s => (o, s)
  | .atomic f k, s => (k s).run (f s)

@[simp] theorem run_ret (o : Outcome ε α) (s : σ) : (ret o).run s = (o, s) := rfl

@[simp] theorem run_pure (a : α) (s : σ) : (pure a : Act σ ε α).run s = (.ok a, s) := rfl

@[simp] theorem run_fail (e : ε) (s : σ) : (fail e : Act σ ε α).run s = (.err e, s) := rfl

@[simp] theorem run_panicked (s : σ) : (panicked : Act σ ε α).run s = (.panic, s) := rfl

@[simp] theorem run_step (f : σ → Outcome ε α × σ) (s : σ) : (step f).run s = f s := rfl

@[simp] theorem run_read (g : σ → Outcome ε α) (s : σ) : (read g).run s = (g s, s) := rfl

@[simp] theorem run_modify (f : σ → σ) (s : σ) : (modify f : Act σ ε Unit).run s = (.ok (), f s) := rfl

@[simp] theorem run_bind (x : Act σ ε α) (g : α → Act σ ε β) (s : σ) :
    (x >>= g).run s = (x.run s).1.andThen (x.run s).2 fun a s' => (g a).run s' := by
  show (x.bind g).run s = _
  induction x generalizing s with
  | ret o => cases o <;> rfl
  | atomic f k ih => exact ih s (f s)

@[simp] theorem run_attempt (x : Act σ ε α) (s : σ) :
    x.attempt.run s = ((x.run s).1.caught, (x.run s).2) := by
  induction x generalizing s with
  | ret o => rfl
  | atomic f k ih => exact ih s (f s)

@[simp] theorem run_zoom (L : Lens τ σ) (x : Act σ ε α) (t : τ) :
    (x.zoom L).run t = ((x.run (L.get t)).1, L.put t (x.run (L.get t)).2) := by
  induction x generalizing t with
  | ret o => simp [zoom, run, L.put_get]
  | atomic f k ih =>
    show ((k (L.get t)).zoom L).run (L.put t (f (L.get t))) = _
    rw [ih, L.get_put, L.put_put]
    rfl

theorem run_forEach {f : α → Act σ ε β} {g : α → β} {s : σ} {l : List α}
    (h : ∀ a ∈ l, (f a).run s = (.ok (g a), s)) : (forEach f l).run s = (.ok (l.map g), s) := by
  induction l with
  | nil => rfl
  | cons a l ih =>
    rw [forEach, run_bind, h a (List.mem_cons_self ..), Outcome.andThen_ok, run_bind,
      ih fun b hb => h b (List.mem_cons_of_mem _ hb)]
    rfl

theorem run_forEach_option {f : α → Act σ ε β} {g : α → Option β} {s : σ} {l : List α}
    (h : ∀ a ∈ l, (f a).run s = ((g a).elim .panic .ok, s)) :
    (forEach f l).run s = ((l.mapM g).elim .panic .ok, s) := by
  induction l with
  | nil => rfl
  | cons a l ih =>
    rw [forEach, run_bind, h a (List.mem_cons_self ..), List.mapM_cons]
    cases g a with
    | none => rfl
    | some b =>
      simp only [Option.elim_some, Outcome.andThen_ok]
      rw [run_bind, ih fun b hb => h b (List.mem_cons_of_mem _ hb)]
      cases l.mapM g <;> rfl

/-! ### Every step is a step of a relation -/

/-- Every step of the call, from any state, is an `R`-step. -/
def Always (R : σ → σ → Prop) : Act σ ε α → Prop
  | .ret _ => True
  | .atomic f k => ∀ s, R s (f s) ∧ (k s).Always R

@[simp] theorem always_ret (R : σ → σ → Prop) (o : Outcome ε α) : (ret o).Always R := trivial

@[simp] theorem always_pure (R : σ → σ → Prop) (a : α) : (pure a : Act σ ε α).Always R := trivial

@[simp] theorem always_fail (R : σ → σ → Prop) (e : ε) : (fail e : Act σ ε α).Always R := trivial

@[simp] theorem always_panicked (R : σ → σ → Prop) : (panicked : Act σ ε α).Always R := trivial

theorem always_step {R : σ → σ → Prop} {f : σ → Outcome ε α × σ} (h : ∀ s, R s (f s).2) : (step f).Always R :=
  fun s => ⟨h s, trivial⟩

theorem always_read {R : σ → σ → Prop} (hR : ∀ s, R s s) (g : σ → Outcome ε α) : (read g).Always R :=
  fun s => ⟨hR s, trivial⟩

theorem always_modify {R : σ → σ → Prop} {f : σ → σ} (h : ∀ s, R s (f s)) :
    (modify f : Act σ ε Unit).Always R :=
  fun s => ⟨h s, trivial⟩

theorem Always.bind {R : σ → σ → Prop} {x : Act σ ε α} {g : α → Act σ ε β} (hx : x.Always R)
    (hg : ∀ a, (g a).Always R) : (x >>= g).Always R := by
  show (x.bind g).Always R
  induction x with
  | ret o =>
    cases o with
    | ok a => exact hg a
    | err e => trivial
    | panic => trivial
  | atomic f k ih => exact fun s => ⟨(hx s).1, ih s (hx s).2⟩

theorem Always.forEach {R : σ → σ → Prop} {f : α → Act σ ε β} (h : ∀ a, (f a).Always R) (l : List α) :
    (forEach f l).Always R := by
  induction l with
  | nil => trivial
  | cons a l ih => exact (h a).bind fun _ => ih.bind fun _ => trivial

theorem Always.attempt {R : σ → σ → Prop} {x : Act σ ε α} (hx : x.Always R) : x.attempt.Always R := by
  induction x with
  | ret o => trivial
  | atomic f k ih => exact fun s => ⟨(hx s).1, ih s (hx s).2⟩

theorem Always.zoom {R : σ → σ → Prop} {S : τ → τ → Prop} {L : Lens τ σ} {x : Act σ ε α} (hx : x.Always R)
    (h : ∀ t s, R (L.get t) s → S t (L.put t s)) : (x.zoom L).Always S := by
  induction x with
  | ret o => trivial
  | atomic f k ih => exact fun t => ⟨h t _ (hx _).1, ih _ (hx _).2⟩

/-- A call on a component keeps what the component is not part of. -/
theorem always_part_zoom {β : Type} {L : Lens τ σ} {part : τ → β} (x : Act σ ε α)
    (hpart : ∀ t s, part (L.put t s) = part t) : (x.zoom L).Always fun t t' => part t' = part t := by
  induction x with
  | ret o => trivial
  | atomic f k ih => exact fun t => ⟨hpart t _, ih _⟩

theorem Always.mono {R S : σ → σ → Prop} {x : Act σ ε α} (hx : x.Always R) (h : ∀ s s', R s s' → S s s') :
    x.Always S := by
  induction x with
  | ret o => trivial
  | atomic f k ih => exact fun s => ⟨h _ _ (hx s).1, ih s (hx s).2⟩

/-- What every step does, the call executed alone does. -/
theorem Always.run {R : σ → σ → Prop} {x : Act σ ε α} (hx : x.Always R) (refl : ∀ s, R s s)
    (trans : ∀ s t u, R s t → R t u → R s u) (s : σ) : R s (x.run s).2 := by
  induction x generalizing s with
  | ret o => exact refl s
  | atomic f k ih => exact trans _ _ _ (hx s).1 (ih s (hx s).2 (f s))

/-- No step of the call changes the state. -/
def ReadOnly (x : Act σ ε α) : Prop := x.Always fun s s' => s' = s

theorem ReadOnly.always {R : σ → σ → Prop} {x : Act σ ε α} (hx : x.ReadOnly) (refl : ∀ s, R s s) : x.Always R :=
  Always.mono hx fun s _ h => h ▸ refl s

theorem readOnly_read (g : σ → Outcome ε α) : (read g).ReadOnly := always_read (fun _ => rfl) g

theorem ReadOnly.bind {x : Act σ ε α} {g : α → Act σ ε β} (hx : x.ReadOnly) (hg : ∀ a, (g a).ReadOnly) :
    (x >>= g).ReadOnly :=
  Always.bind hx hg

theorem ReadOnly.run {x : Act σ ε α} (hx : x.ReadOnly) (s : σ) : (x.run s).2 = s :=
  Always.run hx (fun _ => rfl) (fun _ _ _ h₁ h₂ => h₂.trans h₁) s

/-! ### Rely and guarantee -/

/-- `x` is what is left of a call after its step from `s` to `s'`.  If the steps of other threads are `R`-steps,
every step of the call but the last is an `N`-step, and its last step meets `F`. -/
def After (R N : σ → σ → Prop) (F : σ → Outcome ε α → σ → Prop) : Act σ ε α → σ → σ → Prop
  | .ret o, s, s' => F s o s'
  | .atomic f k, s, s' => N s s' ∧ ∀ t, R s' t → (k t).After R N F t (f t)

/-- The obligation left to a call at state `s`, other threads being next to move. -/
def Pending (R N : σ → σ → Prop) (F : σ → Outcome ε α → σ → Prop) : Act σ ε α → σ → Prop
  | .ret _, _ => True
  | .atomic f k, s => ∀ t, R s t → (k t).After R N F t (f t)

theorem Pending.rely {R N : σ → σ → Prop} {F : σ → Outcome ε α → σ → Prop} {x : Act σ ε α} {s t : σ}
    (trans : ∀ s t u, R s t → R t u → R s u) (h : x.Pending R N F s) (hst : R s t) : x.Pending R N F t := by
  cases x with
  | ret o => trivial
  | atomic f k => exact fun u hu => h u (trans _ _ _ hst hu)

theorem After.pending {R N : σ → σ → Prop} {F : σ → Outcome ε α → σ → Prop} {x : Act σ ε α} {s s' : σ}
    (h : x.After R N F s s') : x.Pending R N F s' := by
  cases x with
  | ret o => trivial
  | atomic f k => exact h.2

theorem after_read {R N : σ → σ → Prop} {F : σ → Outcome ε α → σ → Prop} {g : σ → Outcome ε α} {s s' : σ} :
    (read g).After R N F s s' ↔ N s s' ∧ ∀ t, R s' t → F t (g t) t := Iff.rfl

theorem after_step {R N : σ → σ → Prop} {F : σ → Outcome ε α → σ → Prop} {f : σ → Outcome ε α × σ} {s s' : σ} :
    (step f).After R N F s s' ↔ N s s' ∧ ∀ t, R s' t → F t (f t).1 (f t).2 := Iff.rfl

theorem After.bind {R N : σ → σ → Prop} {F : σ → Outcome ε β → σ → Prop} {G : σ → Outcome ε α → σ → Prop}
    {x : Act σ ε α} {g : α → Act σ ε β} {s s' : σ} (hx : x.After R N G s s')
    (hok : ∀ a t t', G t (.ok a) t' → (g a).After R N F t t')
    (herr : ∀ e t t', G t (.err e) t' → F t (.err e) t')
    (hpanic : ∀ t t', G t .panic t' → F t .panic t') : (x >>= g).After R N F s s' := by
  show (x.bind g).After R N F s s'
  induction x generalizing s s' with
  | ret o =>
    cases o with
    | ok a => exact hok a _ _ hx
    | err e => exact herr e _ _ hx
    | panic => exact hpanic _ _ hx
  | atomic f k ih => exact ⟨hx.1, fun t ht => ih t (hx.2 t ht)⟩

theorem After.mono {R N N' : σ → σ → Prop} {F F' : σ → Outcome ε α → σ → Prop} {x : Act σ ε α} {s s' : σ}
    (hx : x.After R N F s s') (hN : ∀ s s', N s s' → N' s s') (hF : ∀ s o s', F s o s' → F' s o s') :
    x.After R N' F' s s' := by
  induction x generalizing s s' with
  | ret o => exact hF _ _ _ hx
  | atomic f k ih => exact ⟨hN _ _ hx.1, fun t ht => ih t (hx.2 t ht)⟩

/-- The obligation does not depend on the step that leads to the state, as long as that is a step of the call. -/
theorem After.restart {R N : σ → σ → Prop} {F : σ → Outcome ε α → σ → Prop} {x : Act σ ε α} {s t : σ}
    (hx : x.After R N F s s) (hN : N t s) (hF : ∀ o, F s o s → F t o s) : x.After R N F t s := by
  cases x with
  | ret o => exact hF o hx
  | atomic f k => exact ⟨hN, hx.2⟩

/-- A call all of whose steps are `N`-steps, under any interference. -/
theorem Always.after {R N : σ → σ → Prop} {x : Act σ ε α} (hx : x.Always N) {s s' : σ} (h : N s s') :
    x.After R N (fun t _ t' => N t t') s s' := by
  induction x generalizing s s' with
  | ret o => exact h
  | atomic f k ih => exact ⟨h, fun t _ => ih t (hx t).2 (hx t).1⟩

/-- A first part all of whose steps are `N`-steps. -/
theorem After.always_bind {R N : σ → σ → Prop} {F : σ → Outcome ε β → σ → Prop} {x : Act σ ε α}
    {g : α → Act σ ε β} {s s' : σ} (hx : x.Always N) (h : N s s')
    (hok : ∀ a t t', N t t' → (g a).After R N F t t') (herr : ∀ e t t', N t t' → F t (.err e) t')
    (hpanic : ∀ t t', N t t' → F t .panic t') : (x >>= g).After R N F s s' :=
  (hx.after h).bind hok herr hpanic

/-- A call on a part of a larger state leaves the rest of it as it is. -/
theorem After.zoom {R N : σ → σ → Prop} {F : σ → Outcome ε α → σ → Prop} {R' N' : τ → τ → Prop}
    {F' : τ → Outcome ε α → τ → Prop} {L : Lens τ σ} {x : Act σ ε α} {t t' : τ}
    (hx : x.After R N F (L.get t) (L.get t')) (hN₀ : N (L.get t) (L.get t') → N' t t')
    (hF₀ : ∀ o, F (L.get t) o (L.get t') → F' t o t') (hR : ∀ t u, R' t u → R (L.get t) (L.get u))
    (hN : ∀ t s, N (L.get t) s → N' t (L.put t s)) (hF : ∀ t o s, F (L.get t) o s → F' t o (L.put t s)) :
    (x.zoom L).After R' N' F' t t' := by
  induction x generalizing t t' with
  | ret o => exact hF₀ o hx
  | atomic f k ih =>
    refine ⟨hN₀ hx.1, fun u hu => ih _ ?_ (fun h => hN u _ ?_) fun o h => hF u o _ ?_⟩
    · rw [L.get_put]
      exact hx.2 _ (hR _ _ hu)
    · rwa [L.get_put] at h
    · rwa [L.get_put] at h

/-- A read, and then what follows from what it has seen. -/
theorem After.read_bind {R N : σ → σ → Prop} {F : σ → Outcome ε β → σ → Prop} {g : σ → Outcome ε α}
    {k : α → Act σ ε β} {s s' : σ} (hN : N s s') (hok : ∀ t a, R s' t → g t = .ok a → (k a).After R N F t t)
    (herr : ∀ t e, R s' t → g t = .err e → F t (.err e) t) (hpanic : ∀ t, R s' t → g t = .panic → F t .panic t) :
    (read g >>= k).After R N F s s' := by
  have hread : (read g).After R N (fun t o t' => t' = t ∧ o = g t ∧ R s' t) s s' := ⟨hN, fun t ht => ⟨rfl, rfl, ht⟩⟩
  refine hread.bind ?_ ?_ ?_
  · rintro a t t' ⟨rfl, ha, ht⟩
    exact hok _ a ht ha.symm
  · rintro e t t' ⟨rfl, he, ht⟩
    exact herr _ e ht he.symm
  · rintro t t' ⟨rfl, hp, ht⟩
    exact hpanic _ ht hp.symm

/-- A property that no step destroys holds until the end. -/
theorem After.keep {R N : σ → σ → Prop} {F : σ → Outcome ε α → σ → Prop} {J : σ → Prop} {x : Act σ ε α} {s s' : σ}
    (hx : x.After R N F s s') (hR : ∀ s s', J s → R s s' → J s') (hN : ∀ s s', J s → N s s' → J s')
    (hF : ∀ s o s', F s o s' → N s s') (hJ : J s') : x.After R N (fun t o t' => F t o t' ∧ J t') s s' := by
  induction x generalizing s s' with
  | ret o => exact ⟨hx, hJ⟩
  | atomic f k ih =>
    refine ⟨hx.1, fun t ht => ih t (hx.2 t ht) (hN t _ (hR _ t hJ ht) ?_)⟩
    have hk := hx.2 t ht
    revert hk
    cases k t with
    | ret o => exact hF t o _
    | atomic f' k' => exact And.left

/-- One call after the other: what each of them yields goes on holding. -/
theorem after_forEach {R : σ → σ → Prop} {f : α → Act σ ε β} {G : σ → α → β → Prop} {I : σ → Prop}
    (hG : ∀ s s' a b, G s a b → R s s' → G s' a b) (hI : ∀ s s', I s → R s s' → I s')
    (hf : ∀ a s s', R s s' → I s' → (f a).After R R (fun t o t' => R t t' ∧ ∀ b, o = .ok b → G t' a b) s s')
    (l : List α) {s s' : σ} (hs : R s s') (hIs : I s') :
    (forEach f l).After R R (fun t o t' => R t t' ∧ ∀ bs, o = .ok bs → List.Forall₂ (G t') l bs) s s' := by
  induction l generalizing s s' with
  | nil =>
    refine ⟨hs, fun bs h => ?_⟩
    obtain rfl := Outcome.ok.inj h
    exact .nil
  | cons a l ih =>
    have ha := (hf a s s' hs hIs).keep hI hI (fun _ _ _ h => h.1) hIs
    refine ha.bind ?_ (fun e _ _ h => ⟨h.1.1, by simp⟩) fun _ _ h => ⟨h.1.1, by simp⟩
    rintro b t t' ⟨⟨ht, hb⟩, hIt⟩
    have hl := (ih ht hIt).keep (J := fun s => G s a b) (fun s s' h hr => hG s s' a b h hr)
      (fun s s' h hr => hG s s' a b h hr) (fun _ _ _ h => h.1) (hb b rfl)
    refine hl.bind ?_ (fun e _ _ h => ⟨h.1.1, by simp⟩) fun _ _ h => ⟨h.1.1, by simp⟩
    rintro bs u u' ⟨⟨hu, hbs⟩, hGu⟩
    refine ⟨hu, fun bs' h => ?_⟩
    obtain rfl := Outcome.ok.inj h
    exact .cons hGu (hbs bs rfl)

/-- Whatever the call sees of the state, it returns a value with the property or panics. -/
def Yields (Q : α → Prop) : Act σ ε α → Prop
  | .ret (.ok a) => Q a
  | .ret (.err _) => False
  | .ret .panic => True
  | .atomic _ k => ∀ s, (k s).Yields Q

theorem yields_read {Q : α → Prop} {g : σ → Outcome ε α} (hok : ∀ s a, g s = .ok a → Q a) (herr : ∀ s e, g s ≠ .err e) :
    (read g).Yields Q := by
  intro s
  show Yields Q (ret (g s))
  cases h : g s with
  | ok a => exact hok s a h
  | err e => exact absurd h (herr s e)
  | panic => trivial

theorem Yields.mono {P Q : α → Prop} {x : Act σ ε α} (hx : x.Yields P) (h : ∀ a, P a → Q a) : x.Yields Q := by
  induction x with
  | ret o =>
    cases o with
    | ok a => exact h a hx
    | err e => exact hx
    | panic => trivial
  | atomic f k ih => exact fun s => ih s (hx s)

theorem Yields.bind {P : α → Prop} {Q : β → Prop} {x : Act σ ε α} {g : α → Act σ ε β} (hx : x.Yields P)
    (hg : ∀ a, P a → (g a).Yields Q) : (x >>= g).Yields Q := by
  show (x.bind g).Yields Q
  induction x with
  | ret o =>
    cases o with
    | ok a => exact hg a hx
    | err e => exact hx
    | panic => trivial
  | atomic f k ih => exact fun s => ih s (hx s)

theorem Yields.forEach {G : α → β → Prop} {f : α → Act σ ε β} (h : ∀ a, (f a).Yields (G a)) (l : List α) :
    (Act.forEach f l).Yields (List.Forall₂ G l) := by
  induction l with
  | nil => exact .nil
  | cons a l ih => exact (h a).bind fun b hb => ih.bind fun bs hbs => .cons hb hbs

/-- A call all of whose steps are `N`-steps, with what it yields. -/
theorem Yields.after {R N : σ → σ → Prop} {Q : α → Prop} {x : Act σ ε α} (hx : x.Yields Q) (hN : x.Always N)
    {s s' : σ} (h : N s s') :
    x.After R N (fun t o t' => N t t' ∧ (∀ a, o = .ok a → Q a) ∧ ∀ e, o ≠ .err e) s s' := by
  induction x generalizing s s' with
  | ret o =>
    refine ⟨h, fun a ha => ?_, fun e he => ?_⟩
    · subst ha
      exact hx
    · subst he
      exact hx
  | atomic f k ih => exact ⟨h, fun t _ => ih t (hx t) (hN t).2 (hN t).1⟩

theorem After.attempt {R N : σ → σ → Prop} {F : σ → Outcome ε α → σ → Prop} {x : Act σ ε α} {s s' : σ}
    (hx : x.After R N F s s') : x.attempt.After R N (fun s o s' => ∃ o', o = o'.caught ∧ F s o' s') s s' := by
  induction x generalizing s s' with
  | ret o => exact ⟨o, rfl, hx⟩
  | atomic f k ih => exact ⟨hx.1, fun t ht => ih t (hx.2 t ht)⟩

theorem After.and {R N N' : σ → σ → Prop} {F F' : σ → Outcome ε α → σ → Prop} {x : Act σ ε α} {s s' : σ}
    (hx : x.After R N F s s') (hx' : x.After R N' F' s s') :
    x.After R (fun s s' => N s s' ∧ N' s s') (fun s o s' => F s o s' ∧ F' s o s') s s' := by
  induction x generalizing s s' with
  | ret o => exact ⟨hx, hx'⟩
  | atomic f k ih => exact ⟨⟨hx.1, hx'.1⟩, fun t ht => ih t (hx.2 t ht) (hx'.2 t ht)⟩

/-! ### Calls under a condition -/

/-- As long as each step of the call finds the state in `S`, each of them is an `N`-step. -/
def Under (S : σ → Prop) (N : σ → σ → Prop) : Act σ ε α → Prop
  | .ret _ => True
  | .atomic f k => ∀ s, S s → N s (f s) ∧ (k s).Under S N

section

variable {S : σ → Prop} {N : σ → σ → Prop}

@[simp] theorem under_ret (o : Outcome ε α) : (ret o).Under S N := trivial

theorem Always.under {x : Act σ ε α} (hx : x.Always N) : x.Under S N := by
  induction x with
  | ret o => trivial
  | atomic f k ih => exact fun s _ => ⟨(hx s).1, ih s (hx s).2⟩

theorem Under.bind {x : Act σ ε α} {g : α → Act σ ε β} (hx : x.Under S N) (hg : ∀ a, (g a).Under S N) :
    (x >>= g).Under S N := by
  show (x.bind g).Under S N
  induction x with
  | ret o =>
    cases o with
    | ok a => exact hg a
    | err e => trivial
    | panic => trivial
  | atomic f k ih => exact fun s hs => ⟨(hx s hs).1, ih s (hx s hs).2⟩

/-- A read that fails under the condition ends the call. -/
theorem under_read_bind {r : σ → Outcome ε α} {g : α → Act σ ε β} (hN : ∀ s, N s s) (hr : ∀ s, S s → ∀ a, r s ≠ .ok a) :
    (read r >>= g).Under S N := by
  intro s hs
  refine ⟨hN s, ?_⟩
  show Under S N ((ret (r s)).bind g)
  cases h : r s with
  | ok a => exact absurd h (hr s hs a)
  | err e => trivial
  | panic => trivial

theorem Under.forEach {f : α → Act σ ε β} (h : ∀ a, (f a).Under S N) (l : List α) : (forEach f l).Under S N := by
  induction l with
  | nil => trivial
  | cons a l ih => exact (h a).bind fun _ => ih.bind fun _ => trivial

/-- A condition that no thread destroys. -/
theorem Under.after {R : σ → σ → Prop} {x : Act σ ε α} (hx : x.Under S N) (hR : ∀ s s', S s → R s s' → S s')
    (hN : ∀ s s', S s → N s s' → S s') {s s' : σ} (hs : S s') (h : N s s') :
    x.After R N (fun t _ t' => N t t') s s' := by
  induction x generalizing s s' with
  | ret o => exact h
  | atomic f k ih =>
    refine ⟨h, fun t ht => ?_⟩
    have hst := hR s' t hs ht
    obtain ⟨hf, hk⟩ := hx t hst
    exact ih t hk (hN t _ hst hf) hf

theorem Under.zoom {S' : τ → Prop} {N' : τ → τ → Prop} {L : Lens τ σ} {x : Act σ ε α} (hx : x.Under S N)
    (hS : ∀ t, S' t → S (L.get t)) (hN : ∀ t s, N (L.get t) s → N' t (L.put t s)) : (x.zoom L).Under S' N' := by
  induction x with
  | ret o => trivial
  | atomic f k ih => exact fun t ht => ⟨hN t _ (hx _ (hS t ht)).1, ih _ (hx _ (hS t ht)).2⟩

end

/-! ### Failing without a trace -/

/-- What is left of the call after its step from `s` to `s'` fails with `e`, and neither that step nor a later one of
the call changes the state. -/
def Fails (R : σ → σ → Prop) (e : ε) (x : Act σ ε α) (s s' : σ) : Prop :=
  x.After R (fun s s' => s' = s) (fun s o s' => s' = s ∧ o = .err e) s s'

section

variable {R : σ → σ → Prop} {e : ε}

theorem fails_fail (s : σ) : (fail e : Act σ ε α).Fails R e s s := ⟨rfl, rfl⟩

theorem Fails.unchanged {x : Act σ ε α} {s s' : σ} (hx : x.Fails R e s s') : s' = s := by
  cases x with
  | ret o => exact hx.1
  | atomic f k => exact hx.1

theorem fails_read {g : σ → Outcome ε α} {s : σ} (h : ∀ t, R s t → g t = .err e) : (read g).Fails R e s s :=
  ⟨rfl, fun t ht => ⟨rfl, h t ht⟩⟩

theorem Fails.bind {x : Act σ ε α} {s s' : σ} (hx : x.Fails R e s s') (g : α → Act σ ε β) :
    (x >>= g).Fails R e s s' := by
  refine After.bind hx ?_ (fun _ _ _ h => ⟨h.1, ?_⟩) ?_
  · rintro a t t' ⟨-, h⟩
    cases h
  · obtain rfl := Outcome.err.inj h.2
    rfl
  · rintro t t' ⟨-, h⟩
    cases h

/-- A read that goes well, and then a failure. -/
theorem fails_read_bind {g : σ → Outcome ε α} {k : α → Act σ ε β} {s : σ}
    (h : ∀ t, R s t → ∃ a, g t = .ok a ∧ (k a).Fails R e t t) : (read g >>= k).Fails R e s s := by
  refine ⟨rfl, fun t ht => ?_⟩
  obtain ⟨a, ha, hk⟩ := h t ht
  show ((ret (g t) : Act σ ε α).bind k).Fails R e t t
  rw [ha]
  exact hk

/-- A failure that is caught and then repeated. -/
theorem Fails.attempt_bind {x : Act σ ε α} {k : Except ε α → Act σ ε β} {s s' : σ} (hx : x.Fails R e s s')
    (hk : k (.error e) = fail e) : (x.attempt >>= k).Fails R e s s' := by
  refine (After.attempt hx).bind ?_ ?_ ?_
  · rintro a t t' ⟨o, ho, rfl, rfl⟩
    obtain rfl := Outcome.ok.inj ho
    rw [hk]
    exact fails_fail _
  · rintro a t t' ⟨o, ho, -, rfl⟩
    cases ho
  · rintro t t' ⟨o, ho, -, rfl⟩
    cases ho

theorem Fails.zoom {S : τ → τ → Prop} {L : Lens τ σ} {x : Act σ ε α} {t : τ} (hx : x.Fails R e (L.get t) (L.get t))
    (hR : ∀ t u, S t u → R (L.get t) (L.get u)) : (x.zoom L).Fails S e t t := by
  refine After.zoom hx (fun _ => rfl) (fun o h => ⟨rfl, h.2⟩) hR (fun t s h => ?_) fun t o s h => ⟨?_, h.2⟩
  · rw [h, L.put_get]
  · rw [h.1, L.put_get]

/-- The call executed alone. -/
theorem Fails.run {x : Act σ ε α} {s s' : σ} (refl : ∀ s, R s s) (hx : x.Fails R e s s') :
    s' = s ∧ x.run s' = (.err e, s') := by
  induction x generalizing s s' with
  | ret o =>
    obtain ⟨rfl, rfl⟩ : s' = s ∧ o = .err e := hx
    exact ⟨rfl, rfl⟩
  | atomic f k ih =>
    obtain ⟨hf, hrun⟩ := ih s' (hx.2 s' (refl s'))
    refine ⟨hx.1, hrun.trans ?_⟩
    rw [hf]

end

/-! ### All or nothing -/

/-- The call executed alone from `s` does not end in an error. -/
def InfallibleAt (x : Act σ ε α) (s : σ) : Prop := ∀ e t, x.run s ≠ (.err e, t)

/-- If the call executed alone from `s` ends in an error, it leaves `s` as it is. -/
def CleanAt (x : Act σ ε α) (s : σ) : Prop := ∀ e t, x.run s = (.err e, t) → t = s

section

variable {x : Act σ ε α} {g : α → Act σ ε β} {s : σ}

theorem InfallibleAt.cleanAt (hx : x.InfallibleAt s) : x.CleanAt s := fun e t h => absurd h (hx e t)

theorem ReadOnly.cleanAt (hx : x.ReadOnly) (s : σ) : x.CleanAt s := by
  intro e t h
  have := hx.run s
  rwa [h] at this

theorem infallibleAt_pure (a : α) (s : σ) : (pure a : Act σ ε α).InfallibleAt s := by simp [InfallibleAt]

theorem infallibleAt_modify (f : σ → σ) (s : σ) : (modify f : Act σ ε Unit).InfallibleAt s := by simp [InfallibleAt]

theorem InfallibleAt.bind (hx : x.InfallibleAt s) (hg : ∀ a t, x.run s = (.ok a, t) → (g a).InfallibleAt t) :
    (x >>= g).InfallibleAt s := by
  intro e t h
  rw [run_bind] at h
  obtain ⟨⟨a | e' | -, u⟩, hrun⟩ : ∃ r, x.run s = r := ⟨_, rfl⟩
  · rw [hrun] at h
    exact hg a u hrun e t h
  · exact hx e' u hrun
  · rw [hrun] at h
    cases h

/-- Once something may have been changed, the rest must not fail. -/
theorem CleanAt.bind (hx : x.CleanAt s) (hg : ∀ a t, x.run s = (.ok a, t) → (g a).InfallibleAt t) :
    (x >>= g).CleanAt s := by
  intro e t h
  rw [run_bind] at h
  obtain ⟨⟨a | e' | -, u⟩, hrun⟩ : ∃ r, x.run s = r := ⟨_, rfl⟩
  · rw [hrun] at h
    exact absurd h (hg a u hrun e t)
  · rw [hrun] at h
    obtain ⟨-, rfl⟩ := Prod.mk.inj h
    exact hx e' u hrun
  · rw [hrun] at h
    cases h

/-- As long as nothing has been changed, the rest may fail. -/
theorem ReadOnly.bind_cleanAt (hx : x.ReadOnly) (hg : ∀ a, (g a).CleanAt s) : (x >>= g).CleanAt s := by
  intro e t h
  rw [run_bind] at h
  obtain ⟨⟨o, u⟩, hrun⟩ : ∃ r, x.run s = r := ⟨_, rfl⟩
  obtain rfl : u = s := by
    have := hx.run s
    rwa [hrun] at this
  rw [hrun] at h
  cases o with
  | ok a => exact hg a e t h
  | err e' =>
    cases h
    rfl
  | panic => cases h

theorem CleanAt.zoom {L : Lens τ σ} {t : τ} (hx : x.CleanAt (L.get t)) : (x.zoom L).CleanAt t := by
  intro e u h
  rw [run_zoom] at h
  obtain ⟨⟨o, v⟩, hrun⟩ : ∃ r, x.run (L.get t) = r := ⟨_, rfl⟩
  rw [hrun] at h
  obtain ⟨rfl, rfl⟩ := Prod.mk.inj h
  rw [hx e v hrun, L.put_get]

end

end Act

end Conc
