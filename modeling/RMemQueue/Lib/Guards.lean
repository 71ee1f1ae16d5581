import RMemQueue.Lib.LockAct

/-!
# What locks guard

Each lock guards a part of the shared state.  A thread only changes the parts under the locks that it holds to write, and
relies on the others to leave alone the parts under all locks that it holds.

* `LockAct.Implements`: under that discipline the call does what an `Act` does; between the reads and writes of a critical
  section nothing that they are about has changed, so that one of them can stand for the whole section.
* `LockAct.refines_update`, `LockAct.refines_inspect`: critical sections that are one step of an `Act`.
-/

namespace Conc

variable {Λ σ τ ε α β : Type}

/-- The parts of a state that locks guard: `same l s s'` says that what lock `l` guards in `s` is the same in `s'`. -/
structure Guards (Λ σ : Type) where
  same : Λ → σ → σ → Prop
  same_refl : ∀ l s, same l s s
  same_trans : ∀ l s t u, same l s t → same l t u → same l s u

namespace Guards

variable (G : Guards Λ σ)

/-- What the others may do while a thread holds the locks. -/
def Stable (held : List (Λ × Mode)) (s s' : σ) : Prop := ∀ h ∈ held, G.same h.1 s s'

/-- What a thread may do while it holds the locks. -/
def Allows (held : List (Λ × Mode)) (s s' : σ) : Prop := ∀ l, (l, Mode.write) ∉ held → G.same l s s'

variable {G} {held : List (Λ × Mode)} {s t u : σ}

theorem Stable.refl (held : List (Λ × Mode)) (s : σ) : G.Stable held s s := fun h _ => G.same_refl h.1 s

theorem Stable.trans (h : G.Stable held s t) (h' : G.Stable held t u) : G.Stable held s u :=
  fun l hl => G.same_trans l.1 s t u (h l hl) (h' l hl)

theorem Allows.refl (held : List (Λ × Mode)) (s : σ) : G.Allows held s s := fun l _ => G.same_refl l s

/-- A step that only changes what one lock guards that is held to write. -/
theorem Allows.of_others {l : Λ} (hl : (l, Mode.write) ∈ held) (h : ∀ l', l' ≠ l → G.same l' s t) :
    G.Allows held s t := by
  intro l' hl'
  apply h
  rintro rfl
  exact hl' hl

end Guards

/-- The parts of a component are among the parts of the state that it belongs to. -/
structure Lens.Keeps (L : Lens τ σ) (G' : Guards Λ τ) (G : Guards Λ σ) : Prop where
  get : ∀ l t t', G'.same l t t' → G.same l (L.get t) (L.get t')
  put : ∀ l t s, G.same l (L.get t) s → G'.same l t (L.put t s)

namespace LockAct

variable {G : Guards Λ σ} {held : List (Λ × Mode)} {s t : σ}

/-- From `s` on, a thread with the locks `held` that has `x` left does what a thread does that has `y` left, and keeps to
what the locks allow: a step of `x` is the next one of `y`, or it is only a read. -/
def Implements (G : Guards Λ σ) : LockAct Λ σ ε α → List (Λ × Mode) → σ → Act σ ε α → Prop
  | .ret o, _, _, y => y = .ret o
  | .atomic f k, held, s, y => ∀ t, G.Stable held s t → G.Allows held t (f t) ∧
      ((f t = t ∧ (k t).Implements G held t y) ∨
        ∃ f' k', y = .atomic f' k' ∧ f' t = f t ∧ (k t).Implements G held (f t) (k' t))
  | .acquire l m k, held, s, y => ∀ t, G.Stable held s t → k.Implements G ((l, m) :: held) t y
  | .release k, held, s, y => ∀ t, G.Stable held s t → k.Implements G held.tail t y

/-- The call does what `y` does, whatever locks are held around it. -/
def Refines (G : Guards Λ σ) (x : LockAct Λ σ ε α) (y : Act σ ε α) : Prop := ∀ held s, x.Implements G held s y

/-- What the others may do does not get in the way. -/
theorem Implements.mono {x : LockAct Λ σ ε α} {y : Act σ ε α} (hx : x.Implements G held s y) (h : G.Stable held s t) :
    x.Implements G held t y := by
  cases x with
  | ret o => exact hx
  | atomic f k => exact fun u hu => hx u (h.trans hu)
  | acquire l m k => exact fun u hu => hx u (h.trans hu)
  | release k => exact fun u hu => hx u (h.trans hu)

/-! ### Steps -/

theorem refines_ret (o : Outcome ε α) : (ret o : LockAct Λ σ ε α).Refines G (.ret o) := fun _ _ => rfl

theorem refines_pure (a : α) : (pure a : LockAct Λ σ ε α).Refines G (pure a) := refines_ret (.ok a)

/-- A step that the locks allow. -/
theorem implements_lift {y : Act σ ε α} (hy : y.Always (G.Allows held)) : (lift y).Implements G held s y := by
  induction y generalizing s with
  | ret o => exact rfl
  | atomic f k ih => exact fun t _ => ⟨(hy t).1, Or.inr ⟨f, k, rfl, rfl, ih t (hy t).2⟩⟩

/-- A step that changes nothing that a lock guards. -/
theorem refines_lift {y : Act σ ε α} (hy : y.Always fun s s' => ∀ l, G.same l s s') : (lift y).Refines G y :=
  fun _ _ => implements_lift (hy.mono fun _ _ h l _ => h l)

theorem refines_lift_read (g : σ → Outcome ε α) : (lift (.read g) : LockAct Λ σ ε α).Refines G (.read g) :=
  refines_lift (Act.always_read (fun s l => G.same_refl l s) g)

/-- A read of the call's own, and what follows whatever it has seen. -/
theorem refines_look_bind (p : σ → α) {g : α → LockAct Λ σ ε β} {y : Act σ ε β} (hg : ∀ a, (g a).Refines G y) :
    (look p >>= g).Refines G y := by
  intro held s t _
  exact ⟨.refl held t, Or.inl ⟨rfl, hg (p t) held t⟩⟩

/-! ### Critical sections -/

theorem Implements.thenRelease {x : LockAct Λ σ ε α} {y : Act σ ε α} (hx : x.Implements G held s y) :
    x.thenRelease.Implements G held s y := by
  induction x generalizing held s y with
  | ret o => exact fun _ _ => hx
  | atomic f k ih =>
    intro t ht
    obtain ⟨hallows, ⟨hf, hk⟩ | ⟨f', k', hy, hf, hk⟩⟩ := hx t ht
    · exact ⟨hallows, Or.inl ⟨hf, ih t hk⟩⟩
    · exact ⟨hallows, Or.inr ⟨f', k', hy, hf, ih t hk⟩⟩
  | acquire l m k ih => exact fun t ht => ih (hx t ht)
  | release k ih => exact fun t ht => ih (hx t ht)

/-- A section of a lock, if it does its work with the lock held. -/
theorem refines_hold_of {l : Λ} {m : Mode} {x : LockAct Λ σ ε α} {y : Act σ ε α}
    (hx : ∀ held s, x.Implements G ((l, m) :: held) s y) : (hold l m x).Refines G y :=
  fun held _ t _ => (hx held t).thenRelease

theorem Refines.hold {x : LockAct Λ σ ε α} {y : Act σ ε α} (hx : x.Refines G y) (l : Λ) (m : Mode) :
    (hold l m x).Refines G y :=
  refines_hold_of fun held => hx ((l, m) :: held)

/-- One read under a lock. -/
theorem refines_read (l : Λ) (m : Mode) (g : σ → Outcome ε α) :
    (guarded l m (.read g) : LockAct Λ σ ε α).Refines G (.read g) :=
  (refines_lift_read g).hold l m

/-- One write under a lock. -/
theorem refines_write {l : Λ} {f : σ → σ} (hf : ∀ s l', l' ≠ l → G.same l' s (f s)) :
    (guarded l .write (.modify f) : LockAct Λ σ ε Unit).Refines G (.modify f) :=
  refines_hold_of fun _ _ => implements_lift <| Act.always_modify fun s =>
    .of_others (List.mem_cons_self ..) (hf s)

/-- A section that reads and writes is one step: what it has read is still so when it writes. -/
theorem refines_update {l : Λ} {compute : σ → Outcome ε α × Option β} {store : β → σ → σ} {f : σ → Outcome ε α × σ}
    (hf : ∀ s, f s = ((compute s).1, (compute s).2.elim s (store · s)))
    (hcompute : ∀ s t o b, compute s = (o, some b) → G.same l s t → compute t = (o, some b))
    (hstore : ∀ s o b, compute s = (o, some b) → ∀ l', l' ≠ l → G.same l' s (store b s)) :
    (update l compute store).Refines G (.step f) := by
  refine refines_hold_of fun held s t _ => ⟨.refl _ t, ?_⟩
  obtain ⟨⟨o, _ | b⟩, hc⟩ : ∃ r, compute t = r := ⟨_, rfl⟩
  -- nothing is written: the read is the step
  · have hft : f t = (o, t) := by rw [hf, hc]; rfl
    refine Or.inr ⟨_, _, rfl, congrArg Prod.snd hft, ?_⟩
    show (writeBack store (compute t)).Implements G _ t (.ret (f t).1)
    rw [hc, hft]
    exact rfl
  -- the write is the step
  · refine Or.inl ⟨rfl, ?_⟩
    show (writeBack store (compute t)).Implements G _ t (.step f)
    rw [hc]
    intro u hu
    have hcu : compute u = (o, some b) := hcompute t u o b hc (hu _ (List.mem_cons_self ..))
    have hfu : f u = (o, store b u) := by rw [hf, hcu]; rfl
    refine ⟨.of_others (List.mem_cons_self ..) (hstore u o b hcu), Or.inr ⟨_, _, rfl, congrArg Prod.snd hfu, ?_⟩⟩
    exact congrArg (fun r => Act.ret r.1) hfu

/-- A section that reads twice is one read. -/
theorem refines_inspect {l : Λ} {m : Mode} {first : σ → Outcome ε α ⊕ β} {second : β → σ → Outcome ε α}
    {g : σ → Outcome ε α} (hg : ∀ s, g s = (first s).elim id fun b => second b s)
    (hsecond : ∀ s t b, first s = .inr b → G.same l s t → second b t = second b s) :
    (inspect l m first second).Refines G (.read g) := by
  refine refines_hold_of fun held s t _ => ⟨.refl _ t, Or.inr ⟨_, _, rfl, rfl, ?_⟩⟩
  show ((first t).elim .ret fun b => lift (.read (second b))).Implements G _ t (.ret (g t))
  rw [hg]
  cases hfirst : first t with
  | inl o => exact rfl
  | inr b =>
    intro u hu
    refine ⟨.refl _ u, Or.inl ⟨rfl, ?_⟩⟩
    show Act.ret (second b t) = .ret (second b u)
    rw [hsecond t u b hfirst (hu _ (List.mem_cons_self ..))]

theorem refines_visit (ls : List Λ) : (visit ls : LockAct Λ σ ε Unit).Refines G (pure ()) := by
  intro held s
  induction ls generalizing s with
  | nil => exact rfl
  | cons l ls ih => exact fun t _ u _ => ih u

/-! ### Calls made of sections -/

theorem Implements.bind {x : LockAct Λ σ ε α} {y : Act σ ε α} {g : α → LockAct Λ σ ε β} {h : α → Act σ ε β}
    (hx : x.Implements G held s y) (hg : ∀ a, (g a).Refines G (h a)) : (x >>= g).Implements G held s (y >>= h) := by
  show (x.bind g).Implements G held s (y.bind h)
  induction x generalizing held s y with
  | ret o =>
    obtain rfl : y = .ret o := hx
    cases o with
    | ok a => exact hg a held s
    | err e => exact rfl
    | panic => exact rfl
  | atomic f k ih =>
    intro t ht
    obtain ⟨hallows, ⟨hf, hk⟩ | ⟨f', k', rfl, hf, hk⟩⟩ := hx t ht
    · exact ⟨hallows, Or.inl ⟨hf, ih t hk⟩⟩
    · exact ⟨hallows, Or.inr ⟨f', fun s => (k' s).bind h, rfl, hf, ih t hk⟩⟩
  | acquire l m k ih => exact fun t ht => ih (hx t ht)
  | release k ih => exact fun t ht => ih (hx t ht)

theorem Refines.bind {x : LockAct Λ σ ε α} {y : Act σ ε α} {g : α → LockAct Λ σ ε β} {h : α → Act σ ε β}
    (hx : x.Refines G y) (hg : ∀ a, (g a).Refines G (h a)) : (x >>= g).Refines G (y >>= h) :=
  fun held s => (hx held s).bind hg

/-- Sections that read nothing that changes, at the end of a call. -/
theorem Refines.bind_visit {x : LockAct Λ σ ε α} {y : Act σ ε α} (hx : x.Refines G y) (ls : α → List Λ) :
    (x >>= fun a => visit (ls a) >>= fun _ => pure a).Refines G y := by
  have h : (x >>= fun a => visit (ls a) >>= fun _ => pure a).Refines G (y >>= pure) :=
    hx.bind fun a => (refines_visit (ls a)).bind fun _ => refines_pure a
  rwa [Act.bind_pure] at h

/-- What a call does at its end besides. -/
theorem Implements.bind_unit {x : LockAct Λ σ ε Unit} {y : Act σ ε Unit} {g : Unit → LockAct Λ σ ε Unit}
    (hx : x.Implements G held s y) (hg : ∀ a, (g a).Refines G (pure a)) : (x >>= g).Implements G held s y := by
  have h : (x >>= g).Implements G held s (y >>= pure) := hx.bind hg
  rwa [Act.bind_pure] at h

theorem Implements.attempt {x : LockAct Λ σ ε α} {y : Act σ ε α} (hx : x.Implements G held s y) :
    x.attempt.Implements G held s y.attempt := by
  induction x generalizing held s y with
  | ret o =>
    obtain rfl : y = .ret o := hx
    exact rfl
  | atomic f k ih =>
    intro t ht
    obtain ⟨hallows, ⟨hf, hk⟩ | ⟨f', k', rfl, hf, hk⟩⟩ := hx t ht
    · exact ⟨hallows, Or.inl ⟨hf, ih t hk⟩⟩
    · exact ⟨hallows, Or.inr ⟨f', fun s => (k' s).attempt, rfl, hf, ih t hk⟩⟩
  | acquire l m k ih => exact fun t ht => ih (hx t ht)
  | release k ih => exact fun t ht => ih (hx t ht)

theorem Refines.attempt {x : LockAct Λ σ ε α} {y : Act σ ε α} (hx : x.Refines G y) : x.attempt.Refines G y.attempt :=
  fun held s => (hx held s).attempt

theorem Implements.zoom {G' : Guards Λ τ} {L : Lens τ σ} (hL : L.Keeps G' G) {x : LockAct Λ σ ε α} {y : Act σ ε α}
    {t : τ} (hx : x.Implements G held (L.get t) y) : (x.zoom L).Implements G' held t (y.zoom L) := by
  have hget : ∀ {held : List (Λ × Mode)} {t t' : τ}, G'.Stable held t t' → G.Stable held (L.get t) (L.get t') :=
    fun h l hl => hL.get l.1 _ _ (h l hl)
  induction x generalizing held t y with
  | ret o =>
    obtain rfl : y = .ret o := hx
    exact rfl
  | atomic f k ih =>
    intro u hu
    obtain ⟨hallows, hstep⟩ := hx (L.get u) (hget hu)
    refine ⟨fun l hl => hL.put l u _ (hallows l hl), ?_⟩
    rcases hstep with ⟨hf, hk⟩ | ⟨f', k', rfl, hf, hk⟩
    · refine Or.inl ⟨?_, ih _ hk⟩
      show L.put u (f (L.get u)) = u
      rw [hf, L.put_get]
    · refine Or.inr ⟨_, _, rfl, congrArg (L.put u) hf, ih _ ?_⟩
      rw [L.get_put]
      exact hk
  | acquire l m k ih => exact fun u hu => ih (hx _ (hget hu))
  | release k ih => exact fun u hu => ih (hx _ (hget hu))

theorem Refines.zoom {G' : Guards Λ τ} {L : Lens τ σ} (hL : L.Keeps G' G) {x : LockAct Λ σ ε α} {y : Act σ ε α}
    (hx : x.Refines G y) : (x.zoom L).Refines G' (y.zoom L) :=
  fun held t => (hx held (L.get t)).zoom hL

theorem Refines.forEach {f : α → LockAct Λ σ ε β} {g : α → Act σ ε β} (h : ∀ a, (f a).Refines G (g a)) (l : List α) :
    (forEach f l).Refines G (Act.forEach g l) := by
  induction l with
  | nil => exact refines_pure []
  | cons a l ih => exact (h a).bind fun b => ih.bind fun bs => refines_pure (b :: bs)

end LockAct

end Conc
