import RMemQueue.Lib.Scripts

/-!
# Triples under interference

`Act.Triple R P x Q`: other threads make `R`-steps, and so does the call `x`; if `P` holds where `x` begins, then `Q`
holds of its outcome where it ends.  A step finds its assertion in a later state than the one in which it was made, so
that the rules of steps ask for assertions that interference keeps (`Stable`).

`System.exec_triple`: in every run of calls that keep an invariant, what their triples say of the outcomes holds.
-/

namespace Conc

variable {ι κ σ τ ε α β : Type}

/-- No `R`-step destroys the assertion. -/
def Stable (R : σ → σ → Prop) (P : σ → Prop) : Prop := ∀ s s', P s → R s s' → P s'

namespace Stable

variable {R : σ → σ → Prop} {P Q : σ → Prop}

theorem const (p : Prop) : Stable R fun _ => p := fun _ _ h _ => h

theorem and (hP : Stable R P) (hQ : Stable R Q) : Stable R fun s => P s ∧ Q s :=
  fun s s' h hr => ⟨hP s s' h.1 hr, hQ s s' h.2 hr⟩

end Stable

/-- What holds of a call that has ended: of its value, of its error, or of its panic. -/
def Outcome.Ends (V : α → σ → Prop) (E : ε → σ → Prop) (B : σ → Prop) : Outcome ε α → σ → Prop
  | .ok a, s => V a s
  | .err e, s => E e s
  | .panic, s => B s

/-- What holds of a call that has ended and whose errors are caught. -/
def Caught (V : α → σ → Prop) (E : ε → σ → Prop) : Except ε α → σ → Prop
  | .ok a, s => V a s
  | .error e, s => E e s

open Outcome (Ends)

namespace Act

def Triple (R : σ → σ → Prop) (P : σ → Prop) (x : Act σ ε α) (Q : Outcome ε α → σ → Prop) : Prop :=
  ∀ s s', R s s' → P s' → x.After R R (fun t o t' => R t t' ∧ Q o t') s s'

section

variable {R : σ → σ → Prop} {P P' : σ → Prop} {E : ε → σ → Prop} {B : σ → Prop} {V : α → σ → Prop}
  {W : β → σ → Prop} {Q Q' : Outcome ε α → σ → Prop}

theorem triple_ret {o : Outcome ε α} (h : ∀ s, P s → Q o s) : (ret o).Triple R P Q :=
  fun _ s' hr hP => ⟨hr, h s' hP⟩

theorem triple_step {f : σ → Outcome ε α × σ} (hP : Stable R P)
    (h : ∀ s, P s → R s (f s).2 ∧ Q (f s).1 (f s).2) : (step f).Triple R P Q :=
  fun _ s' hr hP' => ⟨hr, fun t ht => h t (hP s' t hP' ht)⟩

theorem triple_read {g : σ → Outcome ε α} (hP : Stable R P) (refl : ∀ s, R s s) (h : ∀ s, P s → Q (g s) s) :
    (read g).Triple R P Q :=
  fun _ s' hr hP' => ⟨hr, fun t ht => ⟨refl t, h t (hP s' t hP' ht)⟩⟩

theorem triple_modify {f : σ → σ} {Q : Outcome ε Unit → σ → Prop} (hP : Stable R P)
    (h : ∀ s, P s → R s (f s) ∧ Q (.ok ()) (f s)) : (modify f : Act σ ε Unit).Triple R P Q :=
  fun _ s' hr hP' => ⟨hr, fun t ht => h t (hP s' t hP' ht)⟩

theorem Triple.mono {x : Act σ ε α} (hx : x.Triple R P Q) (hP : ∀ s, P' s → P s) (hQ : ∀ o s, Q o s → Q' o s) :
    x.Triple R P' Q' :=
  fun s s' hr hP' => (hx s s' hr (hP s' hP')).mono (fun _ _ h => h) fun _ o t' h => ⟨h.1, hQ o t' h.2⟩

/-- A weaker assertion about the value. -/
theorem Triple.weaken {U : α → σ → Prop} {x : Act σ ε α} (hx : x.Triple R P (Ends V E B))
    (hV : ∀ a s, V a s → U a s) : x.Triple R P (Ends U E B) := by
  refine hx.mono (fun _ h => h) ?_
  rintro (a | e | _) s h
  · exact hV a s h
  · exact h
  · exact h

theorem Triple.bind {x : Act σ ε α} {g : α → Act σ ε β} (hx : x.Triple R P (Ends V E B))
    (hg : ∀ a, (g a).Triple R (V a) (Ends W E B)) : (x >>= g).Triple R P (Ends W E B) := by
  intro s s' hr hP
  refine (hx s s' hr hP).bind ?_ (fun _ _ _ h => h) fun _ _ h => h
  rintro a t t' ⟨ht, hV⟩
  exact hg a t t' ht hV

/-- An assertion that no step destroys survives the call. -/
theorem Triple.frame {x : Act σ ε α} (hx : x.Triple R P Q) {F : σ → Prop} (hF : Stable R F) :
    x.Triple R (fun s => P s ∧ F s) fun o s => Q o s ∧ F s := by
  rintro s s' hr ⟨hP, hF'⟩
  refine ((hx s s' hr hP).keep hF hF (fun _ _ _ h => h.1) hF').mono (fun _ _ h => h) ?_
  rintro t o t' ⟨⟨ht, hQ⟩, hF''⟩
  exact ⟨ht, hQ, hF''⟩

/-- The errors of a call are caught. -/
theorem Triple.attempt {x : Act σ ε α} {E' : ε → σ → Prop} (hP : Stable R P) (hx : x.Triple R P (Ends V E' B)) :
    x.attempt.Triple R P (Ends (fun r s => P s ∧ Caught V E' r s) E B) := by
  intro s s' hr hP'
  refine (After.attempt (hx.frame hP s s' hr ⟨hP', hP'⟩)).mono (fun _ _ h => h) ?_
  rintro t o t' ⟨o', rfl, ht, ho, hPt⟩
  refine ⟨ht, ?_⟩
  cases o' with
  | ok a => exact ⟨hPt, ho⟩
  | err e => exact ⟨hPt, ho⟩
  | panic => exact ho

/-- What the assertion says of values may be used to choose the call. -/
theorem triple_of_fact {x : Act σ ε α} {p : Prop} (h : p → x.Triple R P Q) : x.Triple R (fun s => P s ∧ p) Q :=
  fun s s' hr hP => h hP.2 s s' hr hP.1

/-- The calls of a loop, with what each of them yields. -/
theorem triple_forEach {f : α → Act σ ε β} {V : β → Prop} {l : List α} (hP : Stable R P)
    (hf : ∀ a ∈ l, (f a).Triple R P (Ends (fun b _ => V b) E B)) :
    (forEach f l).Triple R P (Ends (fun bs s => P s ∧ bs.length = l.length ∧ ∀ b ∈ bs, V b) E B) := by
  have hframe : ∀ {γ : Type} {x : Act σ ε γ} {U : γ → Prop}, x.Triple R P (Ends (fun c _ => U c) E B) →
      x.Triple R P (Ends (fun c s => P s ∧ U c) E B) := by
    intro γ x U hx
    refine (hx.frame hP).mono (fun s h => ⟨h, h⟩) ?_
    rintro (c | e | _) s h
    · exact h.symm
    · exact h.1
    · exact h.1
  induction l with
  | nil => exact triple_ret fun s hs => ⟨hs, rfl, by simp⟩
  | cons a l ih =>
    refine (hframe (hf a (List.mem_cons_self ..))).bind fun b => triple_of_fact fun hb => ?_
    refine (ih fun a' ha' => hf a' (List.mem_cons_of_mem _ ha')).bind fun bs => triple_ret ?_
    rintro s ⟨hs, hlen, hbs⟩
    exact ⟨hs, by simp [hlen], List.forall_mem_cons.2 ⟨hb, hbs⟩⟩

end

/-- A call on a part of a larger state. -/
theorem Triple.zoom {R : σ → σ → Prop} {R' : τ → τ → Prop} {P : σ → Prop} {P' : τ → Prop}
    {Q : Outcome ε α → σ → Prop} {L : Lens τ σ} {x : Act σ ε α} (hx : x.Triple R P Q)
    (hR : ∀ t u, R' t u → R (L.get t) (L.get u)) (hN : ∀ t s, R (L.get t) s → R' t (L.put t s))
    (hP : ∀ t, P' t → P (L.get t)) : (x.zoom L).Triple R' P' fun o t => Q o (L.get t) := by
  intro t t' hr hP'
  refine After.zoom (hx _ _ (hR t t' hr) (hP t' hP')) (fun _ => hr) (fun o h => ⟨hr, h.2⟩) hR hN ?_
  intro u o s h
  have hget : L.get (L.put u s) = s := L.get_put u s
  exact ⟨hN u s h.1, by simpa only [hget] using h.2⟩

/-- One call after the other, whatever the first one's outcome. -/
theorem Triple.andFinally {R : σ → σ → Prop} {P : σ → Prop} {Q : Outcome ε α → σ → Prop} {Q' : Outcome ε β → σ → Prop}
    {x : Act σ ε α} {g : Outcome ε α → Act σ ε β} (hx : x.Triple R P Q) (hg : ∀ o, (g o).Triple R (Q o) Q') :
    (x.andFinally g).Triple R P Q' := by
  intro s s' hr hP
  have hafter := hx s s' hr hP
  clear hx hr hP
  induction x generalizing s s' with
  | ret o => exact hg o s s' hafter.1 hafter.2
  | atomic f k ih => exact ⟨hafter.1, fun t ht => ih t _ _ (hafter.2 t ht)⟩

end Act

/-- The run rule: each call keeps the invariant, as it takes `R`-steps only, and what its triple says of its outcome
outlasts the steps of the others. -/
theorem System.exec_triple [DecidableEq ι] {R : σ → σ → Prop} (refl : ∀ s, R s s)
    (trans : ∀ s t u, R s t → R t u → R s u) {I : σ → Prop} (hI : Stable R I) {Q : κ → Outcome ε α → σ → Prop}
    (hQ : ∀ c o, Stable R (Q c o)) {body : κ → Act σ ε α} (allowed : ι → κ → Prop)
    (hbody : ∀ i c, allowed i c → (body c).Triple R I (Q c)) {sched : List (Choice ι κ)}
    (hs : ∀ i c, .call i c ∈ sched → allowed i c) {s : σ} (hinit : I s) :
    I (exec body (init s) sched).shared ∧
      ∀ i c o, (i, c, o) ∈ (exec body (init s) sched).history → Q c o (exec body (init s) sched).shared := by
  let P : Protocol ι κ σ ε α := {
    rely := fun _ => R
    inner := fun _ _ => R
    last := fun _ _ c s o s' => R s s' ∧ Q c o s'
    rely_refl := fun _ => refl
    rely_trans := fun _ => trans
    inner_rely := fun _ _ _ _ _ _ h => h
    last_rely := fun _ _ _ _ _ _ _ _ h => h.1 }
  refine exec_invariant P (fun s h => I s ∧ ∀ i c o, (i, c, o) ∈ h → Q c o s) allowed
    (fun i c s h hc hinv => hbody i c hc s s (refl s) hinv.1) ?_ ?_ hs ⟨hinit, fun _ _ _ h => nomatch h⟩
  · rintro i s s' h hr ⟨hIs, hh⟩
    exact ⟨hI s s' hIs hr, fun j c o he => hQ c o s s' (hh j c o he) hr⟩
  · rintro i c s o s' h ⟨hr, hlast⟩ ⟨hIs, hh⟩
    refine ⟨hI s s' hIs hr, fun j d o' he => ?_⟩
    rcases List.mem_append.1 he with he | he
    · exact hQ d o' s s' (hh j d o' he) hr
    · obtain ⟨rfl, rfl, rfl⟩ : j = i ∧ d = c ∧ o' = o := by simpa using he
      exact hlast

end Conc
