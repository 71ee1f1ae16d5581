import RMemQueue.Lib.Act
import Mathlib.Data.List.Duplicate

/-!
# Calls that are executed as if one after the other

`inOrder` executes calls one after the other, and `Ordered` says that the calls of a history have the outcomes that they
have in their order.

`Act.Within`: what a call does depends on a *view* of the state, which no step changes.

`Trails` is about values that calls move on while others are in flight.  A call looks at the value of a key and passes
it, leaving the value that the key has then, or another one.  Executed one after the other, the calls that have ended
have left the values `q`, while the shared ones are `q'`: those of the keys that calls in flight have passed.  Its lemmas
are what the steps of the calls do to the two.
-/

namespace Conc

variable {σ ν ε α γ : Type}

namespace Act

/-! ### Calls that depend on a view -/

/-- The steps keep the view, and how the call goes on depends on the view only. -/
def Within (view : σ → ν) : Act σ ε α → Prop
  | .ret _ => True
  | .atomic f k => (∀ s, view (f s) = view s) ∧ (∀ s t, view s = view t → k s = k t) ∧ ∀ s, (k s).Within view

variable {view : σ → ν} {x : Act σ ε α}

theorem Within.view_run (hx : x.Within view) (s : σ) : view (x.run s).2 = view s := by
  induction x generalizing s with
  | ret o => rfl
  | atomic f k ih => exact (ih s (hx.2.2 s) (f s)).trans (hx.1 s)

theorem Within.run (hx : x.Within view) {s t : σ} (h : view s = view t) : (x.run s).1 = (x.run t).1 := by
  induction x generalizing s t with
  | ret o => rfl
  | atomic f k ih =>
    obtain ⟨hview, hlocal, hk⟩ := hx
    have hf : view (f s) = view (f t) := (hview s).trans (h.trans (hview t).symm)
    have hrun := ih s (hk s) hf
    rw [hlocal s t h] at hrun
    simp only [Act.run, hlocal s t h]
    exact hrun

theorem within_read {g : σ → Outcome ε α} (h : ∀ s t, view s = view t → g s = g t) : (read g).Within view :=
  ⟨fun _ => rfl, fun s t hst => congrArg ret (h s t hst), fun _ => trivial⟩

theorem Within.bind {g : α → Act σ ε γ} (hx : x.Within view) (hg : ∀ a, (g a).Within view) : (x >>= g).Within view := by
  show (x.bind g).Within view
  induction x with
  | ret o =>
    cases o with
    | ok a => exact hg a
    | err e => trivial
    | panic => trivial
  | atomic f k ih => exact ⟨hx.1, fun s t hst => by simp only [hx.2.1 s t hst], fun s => ih s (hx.2.2 s)⟩

theorem Within.attempt (hx : x.Within view) : x.attempt.Within view := by
  induction x with
  | ret o => trivial
  | atomic f k ih => exact ⟨hx.1, fun s t hst => by simp only [hx.2.1 s t hst], fun s => ih s (hx.2.2 s)⟩

section

variable {τ : Type} {L : Lens τ σ}

theorem Within.zoom (hx : x.Within view) : (x.zoom L).Within fun t => view (L.get t) := by
  induction x with
  | ret o => trivial
  | atomic f k ih =>
    refine ⟨fun t => ?_, fun t u h => ?_, fun t => ih _ (hx.2.2 _)⟩
    · show view (L.get (L.put t (f (L.get t)))) = view (L.get t)
      rw [L.get_put]
      exact hx.1 _
    · simp only [hx.2.1 (L.get t) (L.get u) h]

theorem ReadOnly.within_zoom {view' : τ → ν} (hx : x.ReadOnly) (hview : ∀ t u, view' t = view' u → L.get t = L.get u) :
    (x.zoom L).Within view' := by
  induction x with
  | ret o => trivial
  | atomic f k ih =>
    refine ⟨fun t => ?_, fun t u h => ?_, fun t => ih _ (hx _).2⟩
    · have hf : f (L.get t) = L.get t := (hx (L.get t)).1
      simp only [hf, L.put_get]
    · simp only [hview t u h]

end

end Act

/-! ### One call after the other -/

variable {ι κ : Type} {body : κ → Act σ ε α} {s t : σ}

/-- The calls with their outcomes, and the final state, when they are executed one after the other. -/
def inOrder (body : κ → Act σ ε α) (s : σ) : List κ → List (κ × Outcome ε α) × σ
  | [] => ([], s)
  | c :: calls =>
    let (o, t) := (body c).run s
    ((c, o) :: (inOrder body t calls).1, (inOrder body t calls).2)

/-- The calls of a history have the outcomes that they have in their order from `s`, where they lead to `t`. -/
def Ordered (body : κ → Act σ ε α) (s : σ) (history : List (ι × κ × Outcome ε α)) (t : σ) : Prop :=
  inOrder body s (history.map (·.2.1)) = (history.map (·.2), t)

section

variable {history history' : List (ι × κ × Outcome ε α)} {c : κ} {o : Outcome ε α}

theorem ordered_nil (s : σ) : Ordered body s ([] : List (ι × κ × Outcome ε α)) s := rfl

theorem ordered_cons {i : ι} :
    Ordered body s ((i, c, o) :: history) t ↔ ((body c).run s).1 = o ∧ Ordered body ((body c).run s).2 history t := by
  simp only [Ordered, inOrder, List.map_cons, List.cons.injEq, true_and, Prod.ext_iff, and_assoc]

theorem ordered_append : Ordered body s (history ++ history') t ↔
    ∃ u, Ordered body s history u ∧ Ordered body u history' t := by
  induction history generalizing s with
  | nil =>
    constructor
    · exact fun h => ⟨s, ordered_nil s, h⟩
    · rintro ⟨u, hu, h⟩
      obtain rfl : s = u := congrArg Prod.snd hu
      exact h
  | cons e history ih =>
    obtain ⟨i, c, o⟩ := e
    rw [List.cons_append, ordered_cons, ih]
    constructor
    · rintro ⟨ho, u, hu, h⟩
      exact ⟨u, ordered_cons.2 ⟨ho, hu⟩, h⟩
    · rintro ⟨u, hu, h⟩
      obtain ⟨ho, hu⟩ := ordered_cons.1 hu
      exact ⟨ho, u, hu, h⟩

theorem Ordered.concat {u : σ} (h : Ordered body s history t) (hc : (body c).run t = (o, u)) (i : ι) :
    Ordered body s (history ++ [(i, c, o)]) u := by
  refine ordered_append.2 ⟨t, h, ordered_cons.2 ?_⟩
  rw [hc]
  exact ⟨rfl, ordered_nil u⟩

end

/-! ### Values that trail behind the shared ones -/

section

variable [DecidableEq ι] {looked : ι → List κ}

private theorem mem_update {i j : ι} {l : List κ} {k : κ} (h : k ∈ Function.update looked i l j) :
    (j = i ∧ k ∈ l) ∨ (j ≠ i ∧ k ∈ looked j) := by
  by_cases hj : j = i
  · subst hj
    exact Or.inl ⟨rfl, by rwa [Function.update_self] at h⟩
  · exact Or.inr ⟨hj, by rwa [Function.update_of_ne hj] at h⟩

private theorem mem_update_concat {i j : ι} {k k' : κ} (hne : k' ≠ k)
    (h : k' ∈ Function.update looked i (looked i ++ [k]) j) : k' ∈ looked j := by
  rcases mem_update h with ⟨rfl, h⟩ | ⟨-, h⟩
  · simpa [hne] using h
  · exact h

private theorem not_mem_of_update_concat {i j : ι} {k k' : κ}
    (h : k' ∉ Function.update looked i (looked i ++ [k]) j) : k' ∉ looked j := by
  by_cases hj : j = i
  · subst hj
    rw [Function.update_self] at h
    exact fun hk => h (List.mem_append_left _ hk)
  · rwa [Function.update_of_ne hj] at h

private theorem mem_update_nil {i j : ι} {k : κ} (h : k ∈ Function.update looked i [] j) : j ≠ i ∧ k ∈ looked j := by
  rcases mem_update h with ⟨-, h⟩ | h
  · cases h
  · exact h

end

variable {V : Type} {pass : κ → V → V → Prop} {looked : ι → List κ} {q q' : κ → V}

/-- The keys that the calls in flight have passed are `looked`; the calls that have ended have left `q`, and the shared
values are `q'`. -/
structure Trails (pass : κ → V → V → Prop) (looked : ι → List κ) (q q' : κ → V) : Prop where
  passed : ∀ i, ∀ k ∈ looked i, pass k (q k) (q' k)
  level : ∀ k, (∀ i, k ∉ looked i) → q k = q' k
  again : ∀ i k, (looked i).Duplicate k → pass k (q' k) (q' k)
  both : ∀ i j k, i ≠ j → k ∈ looked i → k ∈ looked j → pass k (q' k) (q' k)

theorem Trails.refl (q : κ → V) (h : ∀ i, looked i = []) : Trails pass looked q q where
  passed i k hk := by simp [h i] at hk
  level _ _ := rfl
  again i k hk := by
    rw [h i] at hk
    cases hk
  both i j k _ hi _ := by simp [h i] at hi

theorem Trails.pass_or_eq (h : Trails pass looked q q') (k : κ) : pass k (q k) (q' k) ∨ q k = q' k := by
  by_cases hk : ∃ i, k ∈ looked i
  · obtain ⟨i, hi⟩ := hk
    exact Or.inl (h.passed i k hi)
  · exact Or.inr (h.level k fun i hi => hk ⟨i, hi⟩)

variable [DecidableEq κ]

/-- The values that a call has left which has passed the keys after `q`. -/
def behind (keys : List κ) (q q' : κ → V) (k : κ) : V := if k ∈ keys then q' k else q k

theorem behind_cons (k : κ) (keys : List κ) :
    behind keys (Function.update q k (q' k)) q' = behind (k :: keys) q q' := by
  funext k'
  unfold behind
  by_cases hk : k' = k
  · subst hk
    simp
  · simp [hk]

namespace Trails

/-- A key that no other call has passed. -/
theorem behind_eq (h : Trails pass looked q q') {i : ι} {k : κ} (hk : ∀ j, j ≠ i → k ∉ looked j) :
    behind (looked i) q q' k = q' k := by
  unfold behind
  split
  · rfl
  · rename_i hi
    refine h.level k fun j => ?_
    by_cases hj : j = i
    · rwa [hj]
    · exact hk j hj

variable [DecidableEq ι]

private theorem duplicate_update_concat {i j : ι} {k k' : κ} (hne : k' ≠ k)
    (h : (Function.update looked i (looked i ++ [k]) j).Duplicate k') : (looked j).Duplicate k' := by
  by_cases hj : j = i
  · subst hj
    rw [Function.update_self, List.duplicate_iff_two_le_count, List.count_append, List.count_singleton,
      if_neg (by simpa using hne.symm)] at h
    exact List.duplicate_iff_two_le_count.2 h
  · rwa [Function.update_of_ne hj] at h

/-- A call passes a key and leaves its value. -/
theorem look (h : Trails pass looked q q') (i : ι) {k : κ} (hp : pass k (q' k) (q' k)) :
    Trails pass (Function.update looked i (looked i ++ [k])) q q' where
  passed j k' hk' := by
    by_cases hne : k' = k
    · subst hne
      rcases h.pass_or_eq k' with hpass | heq
      · exact hpass
      · rwa [heq]
    · exact h.passed j k' (mem_update_concat hne hk')
  level k' hk' := h.level k' fun j => not_mem_of_update_concat (hk' j)
  again j k' hk' := by
    by_cases hne : k' = k
    · rwa [hne]
    · exact h.again j k' (duplicate_update_concat hne hk')
  both j j' k' hj hk hk' := by
    by_cases hne : k' = k
    · rwa [hne]
    · exact h.both j j' k' hj (mem_update_concat hne hk) (mem_update_concat hne hk')

/-- A call passes a key, which no call has passed yet, and moves its value. -/
theorem move (h : Trails pass looked q q') (i : ι) {k : κ} {v : V} (hk : ∀ j, k ∉ looked j) (hp : pass k (q' k) v) :
    Trails pass (Function.update looked i (looked i ++ [k])) q (Function.update q' k v) where
  passed j k' hk' := by
    by_cases hne : k' = k
    · subst hne
      rwa [Function.update_self, h.level k' hk]
    · rw [Function.update_of_ne hne]
      exact h.passed j k' (mem_update_concat hne hk')
  level k' hk' := by
    have hne : k' ≠ k := by
      rintro rfl
      have hi := hk' i
      simp at hi
    rw [Function.update_of_ne hne]
    exact h.level k' fun j => not_mem_of_update_concat (hk' j)
  again j k' hk' := by
    by_cases hne : k' = k
    · -- it has been passed once only
      subst hne
      have hcount : (looked j).count k' = 0 := List.count_eq_zero.2 (hk j)
      rw [List.duplicate_iff_two_le_count] at hk'
      by_cases hj : j = i
      · subst hj
        simp [hcount] at hk'
      · simp [Function.update_of_ne hj, hcount] at hk'
    · rw [Function.update_of_ne hne]
      exact h.again j k' (duplicate_update_concat hne hk')
  both j j' k' hj hk₁ hk₂ := by
    by_cases hne : k' = k
    · subst hne
      rcases mem_update hk₁ with ⟨rfl, -⟩ | ⟨-, hk₁⟩
      · rcases mem_update hk₂ with ⟨rfl, -⟩ | ⟨-, hk₂⟩
        · exact absurd rfl hj
        · exact absurd hk₂ (hk j')
      · exact absurd hk₁ (hk j)
    · rw [Function.update_of_ne hne]
      exact h.both j j' k' hj (mem_update_concat hne hk₁) (mem_update_concat hne hk₂)

/-- A call ends, and leaves the keys that it has passed as they are. -/
theorem finish (h : Trails pass looked q q') (i : ι) :
    Trails pass (Function.update looked i []) (behind (looked i) q q') q' where
  passed j k hk := by
    obtain ⟨hj, hk⟩ := mem_update_nil hk
    unfold behind
    split
    · rename_i hi
      exact h.both j i k hj hk hi
    · exact h.passed j k hk
  level k hk := by
    refine h.behind_eq fun j hj hkj => hk j ?_
    rwa [Function.update_of_ne hj]
  again j k hk := by
    by_cases hj : j = i
    · subst hj
      rw [Function.update_self] at hk
      cases hk
    · rw [Function.update_of_ne hj] at hk
      exact h.again j k hk
  both j j' k hj hk hk' := h.both j j' k hj (mem_update_nil hk).2 (mem_update_nil hk').2

omit [DecidableEq ι] in
/-- A value is stored that no call in flight has looked at. -/
theorem store (h : Trails pass looked q q') {k : κ} (v : V) (hk : ∀ j, k ∉ looked j) :
    Trails pass looked (Function.update q k v) (Function.update q' k v) := by
  have hne : ∀ {j k'}, k' ∈ looked j → k' ≠ k := by
    rintro j k' hk' rfl
    exact hk j hk'
  refine ⟨fun j k' hk' => ?_, fun k' hk' => ?_, fun j k' hk' => ?_, fun j j' k' hj hk₁ hk₂ => ?_⟩
  · rw [Function.update_of_ne (hne hk'), Function.update_of_ne (hne hk')]
    exact h.passed j k' hk'
  · by_cases heq : k' = k
    · rw [heq, Function.update_self, Function.update_self]
    · rw [Function.update_of_ne heq, Function.update_of_ne heq]
      exact h.level k' hk'
  · rw [Function.update_of_ne (hne hk'.mem)]
    exact h.again j k' hk'
  · rw [Function.update_of_ne (hne hk₁)]
    exact h.both j j' k' hj hk₁ hk₂

end Trails

end Conc
