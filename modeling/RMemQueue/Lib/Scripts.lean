import RMemQueue.Lib.Threads

/-!
# Code that issues calls

A `Script` is the code of a client: it issues calls on a shared state one after the other and decides by how they end
what it does next.  `Script.body` makes one call of it, so that threads can run scripts as they run calls.

`System.scripts_exec`: threads that run scripts do what threads do that issue the calls of these scripts themselves.
-/

namespace Conc

inductive Script (κ ε α β : Type) where
  | done (o : Outcome ε β)
  | call (c : κ) (k : Outcome ε α → Script κ ε α β)

variable {ι κ κ' σ ε α β : Type}

/-- Go on however the call has ended. -/
def Act.andFinally (x : Act σ ε α) (g : Outcome ε α → Act σ ε β) : Act σ ε β :=
  match x with
  | .ret o => g o
  | .atomic f k => .atomic f fun s => (k s).andFinally g

namespace Script

/-- The steps of the script. -/
def body (calls : κ → Act σ ε α) : Script κ ε α β → Act σ ε β
  | .done o => .ret o
  | .call c k => (calls c).andFinally fun o => (k o).body calls

/-- The script with its result mapped. -/
def map {γ : Type} (f : β → γ) : Script κ ε α β → Script κ ε α γ
  | .done o => .done (o.map f)
  | .call c k => .call c fun o => (k o).map f

theorem body_map {γ : Type} (calls : κ → Act σ ε α) (f : β → γ) (s : Script κ ε α β) :
    (s.map f).body calls = (s.body calls).andFinally fun o => .ret (o.map f) := by
  induction s with
  | done o => rfl
  | call c k ih =>
    have hrest : ∀ x : Act σ ε α, (x.andFinally fun o => ((k o).map f).body calls) =
        (x.andFinally fun o => (k o).body calls).andFinally fun o => .ret (o.map f) := by
      intro x
      induction x with
      | ret o => exact ih o
      | atomic g l ihx => exact congrArg (Act.atomic g) (funext ihx)
    exact hrest (calls c)

/-- Every call that the script may issue has the property. -/
def All (p : κ → Prop) : Script κ ε α β → Prop
  | .done _ => True
  | .call c k => p c ∧ ∀ o, (k o).All p

/-- When the script has issued the calls `h`, which have ended so, `s'` is left of it. -/
inductive Leads : Script κ ε α β → List (κ × Outcome ε α) → Script κ ε α β → Prop
  | nil (s : Script κ ε α β) : Leads s [] s
  | cons {c : κ} {k : Outcome ε α → Script κ ε α β} {o : Outcome ε α} {h : List (κ × Outcome ε α)}
      {s' : Script κ ε α β} (hk : Leads (k o) h s') : Leads (.call c k) ((c, o) :: h) s'

theorem Leads.append {s s' s'' : Script κ ε α β} {h h' : List (κ × Outcome ε α)} (hs : Leads s h s')
    (hs' : Leads s' h' s'') : Leads s (h ++ h') s'' := by
  induction hs with
  | nil s => exact hs'
  | cons hk ih => exact .cons (ih hs')

theorem Leads.all {p : κ → Prop} {s s' : Script κ ε α β} {h : List (κ × Outcome ε α)} (hs : Leads s h s')
    (hall : s.All p) : s'.All p := by
  induction hs with
  | nil s => exact hall
  | cons hk ih => exact ih (hall.2 _)

theorem leads_nil_iff {s s' : Script κ ε α β} : Leads s [] s' ↔ s' = s := by
  constructor
  · rintro ⟨⟩
    rfl
  · rintro rfl
    exact .nil _

theorem leads_done_iff {o : Outcome ε β} {h : List (κ × Outcome ε α)} {s' : Script κ ε α β} :
    Leads (.done o) h s' ↔ h = [] ∧ s' = .done o := by
  constructor
  · rintro ⟨⟩
    exact ⟨rfl, rfl⟩
  · rintro ⟨rfl, rfl⟩
    exact .nil _

/-- A script of one call. -/
theorem leads_one {c : κ} {f : Outcome ε α → Outcome ε β} {h : List (κ × Outcome ε α)} {s' : Script κ ε α β}
    (hs : Leads (.call c fun o => .done (f o)) h s') :
    (h = [] ∧ s' = .call c fun o => .done (f o)) ∨ ∃ o, h = [(c, o)] ∧ s' = .done (f o) := by
  cases hs with
  | nil => exact Or.inl ⟨rfl, rfl⟩
  | @cons _ _ o _ _ hk =>
    obtain ⟨rfl, rfl⟩ := leads_done_iff.1 hk
    exact Or.inr ⟨o, rfl, rfl⟩

theorem leads_map {γ : Type} {f : β → γ} {s : Script κ ε α β} {h : List (κ × Outcome ε α)} {s' : Script κ ε α γ}
    (hs : Leads (s.map f) h s') : ∃ s'', Leads s h s'' ∧ s' = s''.map f := by
  induction h generalizing s with
  | nil => exact ⟨s, .nil s, leads_nil_iff.1 hs⟩
  | cons e h ih =>
    cases s with
    | done o => cases (leads_done_iff.1 hs).1
    | call c k =>
      cases hs with
      | cons hk =>
        obtain ⟨s'', hs'', rfl⟩ := ih hk
        exact ⟨s'', .cons hs'', rfl⟩

theorem All.map {γ : Type} {f : β → γ} {p : κ → Prop} {s : Script κ ε α β} (hs : s.All p) : (s.map f).All p := by
  induction s with
  | done o => trivial
  | call c k ih => exact ⟨hs.1, fun o => ih o (hs.2 o)⟩

theorem All.mono {p q : κ → Prop} (hpq : ∀ c, p c → q c) {s : Script κ ε α β} (hs : s.All p) : s.All q := by
  induction s with
  | done o => trivial
  | call c k ih => exact ⟨hpq c hs.1, fun o => ih o (hs.2 o)⟩

/-- The calls `h` are those of scripts that have ended, one script after the other. -/
inductive Consists (script : κ' → Script κ ε α β) : List (κ' × Outcome ε β) → List (κ × Outcome ε α) → Prop
  | nil : Consists script [] []
  | snoc {scripts : List (κ' × Outcome ε β)} {h h' : List (κ × Outcome ε α)} {c : κ'} {o : Outcome ε β}
      (hscripts : Consists script scripts h) (hc : Leads (script c) h' (.done o)) :
      Consists script (scripts ++ [(c, o)]) (h ++ h')

/-- What one of the scripts has issued, and what the scripts before it have. -/
theorem Consists.split {script : κ' → Script κ ε α β} {scripts : List (κ' × Outcome ε β)}
    {h : List (κ × Outcome ε α)} (hs : Consists script scripts h) {n : Nat} {c : κ'} {o : Outcome ε β}
    (hn : scripts[n]? = some (c, o)) :
    ∃ h₁ h₂ h₃, h = h₁ ++ (h₂ ++ h₃) ∧ Consists script (scripts.take n) h₁ ∧ Leads (script c) h₂ (.done o) := by
  induction hs with
  | nil => cases hn
  | @snoc scripts h h' c' o' hs hc ih =>
    have hlen := (List.getElem?_eq_some_iff.1 hn).1
    rw [List.length_append, List.length_singleton] at hlen
    by_cases hlast : n = scripts.length
    · subst hlast
      rw [List.getElem?_concat_length] at hn
      obtain ⟨rfl, rfl⟩ := Prod.mk.inj (Option.some.inj hn)
      refine ⟨h, h', [], by rw [List.append_nil], ?_, hc⟩
      rwa [List.take_left]
    · have hlt : n < scripts.length := by omega
      rw [List.getElem?_append_left hlt] at hn
      obtain ⟨h₁, h₂, h₃, rfl, hs₁, hs₂⟩ := ih hn
      refine ⟨h₁, h₂, h₃ ++ h', by simp, ?_, hs₂⟩
      rwa [List.take_append_of_le_length (Nat.le_of_lt hlt)]

end Script

namespace System

open Script

/-! ### Histories thread by thread -/

section

variable [DecidableEq ι]

private theorem count_own {γ : Type} [DecidableEq γ] (f : κ × Outcome ε α → Option γ) (i : ι) (x : γ)
    (h : List (ι × κ × Outcome ε α)) :
    (h.filterMap fun e => (f e.2).map (e.1, ·)).count (i, x) = ((own i h).filterMap f).count x := by
  induction h with
  | nil => rfl
  | cons e h ih =>
    obtain ⟨j, e⟩ := e
    have hown : own i ((j, e) :: h) = if j = i then e :: own i h else own i h := by
      by_cases hj : j = i <;> simp [own, hj]
    rw [hown]
    cases hf : f e with
    | none => by_cases hj : j = i <;> simp [hf, hj, ih]
    | some y => by_cases hj : j = i <;> simp [List.count_cons, hf, hj, ih]

/-- Two histories in which each thread shows the same, one call after the other, show the same in another order. -/
theorem perm_of_own {γ : Type} {f : κ × Outcome ε α → Option γ} {g : κ' × Outcome ε β → Option γ}
    {h : List (ι × κ × Outcome ε α)} {h' : List (ι × κ' × Outcome ε β)}
    (hown : ∀ i, (own i h).filterMap f = (own i h').filterMap g) :
    (h.filterMap fun e => f e.2).Perm (h'.filterMap fun e => g e.2) := by
  classical
  have hcount : (h.filterMap fun e => (f e.2).map (e.1, ·)).Perm (h'.filterMap fun e => (g e.2).map (e.1, ·)) := by
    refine List.perm_iff_count.2 fun ⟨i, x⟩ => ?_
    rw [count_own, count_own, hown]
  have hsnd := hcount.map Prod.snd
  have hmap : ∀ (i : ι) (o : Option γ), (o.map (i, ·)).map Prod.snd = o := by
    intro i o
    cases o <;> rfl
  simp only [List.map_filterMap, hmap] at hsnd
  exact hsnd

/-- What is in the history has been called. -/
theorem mem_history_exec {body : κ → Act σ ε α} {allowed : ι → κ → Prop} {sched : List (Choice ι κ)}
    (hs : ∀ i c, .call i c ∈ sched → allowed i c) {s : σ} {e : ι × κ × Outcome ε α}
    (he : e ∈ (exec body (init s) sched).history) : allowed e.1 e.2.1 := by
  have hresume : ∀ {w : System ι κ σ ε α} {i : ι} {c : κ} {s : σ} {x : Act σ ε α}, allowed i c →
      (∀ e ∈ w.history, allowed e.1 e.2.1) → ∀ e ∈ (w.resume i c s x).history, allowed e.1 e.2.1 := by
    intro w i c s x hc hw e he
    cases x with
    | atomic f k => exact hw e he
    | ret o =>
      rcases List.mem_append.1 he with he | he
      · exact hw e he
      · obtain rfl := List.mem_singleton.1 he
        exact hc
  have hinv : (exec body (init s) sched).InFlight allowed ∧
      ∀ e ∈ (exec body (init s) sched).history, allowed e.1 e.2.1 := by
    refine exec_induction (P := fun w => w.InFlight allowed ∧ ∀ e ∈ w.history, allowed e.1 e.2.1)
      (fun x => ∀ i c, x = .call i c → allowed i c) ?_ (fun x hx i c h => hs i c (h ▸ hx)) ?_
    · rintro w x hx ⟨hfly, hw⟩
      refine ⟨hfly.next hx, ?_⟩
      rcases w.next_cases body x with h | ⟨i, c, rfl, -, h⟩ | ⟨i, c, f, k, rfl, hr, h⟩
      · rwa [h]
      · rw [h]
        exact hresume (hx i c rfl) hw
      · rw [h]
        exact hresume (hfly i c _ hr) hw
    · exact ⟨fun _ _ _ h => (nomatch h), fun _ h => nomatch h⟩
  exact hinv.2 e he

end

variable [DecidableEq ι] {calls : κ → Act σ ε α} {script : κ' → Script κ ε α β} {p : ι → κ → Prop}

variable (calls script p) in
/-- A thread that issues the calls itself has reached the same as a thread that runs the scripts. -/
structure IssuesAt (v : System ι κ' σ ε β) (w : System ι κ σ ε α) (i : ι) : Prop where
  idle : v.running i = none → w.running i = none ∧ Consists script (own i v.history) (own i w.history)
  busy : ∀ c' x, v.running i = some (c', x) → ∃ h h' c f g k, own i w.history = h ++ h' ∧
    Consists script (own i v.history) h ∧ Leads (script c') h' (.call c k) ∧ (∀ o, (k o).All (p i)) ∧
    w.running i = some (c, .atomic f g) ∧ x = (Act.atomic f g).andFinally fun o => (k o).body calls

variable (calls script p) in
structure Issues (v : System ι κ' σ ε β) (w : System ι κ σ ε α) : Prop where
  shared : w.shared = v.shared
  at_ : ∀ i, IssuesAt calls script p v w i

/-- The other threads are where they were. -/
def SameBut (i : ι) (w w' : System ι κ σ ε α) : Prop :=
  ∀ j, j ≠ i → w'.running j = w.running j ∧ own j w'.history = own j w.history

theorem SameBut.refl (i : ι) (w : System ι κ σ ε α) : SameBut i w w := fun _ _ => ⟨rfl, rfl⟩

theorem SameBut.trans {i : ι} {w w' w'' : System ι κ σ ε α} (h : SameBut i w w') (h' : SameBut i w' w'') :
    SameBut i w w'' :=
  fun j hj => ⟨(h' j hj).1.trans (h j hj).1, (h' j hj).2.trans (h j hj).2⟩

theorem sameBut_resume (w : System ι κ σ ε α) (i : ι) (c : κ) (s : σ) (x : Act σ ε α) :
    SameBut i w (w.resume i c s x) := by
  intro j hj
  cases x with
  | ret o => exact ⟨by simp [resume, hj], own_append_ne (Ne.symm hj) _ _⟩
  | atomic f k => exact ⟨by simp [resume, hj], rfl⟩

/-- An idle thread issues the calls of a script up to the first one that takes a step. -/
private theorem exists_issued (w : System ι κ σ ε α) {i : ι} (hi : w.running i = none) (s : Script κ ε α β)
    (hs : s.All (p i)) : ∃ sched : List (Choice ι κ), (∀ j c, .call j c ∈ sched → p j c) ∧
      (w.exec calls sched).shared = w.shared ∧ SameBut i w (w.exec calls sched) ∧
      ∃ h s', Leads s h s' ∧ own i (w.exec calls sched).history = own i w.history ++ h ∧
        ((∃ o, s' = .done o ∧ s.body calls = .ret o ∧ (w.exec calls sched).running i = none) ∨
          ∃ c f g k, s' = .call c k ∧ (w.exec calls sched).running i = some (c, .atomic f g) ∧
            s.body calls = (Act.atomic f g).andFinally fun o => (k o).body calls) := by
  induction s generalizing w with
  | done o =>
    refine ⟨[], by simp, rfl, SameBut.refl i w, [], _, .nil _, ?_, Or.inl ⟨o, rfl, rfl, hi⟩⟩
    exact (List.append_nil _).symm
  | call c k ih =>
    have hnext : w.next calls (.call i c) = w.resume i c w.shared (calls c) := next_call hi c
    cases hc : calls c with
    | atomic f g =>
      have hw : w.exec calls [.call i c] = w.resume i c w.shared (.atomic f g) := by
        rw [← hc, ← hnext]
        rfl
      refine ⟨[.call i c], ?_, ?_, ?_, [], _, .nil _, ?_, Or.inr ⟨c, f, g, k, rfl, ?_, ?_⟩⟩
      · intro j d hd
        obtain ⟨rfl, rfl⟩ : j = i ∧ d = c := by simpa using hd
        exact hs.1
      · rw [hw, shared_resume]
      · rw [hw]
        exact sameBut_resume w i c _ _
      · rw [hw]
        simp [resume]
      · rw [hw]
        simp [resume]
      · show (calls c).andFinally _ = _
        rw [hc]
    | ret o =>
      have hw : w.next calls (.call i c) = w.resume i c w.shared (.ret o) := by rw [hnext, hc]
      have hidle : (w.next calls (.call i c)).running i = none := by simp [hw, resume]
      obtain ⟨sched, hp, hshared, hothers, h, s', hleads, hown, hend⟩ := ih o _ hidle (hs.2 o)
      have hbody : (Script.call c k).body calls = (k o).body calls := by
        show (calls c).andFinally _ = _
        rw [hc]
        rfl
      refine ⟨.call i c :: sched, ?_, ?_, ?_, (c, o) :: h, s', .cons hleads, ?_, ?_⟩
      · intro j d hd
        rcases List.mem_cons.1 hd with hd | hd
        · obtain ⟨rfl, rfl⟩ := Choice.call.inj hd
          exact hs.1
        · exact hp j d hd
      · exact hshared.trans (by rw [hw, shared_resume])
      · refine SameBut.trans ?_ hothers
        rw [hw]
        exact sameBut_resume w i c w.shared (.ret o)
      · show own i ((w.next calls (.call i c)).exec calls sched).history = _
        rw [hown, hw]
        simp [resume]
      · rw [hbody]
        exact hend

/-- The other threads do not notice. -/
private theorem IssuesAt.congr {v v' : System ι κ' σ ε β} {w w' : System ι κ σ ε α} {i j : ι}
    (h : IssuesAt calls script p v w j) (hj : j ≠ i) (hv : SameBut i v v') (hw : SameBut i w w') :
    IssuesAt calls script p v' w' j := by
  obtain ⟨hv₁, hv₂⟩ := hv j hj
  obtain ⟨hw₁, hw₂⟩ := hw j hj
  constructor
  · rw [hv₁, hv₂, hw₁, hw₂]
    exact h.idle
  · rw [hv₁, hv₂, hw₁, hw₂]
    exact h.busy

/-- The thread of a script is idle without scripts, and has `s` left of the script. -/
private theorem issues_reach {v : System ι κ' σ ε β} {w : System ι κ σ ε α} {i : ι} {c' : κ'} {s : Script κ ε α β}
    {h h' : List (κ × Outcome ε α)} (hothers : ∀ j, j ≠ i → IssuesAt calls script p v w j)
    (hi : w.running i = none) (hown : own i w.history = h ++ h') (hh : Consists script (own i v.history) h)
    (hlead : Leads (script c') h' s) (hall : s.All (p i)) :
    ∃ sched : List (Choice ι κ), (∀ j c, .call j c ∈ sched → p j c) ∧
      Issues calls script p (v.resume i c' w.shared (s.body calls)) (w.exec calls sched) := by
  obtain ⟨sched, hp, hshared, hsame, h'', s', hleads, hown', hend⟩ := exists_issued w hi s hall
  refine ⟨sched, hp, by rw [hshared, shared_resume], fun j => ?_⟩
  by_cases hji : j = i
  · subst hji
    rcases hend with ⟨o, rfl, hbody, hidle⟩ | ⟨c, f, g, k, rfl, hrun, hbody⟩
    · rw [hbody]
      refine ⟨fun _ => ⟨hidle, ?_⟩, fun d x hj => ?_⟩
      · rw [hown', hown, List.append_assoc]
        show Consists script (own j (v.history ++ [(j, c', o)])) _
        rw [own_append_self]
        exact .snoc hh (hlead.append hleads)
      · simp [resume] at hj
    · rw [hbody]
      refine ⟨fun hj => ?_, fun d x hj => ?_⟩
      · simp [resume, Act.andFinally] at hj
      · obtain ⟨rfl, rfl⟩ : c' = d ∧ (Act.atomic f g).andFinally (fun o => (k o).body calls) = x := by
          simpa [resume, Act.andFinally] using hj
        have hleads' := hlead.append hleads
        refine ⟨h, h' ++ h'', c, f, g, k, ?_, hh, hleads', (hleads.all hall).2, hrun, rfl⟩
        rw [hown', hown, List.append_assoc]
  · exact (hothers j hji).congr hji (sameBut_resume v i c' w.shared (s.body calls)) hsame

/-- One choice. -/
private theorem Issues.next {v : System ι κ' σ ε β} {w : System ι κ σ ε α} (hvw : Issues calls script p v w)
    {x : Choice ι κ'} (hx : ∀ i c, x = .call i c → (script c).All (p i)) :
    ∃ sched : List (Choice ι κ), (∀ j c, .call j c ∈ sched → p j c) ∧
      Issues calls script p (v.next (fun c => (script c).body calls) x) (w.exec calls sched) := by
  rcases v.next_cases (fun c => (script c).body calls) x with hv | ⟨i, c', rfl, hr, hv⟩ | ⟨i, c', f', g', rfl, hr, hv⟩
  · rw [hv]
    refine ⟨[], fun _ _ h => ?_, hvw⟩
    cases h
  · obtain ⟨hidle, hown⟩ := (hvw.at_ i).idle hr
    rw [hv, ← hvw.shared]
    exact issues_reach (h := own i w.history) (fun j _ => hvw.at_ j) hidle (List.append_nil _).symm hown (.nil _)
      (hx i c' rfl)
  · obtain ⟨h, h', c, f, g, k, hown, hh, hlead, hall, hrun, hbody⟩ := (hvw.at_ i).busy c' _ hr
    obtain ⟨rfl, rfl⟩ : f' = f ∧ g' = fun s => (g s).andFinally fun o => (k o).body calls := by
      simpa [Act.andFinally] using hbody
    have hstep : w.next calls (.step i) = w.resume i c (f' v.shared) (g v.shared) := by
      rw [next_step hrun, hvw.shared]
    have hsame : SameBut i w (w.next calls (.step i)) := by
      rw [hstep]
      exact sameBut_resume w i c _ _
    have hothers : ∀ j, j ≠ i → IssuesAt calls script p v (w.next calls (.step i)) j :=
      fun j hj => (hvw.at_ j).congr hj (.refl i v) hsame
    have hshared : (w.next calls (.step i)).shared = f' v.shared := by rw [hstep, shared_resume]
    rw [hv]
    show ∃ sched, _ ∧ Issues calls script p (v.resume i c' (f' v.shared) ((g v.shared).andFinally _)) _
    cases hg : g v.shared with
    | ret o =>
      -- the call has ended, and the script goes on
      rw [hg] at hstep
      have hidle : (w.next calls (.step i)).running i = none := by simp [hstep, resume]
      have hown' : own i (w.next calls (.step i)).history = h ++ (h' ++ [(c, o)]) := by
        rw [hstep, ← List.append_assoc, ← hown]
        simp [resume]
      have hlead' : Leads (script c') (h' ++ [(c, o)]) (k o) := hlead.append (.cons (.nil _))
      obtain ⟨sched, hp, hissues⟩ := issues_reach hothers hidle hown' hh hlead' (hall o)
      refine ⟨.step i :: sched, fun j d hd => hp j d (by simpa using hd), ?_⟩
      rw [hshared] at hissues
      exact hissues
    | atomic f₁ g₁ =>
      rw [hg] at hstep
      refine ⟨[.step i], by simp, ?_⟩
      show Issues calls script p _ (w.next calls (.step i))
      refine ⟨by rw [hshared, shared_resume], fun j => ?_⟩
      by_cases hji : j = i
      · subst hji
        refine ⟨fun hj => by simp [resume, Act.andFinally] at hj, fun d x hj => ?_⟩
        obtain ⟨rfl, rfl⟩ : c' = d ∧ (Act.atomic f₁ g₁).andFinally (fun o => (k o).body calls) = x := by
          simpa [resume, Act.andFinally] using hj
        refine ⟨h, h', c, f₁, g₁, k, ?_, hh, hlead, hall, by simp [hstep, resume], rfl⟩
        rw [hstep, ← hown]
        simp [resume]
      · exact (hothers j hji).congr hji (sameBut_resume v i c' _ _) (.refl i _)

theorem issues_init (s : σ) : Issues calls script p (init s) (init s) :=
  ⟨rfl, fun _ => ⟨fun _ => ⟨rfl, .nil⟩, fun _ _ h => nomatch h⟩⟩

/-- Threads that run scripts do what threads do that issue the calls of these scripts. -/
theorem scripts_exec {v : System ι κ' σ ε β} {w : System ι κ σ ε α} (hvw : Issues calls script p v w)
    (sched' : List (Choice ι κ')) (hs : ∀ i c, .call i c ∈ sched' → (script c).All (p i)) :
    ∃ sched : List (Choice ι κ), (∀ j c, .call j c ∈ sched → p j c) ∧
      Issues calls script p (v.exec (fun c => (script c).body calls) sched') (w.exec calls sched) := by
  induction sched' generalizing v w with
  | nil => exact ⟨[], fun _ _ h => (nomatch h), hvw⟩
  | cons x sched' ih =>
    obtain ⟨sched₁, hp₁, h₁⟩ := hvw.next fun i c h => hs i c (h ▸ List.mem_cons_self ..)
    obtain ⟨sched₂, hp₂, h₂⟩ := ih h₁ fun i c h => hs i c (List.mem_cons_of_mem _ h)
    refine ⟨sched₁ ++ sched₂, fun j c h => ?_, ?_⟩
    · exact (List.mem_append.1 h).elim (hp₁ j c) (hp₂ j c)
    · rw [exec_append]
      exact h₂

end System

end Conc
