import RMemQueue.PassedEntries

/-!
# The steps of concurrent operations on a consumer

`Follows`: the calls that have ended, executed one after the other in the order in which they have ended, lead to a
session that differs from the shared one in the positions that polls in flight have moved, and each poll in flight has
passed its entries in that session as well.  `Follows.next` is its step lemma, for steps that are `Undisturbed`: an
update does not get in the way of a poll that is in flight.
-/

namespace RMemQueue

open Conc

variable {π : Type}

/-! ### Operations in flight -/

section

variable (c : BaseConsumer) (b : Broker π) (s : ConsumerState)

/-- What the poll has found out holds of the state. -/
def PollPoint.Valid : PollPoint π → Prop
  | start => True
  | look x => x.Open s
  | fetch x key y => x.Open s ∧ s.polled x.idx = some key ∧ y.call.Within Broker.surroundings ∧
      ∀ b' : Broker π, b'.surroundings = b.surroundings → (y.call.run b').1 = c.fetched b key (s.positionOf key)
  | deliver x key msg => x.Open s ∧ s.polled x.idx = some key ∧ c.fetched b key (s.positionOf key) = .ok (some msg)
  | reset x key offset => x.Open s ∧ s.polled x.idx = some key ∧
      ∃ topic partition, c.fetched b key (s.positionOf key) = .err (.offsetOutOfRange topic partition offset)

/-- The partitions that the poll has passed. -/
def PollPoint.keys : PollPoint π → List (String × Int)
  | start => []
  | look x => x.keys s x.passed
  | fetch x _ _ => x.keys s x.passed
  | deliver x _ _ => x.keys s x.passed
  | reset x _ _ => x.keys s x.passed

def SharedPoint.Valid (r : Request) : SharedPoint π → Prop
  | poll p => r = .pollOnce ∧ p.Valid c b s
  | ask f k => ∃ x, r.ask c = some x ∧ Asks b x (.atomic f k)
  | update u => ∃ x, r.ask c = some x ∧ Asks b x (.ret (.ok u))
  | other _ => False

def SharedPoint.keys : SharedPoint π → List (String × Int)
  | poll p => p.keys s
  | _ => []

end

namespace StateUpdate

variable {u : StateUpdate} {s : ConsumerState} {x : Pass} {entries : List Nat} {key : String × Int}

/-- Updates of positions leave the entries as they are. -/
private theorem Spares.polled (h : u.Spares s x entries) (hne : entries ≠ []) (idx : Nat) :
    (u.apply s).polled idx = s.polled idx := by
  cases u with
  | position => rfl
  | deliver => rfl
  | assign => exact absurd h.2 hne
  | clear => exact absurd h.2 hne

private theorem Spares.keys (h : u.Spares s x entries) {passed : List Nat} (hsub : passed ⊆ entries) :
    x.keys (u.apply s) passed = x.keys s passed := by
  rcases passed with _ | ⟨i, passed⟩
  · rfl
  · have hne := List.ne_nil_of_mem (hsub (List.mem_cons_self ..))
    unfold Pass.keys
    simp only [h.polled hne]

private theorem Spares.positionOf (h : u.Spares s x entries) (hkey : key ∈ x.keys s entries) :
    (u.apply s).positionOf key = s.positionOf key := by
  have hne : entries ≠ [] := by
    rintro rfl
    simp [Pass.keys] at hkey
  cases u with
  | position key' offset =>
    have hk : key ≠ key' := fun hk => h.2 (hk ▸ hkey)
    exact AList.lookup_insert_ne hk
  | deliver key' offset idx =>
    have hk : key ≠ key' := fun hk => h.2 (hk ▸ hkey)
    exact AList.lookup_insert_ne hk
  | assign => exact absurd h.2 hne
  | clear => exact absurd h.2 hne

private theorem Spares.open (h : u.Spares s x entries) (hx : x.Open s) : x.Open (u.apply s) :=
  ⟨h.1.trans hx.bounds, hx.entries⟩

end StateUpdate

namespace PollPoint

variable {c : BaseConsumer} {b : Broker π} {s : ConsumerState} {p : PollPoint π} {x : Pass} {entries : List Nat}

private theorem present_mem_keys {key : String × Int} (h : s.polled x.idx = some key) :
    key ∈ x.keys s (x.passed ++ [x.i]) :=
  List.mem_filterMap.2 ⟨x.i, by simp, h⟩

/-- A poll whose entries an update leaves alone. -/
private theorem Valid.spared (h : p.Valid c b s) {u : StateUpdate} (hp : p.entries = some (x, entries))
    (hu : u.Spares s x entries) : p.Valid c b (u.apply s) ∧ p.keys (u.apply s) = p.keys s := by
  have hne : x.passed ++ [x.i] ≠ [] := by simp
  have hsub : x.passed ⊆ x.passed ++ [x.i] := List.subset_append_left ..
  cases p with
  | start => cases hp
  | look x =>
    obtain ⟨rfl, rfl⟩ := Prod.mk.inj (Option.some.inj hp)
    exact ⟨hu.open h, hu.keys (List.Subset.refl _)⟩
  | fetch x key y =>
    obtain ⟨rfl, rfl⟩ := Prod.mk.inj (Option.some.inj hp)
    obtain ⟨hopen, hkey, hwithin, hrun⟩ := h
    refine ⟨⟨hu.open hopen, (hu.polled hne _).trans hkey, hwithin, ?_⟩, hu.keys hsub⟩
    rwa [hu.positionOf (present_mem_keys hkey)]
  | deliver x key msg =>
    obtain ⟨rfl, rfl⟩ := Prod.mk.inj (Option.some.inj hp)
    obtain ⟨hopen, hkey, hf⟩ := h
    refine ⟨⟨hu.open hopen, (hu.polled hne _).trans hkey, ?_⟩, hu.keys hsub⟩
    rwa [hu.positionOf (present_mem_keys hkey)]
  | reset x key offset =>
    obtain ⟨rfl, rfl⟩ := Prod.mk.inj (Option.some.inj hp)
    obtain ⟨hopen, hkey, hf⟩ := h
    refine ⟨⟨hu.open hopen, (hu.polled hne _).trans hkey, ?_⟩, hu.keys hsub⟩
    rwa [hu.positionOf (present_mem_keys hkey)]

/-- The partitions that a poll has passed are among those that it has read. -/
private theorem keys_subset (hp : p.entries = some (x, entries)) : p.keys s ⊆ x.keys s entries := by
  have hsub : ∀ x : Pass, x.keys s x.passed ⊆ x.keys s (x.passed ++ [x.i]) := by
    intro x
    unfold Pass.keys
    rw [List.filterMap_append]
    exact List.subset_append_left ..
  cases p with
  | start => cases hp
  | look x =>
    obtain ⟨rfl, rfl⟩ := Prod.mk.inj (Option.some.inj hp)
    exact List.Subset.refl _
  | fetch x =>
    obtain ⟨rfl, rfl⟩ := Prod.mk.inj (Option.some.inj hp)
    exact hsub x
  | deliver x =>
    obtain ⟨rfl, rfl⟩ := Prod.mk.inj (Option.some.inj hp)
    exact hsub x
  | reset x =>
    obtain ⟨rfl, rfl⟩ := Prod.mk.inj (Option.some.inj hp)
    exact hsub x

end PollPoint

/-! ### The calls that have ended, one after the other -/

variable {ι : Type}

/-- Operations on one consumer by any threads. -/
abbrev SharedRun (ι π : Type) := System ι Request (Session π) RmqError Reply

/-- The partitions that the polls in flight have passed. -/
def looked (w : SharedRun ι π) (place : ι → Option (SharedPoint π)) (i : ι) : List (String × Int) :=
  if (w.running i).isSome then (place i).elim [] (·.keys w.shared.state) else []

/-- The calls that have ended lead to the session `t`, one after the other: it has the present state but for positions
that polls in flight have moved. -/
structure Follows (c : BaseConsumer) (s₀ : Session π) (w : SharedRun ι π) (place : ι → Option (SharedPoint π))
    (t : Session π) : Prop where
  ordered : Ordered (Request.body c) s₀ w.history t
  shared : w.shared.surroundings = s₀.surroundings
  sequential : t.surroundings = s₀.surroundings
  plan : t.state.plan = w.shared.state.plan
  valid : ∀ i r x p, w.running i = some (r, x) → place i = some p → p.Valid c s₀.broker w.shared.state r
  trails : Trails (c.Passes s₀.broker) (looked w place) t.state.positionOf w.shared.state.positionOf

/-- What the other threads have found out still holds in the state, and they have passed the same partitions. -/
def Kept (c : BaseConsumer) (b : Broker π) (w : SharedRun ι π) (place : ι → Option (SharedPoint π)) (i : ι)
    (s : ConsumerState) : Prop :=
  ∀ j r x p, j ≠ i → w.running j = some (r, x) → place j = some p →
    p.Valid c b s r ∧ p.keys s = p.keys w.shared.state

/-- An update that does not get in the way of a poll of another thread. -/
def SparesOthers (w : SharedRun ι π) (place : ι → Option (SharedPoint π)) (i : ι) (u : StateUpdate) : Prop :=
  ∀ j q x entries, j ≠ i → (w.running j).isSome → place j = some q → q.entries = some (x, entries) →
    u.Spares w.shared.state x entries

section

variable {c : BaseConsumer} {s₀ t t' : Session π} {w : SharedRun ι π} {place : ι → Option (SharedPoint π)} {i : ι}
  {r : Request} {s' : Session π} {p p' : SharedPoint π} {u : StateUpdate}

theorem looked_of_idle (h : w.running i = none) : looked w place i = [] := by
  rw [looked, h]
  rfl

private theorem looked_of_running {x : ConsumerM π Reply} (h : w.running i = some (r, x)) (hp : place i = some p) :
    looked w place i = p.keys w.shared.state := by
  rw [looked, h, hp]
  rfl

private theorem Follows.kept (h : Follows c s₀ w place t) (i : ι) : Kept c s₀.broker w place i w.shared.state :=
  fun j r x p _ hr hp => ⟨h.valid j r x p hr hp, rfl⟩

private theorem Follows.kept_spared (h : Follows c s₀ w place t) (hu : SparesOthers w place i u) :
    Kept c s₀.broker w place i (u.apply w.shared.state) := by
  intro j r x p hj hr hp
  have hvalid := h.valid j r x p hr hp
  cases p with
  | poll p =>
    rcases he : p.entries with _ | ⟨y, entries⟩
    · cases p with
      | start => exact ⟨⟨hvalid.1, trivial⟩, rfl⟩
      | _ => cases he
    · have hspares := hu j (.poll p) y entries hj (by rw [hr]; rfl) hp he
      obtain ⟨hv, hk⟩ := hvalid.2.spared he hspares
      exact ⟨⟨hvalid.1, hv⟩, hk⟩
  | ask f k => exact ⟨hvalid, rfl⟩
  | update u => exact ⟨hvalid, rfl⟩
  | other x => exact ⟨hvalid, rfl⟩

/-- A poll of another thread has not passed the partition that is stored. -/
private theorem SparesOthers.not_looked (h : SparesOthers w place i u) {key : String × Int}
    (hu : ∀ x entries, u.Spares w.shared.state x entries → key ∉ x.keys w.shared.state entries) {j : ι} (hj : j ≠ i) :
    key ∉ looked w place j := by
  intro hkey
  unfold looked at hkey
  split at hkey
  · rename_i hr
    rcases hp : place j with _ | p
    · rw [hp] at hkey
      cases hkey
    · rw [hp, Option.elim_some] at hkey
      cases p with
      | poll p =>
        rcases he : p.entries with _ | ⟨x, entries⟩
        · cases p with
          | start => cases hkey
          | _ => cases he
        · exact hu x entries (h j (.poll p) x entries hj hr hp he) (p.keys_subset he hkey)
      | ask => cases hkey
      | update => cases hkey
      | other => cases hkey
  · cases hkey

variable [DecidableEq ι]

private theorem looked_resume (hk : Kept c s₀.broker w place i s'.state) (x : ConsumerM π Reply) :
    looked (w.resume i r s' x) (Function.update place i (some p')) =
      Function.update (looked w place) i (if ((w.resume i r s' x).running i).isSome then p'.keys s'.state else []) := by
  funext j
  by_cases hj : j = i
  · subst hj
    rw [looked, Function.update_self, Function.update_self, System.shared_resume]
    rfl
  · have hrun : (w.resume i r s' x).running j = w.running j := by
      cases x <;> simp [System.resume, hj]
    rw [looked, hrun, Function.update_of_ne hj, Function.update_of_ne hj, looked, System.shared_resume]
    split
    · rename_i hr
      obtain ⟨⟨r', x'⟩, hr⟩ := Option.isSome_iff_exists.1 hr
      cases hp : place j with
      | none => rfl
      | some q => exact (hk j r' x' q hj hr hp).2
    · rfl

private theorem valid_resume (hk : Kept c s₀.broker w place i s'.state) {x : ConsumerM π Reply}
    (hp' : x.Goes → p'.Valid c s₀.broker s'.state r) (j : ι) (r' : Request) (y : ConsumerM π Reply) (q : SharedPoint π)
    (hr : (w.resume i r s' x).running j = some (r', y)) (hq : Function.update place i (some p') j = some q) :
    q.Valid c s₀.broker (w.resume i r s' x).shared.state r' := by
  rw [System.shared_resume]
  rcases System.running_resume hr with ⟨rfl, rfl, -, hgoes⟩ | ⟨hj, hr⟩
  · rw [Function.update_self] at hq
    obtain rfl := Option.some.inj hq
    exact hp' hgoes
  · rw [Function.update_of_ne hj] at hq
    exact (hk j r' y q hj hr hq).1

/-- A call goes on. -/
private theorem Follows.goes (h : Follows c s₀ w place t) (hs : s'.surroundings = s₀.surroundings)
    (hplan : t.state.plan = s'.state.plan) (hk : Kept c s₀.broker w place i s'.state) {x : ConsumerM π Reply}
    (hx : x.Goes) (hp : p'.Valid c s₀.broker s'.state r)
    (htrails : Trails (c.Passes s₀.broker) (Function.update (looked w place) i (p'.keys s'.state))
      t.state.positionOf s'.state.positionOf) :
    Follows c s₀ (w.resume i r s' x) (Function.update place i (some p')) t := by
  obtain ⟨f, k, rfl⟩ := hx
  refine ⟨h.ordered, hs, h.sequential, hplan, valid_resume hk fun _ => hp, ?_⟩
  rw [looked_resume hk]
  simpa [System.resume] using htrails

/-- A call ends. -/
private theorem Follows.ends (h : Follows c s₀ w place t) (hs : s'.surroundings = s₀.surroundings)
    (ht : t'.surroundings = s₀.surroundings) (hplan : t'.state.plan = s'.state.plan)
    (hk : Kept c s₀.broker w place i s'.state) {o : Outcome RmqError Reply} (hrun : (r.body c).run t = (o, t'))
    (htrails : Trails (c.Passes s₀.broker) (Function.update (looked w place) i []) t'.state.positionOf
      s'.state.positionOf) :
    Follows c s₀ (w.resume i r s' (.ret o)) (Function.update place i (some p')) t' := by
  refine ⟨h.ordered.concat hrun i, hs, ht, hplan, valid_resume hk ?_, ?_⟩
  · rintro ⟨f, k, hx⟩
    cases hx
  · rw [looked_resume hk]
    simpa [System.resume] using htrails

private theorem looked_self {l : List (String × Int)} (h : looked w place i = l) :
    Function.update (looked w place) i l = looked w place := by
  rw [← h, Function.update_eq_self]

/-! ### The steps of an operation that is not a poll -/

/-- An operation has got an answer from the broker. -/
private theorem Follows.asked (h : Follows c s₀ w place t) {x y : ConsumerM π StateUpdate} (hask : r.ask c = some x)
    (hy : Asks s₀.broker x y) (hs : s'.surroundings = s₀.surroundings) (hstate : s'.state = w.shared.state)
    (hl : looked w place i = []) :
    ∃ t', Follows c s₀ (w.resume i r s' (y >>= StateUpdate.last))
      (Function.update place i (some (SharedPoint.asking y))) t' := by
  have hplan : t.state.plan = s'.state.plan := by rw [hstate, h.plan]
  have hk : Kept c s₀.broker w place i s'.state := by
    rw [hstate]
    exact h.kept i
  have htrails : Trails (c.Passes s₀.broker) (Function.update (looked w place) i []) t.state.positionOf
      s'.state.positionOf := by
    rw [hstate, looked_self hl]
    exact h.trails
  -- an operation that fails ends here
  have hfails : ∀ o : Outcome RmqError Reply, (y >>= StateUpdate.last) = .ret o →
      (∀ v, (x.run t) = ((y.run t).1, v) → (r.body c).run t = (o, v)) →
      ∃ t', Follows c s₀ (w.resume i r s' (.ret o)) (Function.update place i (some (SharedPoint.asking y))) t' := by
    intro o _ hrun
    have hx := c.asks_ask hask s₀.broker
    have hstate' := hx.state_run t
    refine ⟨(x.run t).2, h.ends hs ?_ ?_ hk (hrun _ ?_) ?_⟩
    · exact (hx.within.view_run t).trans h.sequential
    · rw [hstate']
      exact hplan
    · rw [hy.run t h.sequential]
    · rwa [hstate']
  have hbody : r.body c = x >>= StateUpdate.last := Request.body_ask hask
  rcases y with (u | e | _) | ⟨f, k⟩
  · exact ⟨t, h.goes hs hplan hk ⟨_, _, rfl⟩ ⟨x, hask, hy⟩ htrails⟩
  · refine hfails _ rfl fun v hv => ?_
    rw [hbody, Act.run_bind, hv]
    rfl
  · refine hfails _ rfl fun v hv => ?_
    rw [hbody, Act.run_bind, hv]
    rfl
  · exact ⟨t, h.goes hs hplan hk ⟨_, _, rfl⟩ ⟨x, hask, hy⟩ htrails⟩

omit [DecidableEq ι] in
/-- An update does the same to the positions, whatever they are. -/
private theorem trails_apply (u : StateUpdate) {b : Broker π} {keys : ι → List (String × Int)} {s t : ConsumerState}
    (h : Trails (c.Passes b) keys t.positionOf s.positionOf)
    (hkey : ∀ key offset idx, u = .position key offset ∨ u = .deliver key offset idx → ∀ j, key ∉ keys j)
    (hall : (∃ l, u = .assign l) ∨ u = .clear → ∀ j, keys j = []) :
    Trails (c.Passes b) keys (u.apply t).positionOf (u.apply s).positionOf := by
  have hstore : ∀ (key : String × Int) (offset : Int), (∀ j, key ∉ keys j) →
      Trails (c.Passes b) keys (t.setPosition key offset).positionOf (s.setPosition key offset).positionOf := by
    intro key offset hk
    rw [ConsumerState.positionOf_setPosition, ConsumerState.positionOf_setPosition]
    exact h.store _ hk
  cases u with
  | position key offset => exact hstore key offset (hkey key offset 0 (Or.inl rfl))
  | deliver key offset idx => exact hstore key (offset + 1) (hkey key offset idx (Or.inr rfl))
  | assign l => exact .refl _ (hall (Or.inl ⟨l, rfl⟩))
  | clear => exact .refl _ (hall (Or.inr rfl))

private theorem plan_apply (u : StateUpdate) {s t : ConsumerState} (h : t.plan = s.plan) :
    (u.apply t).plan = (u.apply s).plan := by
  have hplan : ∀ s : ConsumerState, (u.apply s).plan = (u.apply s.plan).plan := by
    intro s
    cases u <;> rfl
  rw [hplan, h, ← hplan]

/-- What an update that does not get in the way of others does to the positions. -/
private theorem SparesOthers.trails (hu : SparesOthers w place i u) {b : Broker π} {t : ConsumerState}
    (h : Trails (c.Passes b) (Function.update (looked w place) i []) t.positionOf w.shared.state.positionOf) :
    Trails (c.Passes b) (Function.update (looked w place) i []) (u.apply t).positionOf
      (u.apply w.shared.state).positionOf := by
  refine trails_apply u h (fun key offset idx hkey j => ?_) fun hall j => ?_
  · by_cases hj : j = i
    · subst hj
      rw [Function.update_self]
      exact List.not_mem_nil
    · rw [Function.update_of_ne hj]
      refine hu.not_looked (fun x entries hspares => ?_) hj
      rcases hkey with rfl | rfl
      · exact hspares.2
      · exact hspares.2
  · by_cases hj : j = i
    · subst hj
      rw [Function.update_self]
    · rw [Function.update_of_ne hj, List.eq_nil_iff_forall_not_mem]
      intro key
      refine hu.not_looked (fun x entries hspares => ?_) hj
      have hentries : entries = [] := by
        rcases hall with ⟨l, rfl⟩ | rfl
        · exact hspares.2
        · exact hspares.2
      rw [hentries]
      exact List.not_mem_nil

/-- The last critical section of an operation that is not a poll. -/
private theorem Follows.updated (h : Follows c s₀ w place t) {x : ConsumerM π StateUpdate} (hask : r.ask c = some x)
    (hx : Asks s₀.broker x (.ret (.ok u))) (hu : SparesOthers w place i u) (hl : looked w place i = []) :
    ∃ t', Follows c s₀ (w.resume i r { w.shared with state := u.apply w.shared.state } (.ret (.ok .unit)))
      (Function.update place i (some p')) t' := by
  have hstate := (c.asks_ask hask s₀.broker).state_run t
  have hrun : (r.body c).run t = (.ok .unit, { (x.run t).2 with state := u.apply t.state }) := by
    have hok : (x.run t).1 = .ok u := (hx.run t h.sequential).symm
    rw [Request.body_ask hask, Act.run_bind, hok, Outcome.andThen_ok, StateUpdate.last, run_reply,
      Session.run_updateState, hstate]
    rfl
  have hs : Session.surroundings { w.shared with state := u.apply w.shared.state } = s₀.surroundings := h.shared
  refine ⟨_, h.ends hs ?_ (plan_apply u h.plan) (h.kept_spared hu) hrun (hu.trails ?_)⟩
  · exact ((c.asks_ask hask s₀.broker).within.view_run t).trans h.sequential
  · rw [looked_self hl]
    exact h.trails

/-! ### The steps of a poll -/

/-- A poll has passed the present entry. -/
private theorem Follows.onward (h : Follows c s₀ w place t) {x : Pass} (hx : x.Open s'.state)
    (hs : s'.surroundings = s₀.surroundings) (hplan : t.state.plan = s'.state.plan)
    (hk : Kept c s₀.broker w place i s'.state)
    (htrails : Trails (c.Passes s₀.broker)
      (Function.update (looked w place) i (x.keys s'.state (x.passed ++ [x.i]))) t.state.positionOf s'.state.positionOf) :
    ∃ t', Follows c s₀ (w.resume i .pollOnce s' (reply (x.rest c) .message))
      (Function.update place i (some (.poll (.onward x)))) t' := by
  rcases htodo : x.todo with _ | ⟨j, todo⟩
  · have hkeys : x.keys s'.state (x.passed ++ [x.i]) = x.keys t.state (x.passed ++ [x.i]) := by
      unfold Pass.keys
      simp only [ConsumerState.polled_congr hplan]
    have hopen : x.Open t.state := ⟨(ConsumerState.pollBounds_congr hplan).trans hx.bounds, hx.entries⟩
    have hpass := htrails.passed i
    have hagain := htrails.again i
    rw [Function.update_self] at hpass hagain
    obtain ⟨u, hrun, hub, huplan, hupos⟩ :=
      BaseConsumer.run_pollOnce_passed (b := s₀.broker) hopen htodo h.sequential hkeys hpass hagain
    have hrest : reply (x.rest c : ConsumerM π _) Reply.message = .ret (.ok (.message none)) := by
      rw [Pass.rest, htodo]
      rfl
    have hu : u.surroundings = s₀.surroundings := by
      rw [← h.sequential, Session.surroundings, Session.surroundings, hub]
    rw [hrest]
    refine ⟨u, h.ends hs hu (huplan.trans hplan) hk ?_ ?_⟩
    · rw [Request.body, run_reply, hrun]
      rfl
    · have hfinish := htrails.finish i
      rwa [Function.update_idem, Function.update_self, ← hupos] at hfinish
  · have honward : (PollPoint.onward x : PollPoint π) = .look ⟨x.start, x.len, x.passed ++ [x.i], j, todo⟩ := by
      rw [PollPoint.onward, htodo]
      rfl
    have hgoes : (reply (x.rest c : ConsumerM π _) Reply.message).Goes := by
      rw [Pass.rest, htodo]
      exact ⟨_, _, rfl⟩
    have hopen : Pass.Open ⟨x.start, x.len, x.passed ++ [x.i], j, todo⟩ s'.state := by
      refine ⟨hx.bounds, ?_⟩
      rw [hx.entries, htodo, List.append_assoc]
      rfl
    rw [honward]
    exact ⟨t, h.goes hs hplan hk hgoes ⟨rfl, hopen⟩ htrails⟩

/-- A poll finds out where it starts. -/
private theorem Follows.started (h : Follows c s₀ w place t) (hl : looked w place i = []) :
    ∃ t', Follows c s₀
      (w.resume i .pollOnce w.shared (((SharedPoint.poll .start : SharedPoint π).code c).rest w.shared))
      (Function.update place i (some ((SharedPoint.poll .start : SharedPoint π).next c w.shared))) t' := by
  have hrest : ((SharedPoint.poll .start : SharedPoint π).code c).rest w.shared =
      reply (if w.shared.state.pollBounds.2 = 0 then pure none else c.pollFrom w.shared.state.pollBounds.1
        w.shared.state.pollBounds.2 (List.range w.shared.state.pollBounds.2)) Reply.message := rfl
  have htrails : Trails (c.Passes s₀.broker) (Function.update (looked w place) i []) t.state.positionOf
      w.shared.state.positionOf := by
    rw [looked_self hl]
    exact h.trails
  rw [hrest]
  split
  · rename_i hlen
    refine ⟨t, h.ends h.shared h.sequential h.plan (h.kept i) ?_ htrails⟩
    rw [Request.body, run_reply, BaseConsumer.run_pollOnce, ConsumerState.pollBounds_congr h.plan, if_pos hlen]
    rfl
  · rename_i hlen
    obtain ⟨j, todo, hrange⟩ := List.exists_cons_of_ne_nil (l := List.range w.shared.state.pollBounds.2) (by simpa)
    have hnext : (SharedPoint.poll .start : SharedPoint π).next c w.shared =
        .poll (.look ⟨w.shared.state.pollBounds.1, w.shared.state.pollBounds.2, [], j, todo⟩) := by
      rw [SharedPoint.next, PollPoint.next, hrange]
      rfl
    rw [hnext, hrange]
    exact ⟨t, h.goes h.shared h.plan (h.kept i) ⟨_, _, rfl⟩ ⟨rfl, rfl, hrange⟩ htrails⟩

/-- The partitions that a poll has passed with its present entry. -/
private theorem keys_concat (x : Pass) (s : ConsumerState) :
    x.keys s (x.passed ++ [x.i]) = x.keys s x.passed ++ (s.polled x.idx).toList := by
  rw [Pass.keys, Pass.keys, List.filterMap_append]
  congr 1

variable {x : Pass} {key : String × Int}

/-- A poll reads its present entry. -/
private theorem Follows.looks (h : Follows c s₀ w place t) (hx : x.Open w.shared.state)
    (hl : looked w place i = x.keys w.shared.state x.passed) :
    ∃ t', Follows c s₀
      (w.resume i .pollOnce w.shared (((SharedPoint.poll (.look x) : SharedPoint π).code c).rest w.shared))
      (Function.update place i (some ((SharedPoint.poll (.look x) : SharedPoint π).next c w.shared))) t' := by
  have hrest : ((SharedPoint.poll (.look x) : SharedPoint π).code c).rest w.shared =
      reply (c.onEntry x.idx (x.rest c) (w.shared.state.pollEntry x.idx)) Reply.message := rfl
  -- an entry that is passed at once
  have hpassed : w.shared.state.polled x.idx = none → ∃ t', Follows c s₀
      (w.resume i .pollOnce w.shared (reply (x.rest c) Reply.message))
      (Function.update place i (some (.poll (.onward x)))) t' := by
    intro hnone
    refine h.onward hx h.shared h.plan (h.kept i) ?_
    rw [keys_concat, hnone, Option.toList_none, List.append_nil, looked_self hl]
    exact h.trails
  rw [hrest, SharedPoint.next, PollPoint.next]
  rcases he : w.shared.state.pollEntry x.idx with _ | ⟨key, position, _ | _⟩
  · refine hpassed ?_
    cases hp : w.shared.state.polled x.idx with
    | none => rfl
    | some key =>
      rw [ConsumerState.pollEntry_of_polled hp] at he
      cases he
  · have hpolled : w.shared.state.polled x.idx = some key := ConsumerState.polled_of_pollEntry he
    obtain ⟨rfl, -⟩ := ConsumerState.pollEntry_eq_some he
    refine ⟨t, h.goes h.shared h.plan (h.kept i) ⟨_, _, rfl⟩ ⟨rfl, hx, hpolled, ?_, fun b hb => ?_⟩ ?_⟩
    · exact Broker.within_fetchOneFromPosition key.1 key.2 _ c.groupId
    · exact BaseConsumer.fetched_congr hb key _
    · rw [show (SharedPoint.poll (PollPoint.ask c x key _) : SharedPoint π).keys w.shared.state =
        x.keys w.shared.state x.passed from rfl, looked_self hl]
      exact h.trails
  · exact hpassed (ConsumerState.polled_of_pollEntry he)

omit [DecidableEq ι] in
/-- A poll that ends at its present entry. -/
private theorem Follows.run_ends (h : Follows c s₀ w place t) (hx : x.Open w.shared.state)
    (hl : looked w place i = x.keys w.shared.state x.passed) (hkey : w.shared.state.polled x.idx = some key)
    (hpos : behind (looked w place i) t.state.positionOf w.shared.state.positionOf key =
      w.shared.state.positionOf key)
    {o : Outcome RmqError (Option StoredMessage)} {g : Session π → Session π}
    (hend : ∀ u, BaseConsumer.afterFetch key x.idx u (c.fetched s₀.broker key (w.shared.state.positionOf key)) =
      .inl (o, g u)) :
    ∃ u : Session π, ((Request.pollOnce.body c).run t) = (o.map .message, g u) ∧
      u.surroundings = s₀.surroundings ∧ u.state.plan = w.shared.state.plan ∧
      u.state.positionOf = behind (looked w place i) t.state.positionOf w.shared.state.positionOf := by
  have hkeys : looked w place i = x.keys t.state x.passed := by
    rw [hl]
    unfold Pass.keys
    simp only [ConsumerState.polled_congr h.plan]
  have hopen : x.Open t.state := ⟨(ConsumerState.pollBounds_congr h.plan).trans hx.bounds, hx.entries⟩
  have hkey' : t.state.polled x.idx = some key := (ConsumerState.polled_congr h.plan _).trans hkey
  obtain ⟨u, hrun, hub, huplan, hupos⟩ := BaseConsumer.run_pollOnce_ends (b := s₀.broker) hopen h.sequential hkeys
    (h.trails.passed i) (h.trails.again i) hkey' hpos hend
  refine ⟨u, ?_, ?_, huplan.trans h.plan, hupos⟩
  · rw [Request.body, run_reply, hrun]
  · rw [← h.sequential, Session.surroundings, Session.surroundings, hub]

/-- A fetch that fails ends the poll. -/
private theorem Follows.failed (h : Follows c s₀ w place t) (hx : x.Open w.shared.state)
    (hl : looked w place i = x.keys w.shared.state x.passed) (hkey : w.shared.state.polled x.idx = some key)
    {o : Outcome RmqError (Option StoredMessage)}
    (hf : c.fetched s₀.broker key (w.shared.state.positionOf key) = o) (ho : ∀ r, o ≠ .ok r)
    (hend : ∀ u : Session π, BaseConsumer.afterFetch key x.idx u o = .inl (o, u)) :
    ∃ t', Follows c s₀ (w.resume i .pollOnce w.shared (.ret (o.map .message))) (Function.update place i (some p')) t' := by
  have hpos : behind (looked w place i) t.state.positionOf w.shared.state.positionOf key =
      w.shared.state.positionOf key := by
    have heq : t.state.positionOf key = w.shared.state.positionOf key := by
      rcases h.trails.pass_or_eq key with hpass | heq
      · exact hpass.eq_of_not_ok fun r => hf ▸ ho r
      · exact heq
    unfold behind
    split
    · rfl
    · exact heq
  subst hf
  obtain ⟨u, hrun, hu, huplan, hupos⟩ := h.run_ends hx hl hkey hpos (g := id) hend
  refine ⟨u, h.ends h.shared hu huplan (h.kept i) hrun ?_⟩
  rw [hupos]
  exact h.trails.finish i

omit [DecidableEq ι] in
/-- A fetch that neither finds a message nor names an offset lets the poll pass the entry, or ends the poll. -/
private theorem onFetched_cases {b : Broker π} {position : Option Int} {o : Outcome RmqError (Option StoredMessage)}
    (idx : Nat) (rest : ConsumerM π (Option StoredMessage)) (hf : c.fetched b key position = o)
    (hmsg : ∀ msg, o = .ok (some msg) → False)
    (hreset : ∀ topic partition offset, o = .err (.offsetOutOfRange topic partition offset) → False) :
    (c.Passes b key position position ∧
      reply ((Session.onBroker (.ret o)).attempt >>= BaseConsumer.onFetched key idx rest) Reply.message =
        reply rest Reply.message) ∨
    (∀ r, o ≠ .ok r) ∧ (∀ u : Session π, BaseConsumer.afterFetch key idx u o = .inl (o, u)) ∧
      reply ((Session.onBroker (.ret o)).attempt >>= BaseConsumer.onFetched key idx rest) Reply.message =
        .ret (o.map .message) := by
  unfold BaseConsumer.Passes
  rw [hf]
  rcases o with (_ | msg) | e | _
  · exact Or.inl ⟨rfl, rfl⟩
  · exact (hmsg msg rfl).elim
  · cases e with
    | offsetOutOfRange topic partition offset => exact (hreset topic partition offset rfl).elim
    -- the poll goes on with the next entry
    | topicNotFound => exact Or.inl ⟨rfl, rfl⟩
    | partitionOutOfRange => exact Or.inl ⟨rfl, rfl⟩
    | groupNotFound => exact Or.inr ⟨by simp, fun _ => rfl, rfl⟩
    | brokerShutdown => exact Or.inr ⟨by simp, fun _ => rfl, rfl⟩
    | invalidConfig => exact Or.inr ⟨by simp, fun _ => rfl, rfl⟩
    | custom => exact Or.inr ⟨by simp, fun _ => rfl, rfl⟩
  · exact Or.inr ⟨by simp, fun _ => rfl, rfl⟩

/-- A poll takes a step of a fetch. -/
private theorem Follows.fetches (h : Follows c s₀ w place t) {y : Fetching π}
    (hp : (PollPoint.fetch x key y).Valid c s₀.broker w.shared.state)
    (hl : looked w place i = x.keys w.shared.state x.passed) :
    ∃ t', Follows c s₀
      (w.resume i .pollOnce w.shared (((SharedPoint.poll (.fetch x key y)).code c).rest w.shared))
      (Function.update place i (some ((SharedPoint.poll (.fetch x key y)).next c w.shared))) t' := by
  obtain ⟨hx, hkey, hwithin, hrun⟩ := hp
  have hrest : ((SharedPoint.poll (.fetch x key y)).code c).rest w.shared =
      reply ((Session.onBroker (y.k w.shared.broker)).attempt >>= BaseConsumer.onFetched key x.idx (x.rest c))
        Reply.message := rfl
  have hstep : ∀ b : Broker π, b.surroundings = s₀.broker.surroundings →
      ((y.k w.shared.broker).run b).1 = c.fetched s₀.broker key (w.shared.state.positionOf key) := by
    intro b hb
    have hb' := hrun b hb
    rw [Fetching.call, Act.run, (y.readOnly b).1, hwithin.2.1 b w.shared.broker (hb.trans h.shared.symm)] at hb'
    exact hb'
  have htrails : Trails (c.Passes s₀.broker) (Function.update (looked w place) i (x.keys w.shared.state x.passed))
      t.state.positionOf w.shared.state.positionOf := by
    rw [looked_self hl]
    exact h.trails
  -- a fetch that the poll passes by
  have hpassed : c.Passes s₀.broker key (w.shared.state.positionOf key) (w.shared.state.positionOf key) →
      ∃ t', Follows c s₀ (w.resume i .pollOnce w.shared (reply (x.rest c) Reply.message))
        (Function.update place i (some (.poll (.onward x)))) t' := by
    intro hpass
    refine h.onward hx h.shared h.plan (h.kept i) ?_
    rw [keys_concat, hkey, ← hl]
    exact h.trails.look i hpass
  rw [hrest, SharedPoint.next, PollPoint.next]
  split
  · rename_i f k hk
    have hcode : reply ((Session.onBroker (y.k w.shared.broker)).attempt >>=
        BaseConsumer.onFetched key x.idx (x.rest c)) Reply.message =
        reply ((Session.onBroker (.atomic f k)).attempt >>= BaseConsumer.onFetched key x.idx (x.rest c))
          Reply.message := by rw [hk]
    have hleft : (Act.atomic f k).Within Broker.surroundings := hk ▸ hwithin.2.2 w.shared.broker
    rw [hk] at hstep
    exact ⟨t, h.goes h.shared h.plan (h.kept i) ⟨_, _, hcode⟩ ⟨rfl, hx, hkey, hleft, hstep⟩ htrails⟩
  · rename_i msg hk
    rw [hk] at hstep ⊢
    exact ⟨t, h.goes h.shared h.plan (h.kept i) ⟨_, _, rfl⟩ ⟨rfl, hx, hkey, (hstep _ rfl).symm⟩ htrails⟩
  · rename_i topic partition offset hk
    rw [hk] at hstep ⊢
    exact ⟨t, h.goes h.shared h.plan (h.kept i) ⟨_, _, rfl⟩
      ⟨rfl, hx, hkey, topic, partition, (hstep _ rfl).symm⟩ htrails⟩
  · rename_i o hmsg hreset hk
    rw [hk] at hstep ⊢
    have hf : c.fetched s₀.broker key (w.shared.state.positionOf key) = o := (hstep _ rfl).symm
    have hstays := onFetched_cases x.idx (x.rest c) hf hmsg hreset
    rcases hstays with ⟨hpass, hcode⟩ | ⟨ho, hend, hcode⟩
    · rw [hcode]
      exact hpassed hpass
    · rw [hcode]
      exact h.failed hx hl hkey hf ho hend

/-- A poll stores the position behind the message that it returns. -/
private theorem Follows.delivers (h : Follows c s₀ w place t) {msg : StoredMessage}
    (hp : (PollPoint.deliver x key msg : PollPoint π).Valid c s₀.broker w.shared.state)
    (hl : looked w place i = x.keys w.shared.state x.passed)
    (hu : SparesOthers w place i (.deliver key msg.offset x.idx)) :
    ∃ t', Follows c s₀ (w.resume i .pollOnce { w.shared with state := w.shared.state.delivered key msg.offset x.idx }
      (.ret (.ok (.message (some msg))))) (Function.update place i (some p')) t' := by
  obtain ⟨hx, hkey, hf⟩ := hp
  have hpos : behind (looked w place i) t.state.positionOf w.shared.state.positionOf key =
      w.shared.state.positionOf key :=
    h.trails.behind_eq fun j hj => hu.not_looked (fun x entries hspares => hspares.2) hj
  have hend : ∀ u : Session π, BaseConsumer.afterFetch key x.idx u
      (c.fetched s₀.broker key (w.shared.state.positionOf key)) =
      .inl (.ok (some msg), { u with state := u.state.delivered key msg.offset x.idx }) := by
    intro u
    rw [hf]
    rfl
  obtain ⟨u, hrun, hview, huplan, hupos⟩ := h.run_ends hx hl hkey hpos hend
  have htrails := h.trails.finish i
  rw [← hupos] at htrails
  have hs : Session.surroundings { w.shared with state := w.shared.state.delivered key msg.offset x.idx } =
      s₀.surroundings := h.shared
  have hview' : Session.surroundings { u with state := u.state.delivered key msg.offset x.idx } = s₀.surroundings :=
    hview
  exact ⟨_, h.ends hs hview' (plan_apply (.deliver key msg.offset x.idx) huplan) (h.kept_spared hu) hrun
    (hu.trails htrails)⟩

/-- A poll stores the offset that a fetch out of range has named. -/
private theorem Follows.resets (h : Follows c s₀ w place t) {offset : Int}
    (hp : (PollPoint.reset x key offset : PollPoint π).Valid c s₀.broker w.shared.state)
    (hl : looked w place i = x.keys w.shared.state x.passed) (hu : SparesOthers w place i (.position key offset)) :
    ∃ t', Follows c s₀ (w.resume i .pollOnce { w.shared with state := w.shared.state.setPosition key offset }
      (reply (x.rest c) Reply.message)) (Function.update place i (some (.poll (.onward x)))) t' := by
  obtain ⟨hx, hkey, topic, partition, hf⟩ := hp
  have hothers : ∀ j, j ≠ i → key ∉ looked w place j :=
    fun j hj => hu.not_looked (fun x entries hspares => hspares.2) hj
  -- the poll itself has not passed the partition: its position would be in range
  have hself : key ∉ looked w place i := by
    intro hkey'
    have heq : t.state.positionOf key = w.shared.state.positionOf key :=
      (h.trails.passed i key hkey').eq_of_not_ok fun r hr => by rw [hf] at hr; cases hr
    have hpass := h.trails.passed i key hkey'
    rw [heq] at hpass
    unfold BaseConsumer.Passes at hpass
    rw [hf] at hpass
    obtain ⟨r, hr⟩ := BaseConsumer.fetched_named hf
    have hpass' : w.shared.state.positionOf key = some offset := hpass
    rw [hpass', hr] at hf
    cases hf
  have hfree : ∀ j, key ∉ looked w place j := by
    intro j
    by_cases hj : j = i
    · rwa [hj]
    · exact hothers j hj
  have hpass : c.Passes s₀.broker key (w.shared.state.positionOf key) (some offset) := by
    unfold BaseConsumer.Passes
    rw [hf]
  have hs : Session.surroundings { w.shared with state := w.shared.state.setPosition key offset } = s₀.surroundings :=
    h.shared
  have hplan : t.state.plan = (w.shared.state.setPosition key offset).plan := h.plan
  have hx' : x.Open (Session.state { w.shared with state := w.shared.state.setPosition key offset }) :=
    ⟨hx.bounds, hx.entries⟩
  refine h.onward hx' hs hplan (h.kept_spared hu) ?_
  have hkeys : x.keys (w.shared.state.setPosition key offset) (x.passed ++ [x.i]) = looked w place i ++ [key] := by
    rw [hl, show x.keys (w.shared.state.setPosition key offset) (x.passed ++ [x.i]) =
      x.keys w.shared.state (x.passed ++ [x.i]) from rfl, keys_concat, hkey]
    rfl
  rw [hkeys, ConsumerState.positionOf_setPosition]
  exact h.trails.move i hfree hpass

end

/-! ### Runs -/

/-- The next critical section does not get in the way of a poll of another thread. -/
def Undisturbed (w : SharedRun ι π) (place : ι → Option (SharedPoint π)) : Choice ι Request → Prop
  | .call _ _ => True
  | .step i => ∀ p u, (w.running i).isSome → place i = some p → p.stores = some u → SparesOthers w place i u

namespace Request

/-- The operations that run concurrently on the consumer. -/
def Shared : Request → Prop
  | pollOnce => True
  | unsubscribe _ => True
  | assign _ => True
  | seek _ _ _ => True
  | storeOffset _ _ _ => True
  | _ => False

theorem Shared.ask {r : Request} (h : r.Shared) (hne : r ≠ .pollOnce) (c : BaseConsumer) :
    ∃ x : ConsumerM π StateUpdate, r.ask c = some x ∧ (SharedPoint.start c r : SharedPoint π) = .asking x := by
  cases r with
  | pollOnce => exact absurd rfl hne
  | unsubscribe => exact ⟨_, rfl, rfl⟩
  | assign => exact ⟨_, rfl, rfl⟩
  | seek => exact ⟨_, rfl, rfl⟩
  | storeOffset => exact ⟨_, rfl, rfl⟩
  | subscribe => cases h
  | assignment => cases h
  | commit => cases h
  | commitMessage => cases h
  | committed => cases h
  | positions => cases h
  | pause => cases h
  | resume => cases h
  | metadata => cases h
  | watermarks => cases h

end Request

section

variable {c : BaseConsumer} {s₀ t : Session π} {w : SharedRun ι π} {place : ι → Option (SharedPoint π)} {i : ι}
  {r : Request} [DecidableEq ι]

private theorem Follows.called (h : Follows c s₀ w place t) (hr : w.running i = none) (hshared : r.Shared) :
    ∃ t', Follows c s₀ (w.resume i r w.shared (r.body c))
      (Function.update place i (some (SharedPoint.start c r))) t' := by
  have hl : looked w place i = [] := looked_of_idle hr
  by_cases hp : r = .pollOnce
  · subst hp
    refine ⟨t, h.goes h.shared h.plan (h.kept i) ⟨_, _, rfl⟩ ⟨rfl, trivial⟩ ?_⟩
    rw [show (SharedPoint.start c .pollOnce : SharedPoint π).keys w.shared.state = [] from rfl, looked_self hl]
    exact h.trails
  · obtain ⟨x, hask, hstart⟩ := hshared.ask (π := π) hp c
    rw [Request.body_ask hask, hstart]
    exact h.asked hask (c.asks_ask hask s₀.broker) h.shared rfl hl

/-- The next step of a poll in flight. -/
private theorem Follows.polls (h : Follows c s₀ w place t) {p : PollPoint π} {f : Session π → Session π}
    {k : Session π → ConsumerM π Reply} (hcode : (SharedPoint.poll p).code c = .atomic f k)
    (hr : w.running i = some (.pollOnce, .atomic f k)) (hp : place i = some (.poll p))
    (hu : ∀ u, p.update = some u → SparesOthers w place i u) :
    ∃ t', Follows c s₀ (w.resume i .pollOnce (f w.shared) (k w.shared))
      (Function.update place i (some ((SharedPoint.poll p).next c w.shared))) t' := by
  obtain ⟨-, hvalid⟩ := h.valid i _ _ _ hr hp
  have hl := looked_of_running hr hp
  cases p with
  | start =>
    obtain ⟨rfl, rfl⟩ := Act.atomic.inj hcode
    exact h.started hl
  | look x =>
    obtain ⟨rfl, rfl⟩ := Act.atomic.inj hcode
    exact h.looks hvalid hl
  | fetch x key y =>
    have hfetch := h.fetches hvalid hl
    obtain ⟨rfl, rfl⟩ := Act.atomic.inj hcode
    have hsame : Session.brokerLens.put w.shared (y.f w.shared.broker) = w.shared := by
      rw [(y.readOnly w.shared.broker).1]
      rfl
    show ∃ t', Follows c s₀ (w.resume i .pollOnce (Session.brokerLens.put w.shared (y.f w.shared.broker)) _) _ t'
    rw [hsame]
    exact hfetch
  | deliver x key msg =>
    obtain ⟨rfl, rfl⟩ := Act.atomic.inj hcode
    exact h.delivers hvalid hl (hu _ rfl)
  | reset x key offset =>
    obtain ⟨rfl, rfl⟩ := Act.atomic.inj hcode
    exact h.resets hvalid hl (hu _ rfl)

/-- The next step of a call in flight. -/
private theorem Follows.steps (h : Follows c s₀ w place t) {p : SharedPoint π} {f : Session π → Session π}
    {k : Session π → ConsumerM π Reply} (hcode : p.code c = .atomic f k) (hr : w.running i = some (r, .atomic f k))
    (hp : place i = some p) (hu : ∀ u, p.stores = some u → SparesOthers w place i u) :
    ∃ t', Follows c s₀ (w.resume i r (f w.shared) (k w.shared))
      (Function.update place i (some (p.next c w.shared))) t' := by
  have hvalid := h.valid i r _ p hr hp
  have hl := looked_of_running hr hp
  cases p with
  | poll p =>
    obtain ⟨rfl, -⟩ := hvalid
    exact h.polls hcode hr hp hu
  | ask f' k' =>
    obtain ⟨x, hask, hx⟩ := hvalid
    obtain ⟨rfl, rfl⟩ := Act.atomic.inj hcode
    exact h.asked hask (hx.next h.shared) ((hx.within.1 _).trans h.shared) (hx.silent _).1 hl
  | update u =>
    obtain ⟨x, hask, hx⟩ := hvalid
    obtain ⟨rfl, rfl⟩ := Act.atomic.inj hcode
    exact h.updated hask hx (hu u rfl) hl
  | other x => cases hvalid

/-- The step lemma. -/
theorem Follows.next (h : Follows c s₀ w place t) (hplaced : (sharedPoints c).Placed w place)
    {x : Choice ι Request} (hcall : ∀ i r, x = .call i r → r.Shared) (hx : Undisturbed w place x) :
    ∃ t', Follows c s₀ (w.next (Request.body c) x) ((sharedPoints c).move w place x) t' := by
  cases x with
  | call i r =>
    cases hr : w.running i with
    | none =>
      rw [System.next_call hr, Points.move, hr, Option.isNone_none, if_pos rfl]
      exact h.called hr (hcall i r rfl)
    | some e =>
      have hn : w.next (Request.body c) (.call i r) = w := by simp only [System.next, hr]
      rw [hn, Points.move, hr, Option.isNone_some, if_neg (by simp)]
      exact ⟨t, h⟩
  | step i =>
    rcases hr : w.running i with _ | ⟨r, x⟩
    · -- nothing is in flight
      have hn : w.next (Request.body c) (.step i) = w := by simp only [System.next, hr]
      rw [hn, Points.move]
      have hlooked : looked w (Function.update place i ((place i).map fun p => (sharedPoints c).advance p w.shared)) =
          looked w place := by
        funext j
        by_cases hj : j = i
        · subst hj
          rw [looked_of_idle hr, looked_of_idle hr]
        · rw [looked, looked, Function.update_of_ne hj]
      refine ⟨t, h.ordered, h.shared, h.sequential, h.plan, fun j r x p hrj hpj => ?_, ?_⟩
      · have hj : j ≠ i := by
          rintro rfl
          rw [hr] at hrj
          cases hrj
        rw [Function.update_of_ne hj] at hpj
        exact h.valid j r x p hrj hpj
      · rw [hlooked]
        exact h.trails
    · obtain ⟨⟨f, k, rfl⟩, p, hp, hcode⟩ := hplaced i r x hr
      rw [System.next_step hr, Points.move, hp, Option.map_some]
      exact h.steps hcode hr hp fun u hu => hx p u (by rw [hr]; rfl) hp hu

end

end RMemQueue
