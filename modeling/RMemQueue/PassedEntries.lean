import RMemQueue.PollOnce
import RMemQueue.Surroundings

/-!
# The entries that a poll has passed (`base_consumer.rs`)

What a round of `poll_once` does depends on the position of its partition only, as long as the assignment and the
surroundings stay: `Passes` says that a poll which reads one position goes on and leaves another one.  `run_passed`: a
poll goes through entries that it passes, whatever the other positions are.
-/

namespace RMemQueue

open Conc

variable {π : Type}

/-! ### Positions -/

namespace ConsumerState

/-- The stored positions. -/
def positionOf (s : ConsumerState) (key : String × Int) : Option Int := s.position.lookup key

/-- The state but for its positions. -/
def plan (s : ConsumerState) : ConsumerState := { s with position := ∅ }

variable {s s' : ConsumerState}

@[simp] theorem positionOf_setPosition (s : ConsumerState) (key : String × Int) (offset : Int) :
    (s.setPosition key offset).positionOf = Function.update s.positionOf key (some offset) := by
  funext k
  by_cases hk : k = key
  · subst hk
    rw [Function.update_self]
    exact AList.lookup_insert _
  · rw [Function.update_of_ne hk]
    exact AList.lookup_insert_ne hk

@[simp] theorem plan_setPosition (s : ConsumerState) (key : String × Int) (offset : Int) :
    (s.setPosition key offset).plan = s.plan := rfl

theorem pollBounds_congr (h : s.plan = s'.plan) : s.pollBounds = s'.pollBounds := by
  show s.plan.pollBounds = s'.plan.pollBounds
  rw [h]

theorem polled_congr (h : s.plan = s'.plan) (idx : Nat) : s.polled idx = s'.polled idx := by
  show s.plan.polled idx = s'.plan.polled idx
  rw [h]

theorem pollEntry_of_polled {idx : Nat} {key : String × Int} (h : s.polled idx = some key) :
    s.pollEntry idx = some (key, s.positionOf key, false) := by
  obtain ⟨elem, helem, hkey⟩ := Option.bind_eq_some_iff.1 h
  by_cases hp : elem.key ∈ s.paused
  · rw [if_pos hp] at hkey
    cases hkey
  · rw [if_neg hp] at hkey
    obtain rfl := Option.some.inj hkey
    rw [pollEntry_of_getElem? helem, decide_eq_false hp]
    rfl

theorem polled_of_pollEntry {idx : Nat} {key : String × Int} {position : Option Int} {paused : Bool}
    (h : s.pollEntry idx = some (key, position, paused)) :
    s.polled idx = if paused then none else some key := by
  obtain ⟨elem, helem, he⟩ := Option.map_eq_some_iff.1 h
  obtain ⟨rfl, -, rfl⟩ : elem.key = key ∧ s.position.lookup elem.key = position ∧
      decide (elem.key ∈ s.paused) = paused := by simpa using he
  rw [polled, helem]
  simp only [Option.bind_some, decide_eq_true_eq]

end ConsumerState

namespace BaseConsumer

open Session

variable (c : BaseConsumer)

/-! ### The entries that a poll has passed -/

/-- What a poll is told that asks for a partition from a position on. -/
def fetched (b : Broker π) (key : String × Int) (position : Option Int) : Outcome RmqError (Option StoredMessage) :=
  ((Broker.fetchOneFromPosition key.1 key.2 position c.groupId).run b).1

/-- A poll that reads the position `q` of the partition goes on and leaves the position `q'`. -/
def Passes (b : Broker π) (key : String × Int) (q q' : Option Int) : Prop :=
  match c.fetched b key q with
  | .ok none => q' = q
  | .err (.offsetOutOfRange _ _ offset) => q' = some offset
  | .err (.topicNotFound _) => q' = q
  | .err (.partitionOutOfRange _ _) => q' = q
  | _ => False

variable {c} {b : Broker π} {key : String × Int} {q q' : Option Int}

theorem fetched_congr {b' : Broker π} (h : b.surroundings = b'.surroundings) (key : String × Int) (q : Option Int) :
    c.fetched b key q = c.fetched b' key q :=
  (Broker.within_fetchOneFromPosition key.1 key.2 q c.groupId).run h

/-- The offset that a fetch out of range names is in range. -/
theorem fetched_named {topic : String} {partition o : Int}
    (h : c.fetched b key q = .err (.offsetOutOfRange topic partition o)) :
    ∃ r, c.fetched b key (some o) = .ok r := by
  obtain ⟨hr, p, -, hp, rfl, -, -⟩ := Broker.fetch_eq_outOfRange h
  rw [fetched, Broker.run_fetchOneFromPosition hr hp, Broker.start?]
  cases hread : p.readOne p.watermarks.1 with
  | ok r => exact ⟨r, by simp only [Option.elim_some, hread]⟩
  | error e =>
    exfalso
    obtain ⟨-, hout, hempty⟩ := p.readOne_eq_error_iff.1 hread
    have hmark := congrArg Prod.fst p.watermarks_eq
    have hle := p.abs.dropped_le_next
    by_cases hnil : p.abs.retained = []
    · rw [if_pos hnil] at hmark
      exact hempty ⟨hmark, hnil⟩
    · rw [if_neg hnil] at hmark
      dsimp only at hmark
      omega

/-- A position that was left by a poll that moved it is in range. -/
theorem Passes.eq_of_not_ok (h : c.Passes b key q q') (hq : ∀ r, c.fetched b key q' ≠ .ok r) : q = q' := by
  unfold Passes at h
  split at h
  · exact h.symm
  · rename_i hf
    obtain ⟨r, hr⟩ := fetched_named hf
    rw [h] at hq
    exact absurd hr (hq r)
  · exact h.symm
  · exact h.symm
  · cases h

/-- A round of a poll on an entry that it passes. -/
private theorem afterFetch_of_passes (h : c.Passes b key q q') {s : Session π} (hs : s.surroundings = b.surroundings)
    (hq : s.state.positionOf key = q) (idx : Nat) :
    ∃ s', afterFetch key idx s (c.fetched s.broker key q) = .inr s' ∧ s'.broker = s.broker ∧
      s'.state.plan = s.state.plan ∧ s'.state.positionOf = Function.update s.state.positionOf key q' := by
  have hstay : q' = q → s.state.positionOf = Function.update s.state.positionOf key q' := by
    rintro rfl
    rw [← hq, Function.update_eq_self]
  rw [fetched_congr hs]
  unfold Passes at h
  split at h
  · rename_i hf
    exact ⟨s, by rw [hf]; rfl, rfl, rfl, hstay h⟩
  · rename_i offset hf
    exact ⟨{ s with state := s.state.setPosition key offset }, by rw [hf]; rfl, rfl, rfl, by rw [h]; simp⟩
  · rename_i hf
    exact ⟨s, by rw [hf]; rfl, rfl, rfl, hstay h⟩
  · rename_i hf
    exact ⟨s, by rw [hf]; rfl, rfl, rfl, hstay h⟩
  · cases h

private theorem pollRound_of_polled {s : Session π} {idx : Nat} (h : s.state.polled idx = some key) :
    c.pollRound s idx = afterFetch key idx s (c.fetched s.broker key (s.state.positionOf key)) := by
  rw [pollRound, ConsumerState.pollEntry_of_polled h]
  rfl

private theorem pollRound_of_not_polled {s : Session π} {idx : Nat} (h : s.state.polled idx = none) :
    c.pollRound s idx = .inr s := by
  rw [pollRound]
  split
  · rfl
  · rfl
  · rename_i he
    rw [ConsumerState.polled_of_pollEntry he] at h
    cases h

/-- The run lemma: a poll goes through entries that it passes one by one. -/
private theorem run_passed (start len : Nat) {passed : List Nat} {s : Session π} {target : String × Int → Option Int}
    (hs : s.surroundings = b.surroundings) {keys : List (String × Int)}
    (hkeys : keys = passed.filterMap fun i => s.state.polled ((start + i) % len))
    (hpass : ∀ k ∈ keys, c.Passes b k (s.state.positionOf k) (target k))
    (hagain : ∀ k, keys.Duplicate k → c.Passes b k (target k) (target k)) (todo : List Nat) :
    ∃ u : Session π, (c.pollFrom start len (passed ++ todo)).run s = (c.pollFrom start len todo).run u ∧
      u.broker = s.broker ∧ u.state.plan = s.state.plan ∧
      u.state.positionOf = behind keys s.state.positionOf target := by
  induction passed generalizing s keys with
  | nil =>
    subst hkeys
    exact ⟨s, rfl, rfl, rfl, rfl⟩
  | cons i passed ih =>
    rw [List.cons_append, run_pollFrom_cons]
    rcases hi : s.state.polled ((start + i) % len) with _ | key
    · rw [List.filterMap_cons, hi] at hkeys
      rw [pollRound_of_not_polled hi]
      exact ih hs hkeys hpass hagain
    · rw [List.filterMap_cons, hi] at hkeys
      subst hkeys
      obtain ⟨s', hround, hb, hplan, hpos⟩ :=
        afterFetch_of_passes (hpass key (List.mem_cons_self ..)) hs rfl ((start + i) % len)
      rw [pollRound_of_polled hi, hround]
      have hs' : s'.surroundings = b.surroundings := by
        rw [← hs, surroundings, surroundings, hb]
      have hkeys' : passed.filterMap (fun i => s.state.polled ((start + i) % len)) =
          passed.filterMap fun i => s'.state.polled ((start + i) % len) := by
        simp only [ConsumerState.polled_congr hplan]
      have hpass' : ∀ k ∈ passed.filterMap (fun i => s.state.polled ((start + i) % len)),
          c.Passes b k (s'.state.positionOf k) (target k) := by
        intro k hk
        rw [hpos]
        by_cases hkk : k = key
        · -- the partition comes again
          subst hkk
          rw [Function.update_self]
          exact hagain k hk.duplicate_cons_self
        · rw [Function.update_of_ne hkk]
          exact hpass k (List.mem_cons_of_mem _ hk)
      obtain ⟨u, hrun, hub, huplan, hupos⟩ :=
        ih hs' hkeys' hpass' fun k hk => hagain k (hk.duplicate_cons key)
      refine ⟨u, hrun, hub.trans hb, huplan.trans hplan, ?_⟩
      rw [hupos, hpos, behind_cons]

end BaseConsumer

/-- The entries of the pass are those of a poll that begins now. -/
structure Pass.Open (x : Pass) (s : ConsumerState) : Prop where
  bounds : s.pollBounds = (x.start, x.len)
  entries : List.range x.len = x.passed ++ x.i :: x.todo

namespace BaseConsumer

variable {c : BaseConsumer} {b : Broker π} {x : Pass} {s : Session π} {target : String × Int → Option Int}

private theorem run_pollOnce_open (h : x.Open s.state) :
    c.pollOnce.run s = (c.pollFrom x.start x.len (x.passed ++ x.i :: x.todo)).run s := by
  have hlen : x.len ≠ 0 := by
    intro hlen
    have hrange := h.entries
    rw [hlen] at hrange
    simp at hrange
  rw [run_pollOnce, h.bounds, if_neg hlen, h.entries]

/-- A poll that passes all entries. -/
theorem run_pollOnce_passed (h : x.Open s.state) (htodo : x.todo = []) (hs : s.surroundings = b.surroundings)
    {keys : List (String × Int)} (hkeys : keys = x.keys s.state (x.passed ++ [x.i]))
    (hpass : ∀ k ∈ keys, c.Passes b k (s.state.positionOf k) (target k))
    (hagain : ∀ k, keys.Duplicate k → c.Passes b k (target k) (target k)) :
    ∃ u : Session π, c.pollOnce.run s = (.ok none, u) ∧ u.broker = s.broker ∧ u.state.plan = s.state.plan ∧
      u.state.positionOf = behind keys s.state.positionOf target := by
  obtain ⟨u, hrun, hu⟩ := run_passed x.start x.len hs hkeys hpass hagain []
  refine ⟨u, ?_, hu⟩
  rw [run_pollOnce_open h, htodo, ← List.append_nil (x.passed ++ [x.i]), hrun]
  rfl

/-- A poll that passes the entries before the present one, which ends it. -/
theorem run_pollOnce_ends (h : x.Open s.state) (hs : s.surroundings = b.surroundings)
    {keys : List (String × Int)} (hkeys : keys = x.keys s.state x.passed)
    (hpass : ∀ k ∈ keys, c.Passes b k (s.state.positionOf k) (target k))
    (hagain : ∀ k, keys.Duplicate k → c.Passes b k (target k) (target k)) {key : String × Int}
    (hkey : s.state.polled x.idx = some key) (hpos : behind keys s.state.positionOf target key = target key)
    {o : Outcome RmqError (Option StoredMessage)} {g : Session π → Session π}
    (hend : ∀ u, afterFetch key x.idx u (c.fetched b key (target key)) = .inl (o, g u)) :
    ∃ u : Session π, c.pollOnce.run s = (o, g u) ∧ u.broker = s.broker ∧ u.state.plan = s.state.plan ∧
      u.state.positionOf = behind keys s.state.positionOf target := by
  obtain ⟨u, hrun, hb, hplan, hupos⟩ := run_passed x.start x.len hs hkeys hpass hagain (x.i :: x.todo)
  refine ⟨u, ?_, hb, hplan, hupos⟩
  have hu : u.surroundings = b.surroundings := by
    rw [← hs, Session.surroundings, Session.surroundings, hb]
  have hround : c.pollRound u x.idx = .inl (o, g u) := by
    rw [pollRound_of_polled ((ConsumerState.polled_congr hplan x.idx).trans hkey), fetched_congr hu, hupos, hpos]
    exact hend u
  rw [run_pollOnce_open h, hrun, run_pollFrom_cons, show (x.start + x.i) % x.len = x.idx from rfl, hround]
  rfl

end BaseConsumer

end RMemQueue
